import LiveProse.Proofs.Chart.Order
import LiveProse.Proofs.Deduction.Calls

/-! Charts along an order of their sites, and what a change of an observation does to them. Edges lead
on in the order and matches begin before they end; the engine keeps it so as long as it is not asked
for an edge that leads back. -/

namespace LiveProse

namespace Chart

variable {chart : Chart} {position : BufferId → Site → ℕ} {fact : Fact} {key : MatchKey}
variable {direction : Direction} {id : BufferId} {site source target : Site}

/-- A chart in order, along an order of the sites. -/
structure Ordered (position : BufferId → Site → ℕ) (chart : Chart) : Prop where
  sound : chart.Sound
  aligned : chart.Aligned position
  spanned : chart.Spanned position

/-- A chart in order that holds no more than another is along the same order. -/
theorem Ordered.of_holds {other : Chart} (h : chart.Ordered position) (hsound : other.Sound)
    (hholds : ∀ fact, other.holds fact = true → chart.holds fact = true) : other.Ordered position :=
  ⟨hsound, fun id source target hnext => h.aligned id source target (hholds _ hnext),
    fun key hkey => h.spanned key (hkey.imp (hholds _) (hholds _))⟩

/-- A match that follows by a derivation begins before it ends. -/
theorem Ordered.le_of_holding (h : chart.Ordered position) {d : Derivation}
    (hd : table.Holding chart d)
    (hkey : d.conclusion = .potential key ∨ d.conclusion = .complete key) :
    position key.buffer key.beginningSite ≤ position key.buffer key.endSite := by
  have halong : d.conclusion.Along (fun id a b => position id a < position id b)
      fun id a b => position id a ≤ position id b :=
    along_conclusion (fun _ _ => Nat.le_refl _) (fun _ _ _ _ _ h₁ h₂ h₃ => h₁.trans (h₂.le.trans h₃))
      hd.1 fun a ha => along_of_holds h.aligned h.spanned (hd.2 a ha)
  rcases hkey with hkey | hkey <;>
  · rw [hkey] at halong
    exact halong

/-- A change keeps the order if a match that it adds begins before it ends and an edge that it adds
leads on. -/
theorem Ordered.of_shift {after : Chart × Bool} (h : chart.Ordered position) (hsound : after.1.Sound)
    (hshift : Shift count skeleton direction chart fact after)
    (hedge : direction = .justify → ∀ id source target, fact = .next id source target →
      position id source < position id target)
    (hmatch : direction = .justify → ∀ key, fact = .potential key ∨ fact = .complete key →
      position key.buffer key.beginningSite ≤ position key.buffer key.endSite) :
    after.1.Ordered position := by
  -- in the other direction nothing comes to hold
  have hheld (a : Fact) (ha : after.1.holds a = true) :
      chart.holds a = true ∨ a = fact ∧ direction = .justify := by
    by_cases hfact : a = fact
    · subst hfact
      cases hflag : after.2 with
      | true =>
        have hturned : after.1.holds a = direction.sense := (hshift.turned hflag).2
        cases direction with
        | justify => exact .inr ⟨rfl, rfl⟩
        | unjustify =>
          rw [hturned] at ha
          cases ha
      | false => exact .inl ((hshift.stayed hflag).symm.trans ha)
    · exact .inl ((hshift.holds_eq a hfact).symm.trans ha)
  refine ⟨hsound, fun id source target hnext => ?_, fun key hkey => ?_⟩
  · rcases hheld _ hnext with hold | ⟨hfact, hdirection⟩
    · exact h.aligned id source target hold
    · exact hedge hdirection id source target hfact.symm
  · rcases hkey with hkey | hkey
    · rcases hheld _ hkey with hold | ⟨hfact, hdirection⟩
      · exact h.spanned key (.inl hold)
      · exact hmatch hdirection key (.inl hfact.symm)
    · rcases hheld _ hkey with hold | ⟨hfact, hdirection⟩
      · exact h.spanned key (.inr hold)
      · exact hmatch hdirection key (.inr hfact.symm)

/-- The chart does what the engine relies on, along any order. -/
theorem ordered_contract (position : BufferId → Site → ℕ) :
    Contract table count (Ordered position) skeleton conceivable where
  kind_conclusion s d h := contract.kind_conclusion s d h.sound
  framed := contract.framed
  holds_iff s fact h := contract.holds_iff s fact h.sound
  lists s fact h := contract.lists s fact h.sound
  justify s fact h hkind hsupport := by
    obtain ⟨hsound, hshift, hcount⟩ := contract.justify s fact h.sound hkind hsupport
    refine ⟨h.of_shift hsound hshift ?_ ?_, hshift, hcount⟩
    · rintro - id source target rfl
      cases hkind
    · intro _ key hkey
      obtain ⟨d, hconclusion, hd⟩ := hsupport
      exact h.le_of_holding hd (hkey.imp hconclusion.trans hconclusion.trans)
  unjustify s fact h hkind hcount := by
    obtain ⟨hsound, hshift, hcount⟩ := contract.unjustify s fact h.sound hkind hcount
    exact ⟨h.of_shift hsound hshift (fun hdirection => Direction.noConfusion hdirection)
      (fun hdirection => Direction.noConfusion hdirection), hshift, hcount⟩
  conceived s fact h := contract.conceived s fact h.sound
  length_lt s h := contract.length_lt s h.sound

/-! ### Changes of observations -/

/-- The frame of a chart has the frame of each buffer. -/
theorem find?_skeleton (chart : Chart) (id : BufferId) :
    chart.skeleton.2.2.find? (·.1 = id) = (chart.buffer? id).map Buffer.skeleton := by
  unfold skeleton buffer?
  rw [List.find?_map]
  rfl

theorem recorded_congr {other : Chart} (h : chart.skeleton = other.skeleton) :
    chart.Recorded id site ↔ other.Recorded id site := by
  have hrecorded (chart : Chart) : chart.Recorded id site ↔
      ∃ buffer, chart.skeleton.2.2.find? (·.1 = id) = some buffer ∧
        site ∈ buffer.2.2.2.map Prod.fst := by
    rw [find?_skeleton]
    simp only [Recorded, Option.map_eq_some_iff, Buffer.hasRecord_iff]
    constructor
    · rintro ⟨buffer, hbuffer, hsite⟩
      exact ⟨_, ⟨buffer, hbuffer, rfl⟩, by simpa [Buffer.skeleton, Function.comp_def] using hsite⟩
    · rintro ⟨-, ⟨buffer, hbuffer, rfl⟩, hsite⟩
      exact ⟨buffer, hbuffer, by simpa [Buffer.skeleton, Function.comp_def] using hsite⟩
  rw [hrecorded, hrecorded, h]

/-- The change of a buffer that makes a fact about it what it should become. -/
theorem sets_of_changes {framed : Grammar × Vocabulary ×
      List (BufferId × BufferKind × TokenSequence × List (Site × SiteInfo))}
    {change : Buffer → Buffer × Bool} (hown : fact.buffer? = some id)
    (hkind : kind fact ≠ .deduction)
    (heq : ∀ chart : Chart, Engine.change direction chart fact = chart.changeBuffer id change)
    (hchange : ∀ chart : Chart, chart.Sound → chart.skeleton = framed → ∀ buffer,
      chart.buffer? id = some buffer →
        Buffer.Changes chart.grammar direction.sense fact buffer (change buffer) ∧
          ((change buffer).2 = false → buffer.holds fact = direction.sense))
    (hnone : ∀ chart : Chart, chart.skeleton = framed → chart.buffer? id = none →
      direction.sense = false)
    (hedge : direction = .justify → ∀ id source target, fact = .next id source target →
      position id source < position id target) :
    Sets count (Ordered position) skeleton direction framed fact := by
  intro chart h hframe
  rw [heq]
  obtain ⟨hsound, hshift⟩ := h.sound.shift_changeBuffer direction fact hown fun buffer hbuffer =>
    (hchange chart h.sound hframe buffer hbuffer).1
  refine ⟨h.of_shift hsound hshift hedge fun _ key hkey => ?_, hshift, ?_⟩
  · rcases hkey with rfl | rfl <;> exact absurd rfl hkind
  · cases hflag : (chart.changeBuffer id change).2 with
    | true => exact (hshift.turned hflag).2
    | false =>
      refine (hshift.stayed hflag).trans ?_
      cases hbuffer : chart.buffer? id with
      | none => exact (holds_of_buffer?_none hown hbuffer).trans (hnone chart hframe hbuffer).symm
      | some buffer =>
        refine (holds_of_buffer? hown hbuffer).trans ?_
        refine (hchange chart h.sound hframe buffer hbuffer).2 ?_
        rw [changeBuffer, hbuffer] at hflag
        exact hflag

variable {framed : Grammar × Vocabulary ×
  List (BufferId × BufferKind × TokenSequence × List (Site × SiteInfo))}

theorem Recorded.of_buffer? {buffer : Buffer} (h : chart.Recorded id site)
    (hbuffer : chart.buffer? id = some buffer) : buffer.hasRecord site = true := by
  obtain ⟨other, hother, hrecord⟩ := h
  obtain rfl := Option.some.inj (hbuffer.symm.trans hother)
  exact hrecord

theorem sets_next (hlt : position id source < position id target)
    (hsource : chart.Recorded id source) (htarget : chart.Recorded id target) :
    Sets count (Ordered position) skeleton .justify chart.skeleton (.next id source target) := by
  refine sets_of_changes rfl FactKind.noConfusion (fun _ => rfl) ?_ ?_ ?_
  · intro other hsound hframe buffer hbuffer
    obtain ⟨-, rfl⟩ := buffer?_eq_some hbuffer
    have hsource := ((recorded_congr hframe).2 hsource).of_buffer? hbuffer
    have htarget := ((recorded_congr hframe).2 htarget).of_buffer? hbuffer
    refine ⟨Buffer.changes_addEdge (hsound.buffer hbuffer) ?_ htarget,
      Buffer.holds_of_addEdge hsource⟩
    rintro rfl
    exact Nat.lt_irrefl _ hlt
  · intro other hframe hbuffer
    obtain ⟨buffer, hother, -⟩ := (recorded_congr hframe).2 hsource
    rw [hbuffer] at hother
    cases hother
  · rintro - id' source' target' heq
    injection heq with h₁ h₂ h₃
    subst h₁ h₂ h₃
    exact hlt

theorem sets_not_next :
    Sets count (Ordered position) skeleton .unjustify framed (.next id source target) := by
  refine sets_of_changes rfl FactKind.noConfusion (fun _ => rfl) ?_ (fun _ _ _ => rfl)
    (fun hdirection => Direction.noConfusion hdirection)
  intro other hsound hframe buffer hbuffer
  obtain ⟨-, rfl⟩ := buffer?_eq_some hbuffer
  exact ⟨Buffer.changes_removeEdge (hsound.buffer hbuffer), Buffer.holds_of_removeEdge⟩

theorem sets_endOfSentence {positive : Bool} (hsite : chart.Recorded id site) :
    Sets count (Ordered position) skeleton .justify chart.skeleton
      (.endOfSentence id site positive) := by
  refine sets_of_changes rfl FactKind.noConfusion (fun _ => rfl) ?_ ?_ ?_
  · intro other hsound hframe buffer hbuffer
    obtain ⟨-, rfl⟩ := buffer?_eq_some hbuffer
    have hsite := ((recorded_congr hframe).2 hsite).of_buffer? hbuffer
    exact ⟨Buffer.changes_addSentenceEnd (hsound.buffer hbuffer),
      Buffer.holds_of_addSentenceEnd hsite⟩
  · intro other hframe hbuffer
    obtain ⟨buffer, hother, -⟩ := (recorded_congr hframe).2 hsite
    rw [hbuffer] at hother
    cases hother
  · rintro - _ _ _ heq
    cases heq

theorem sets_not_endOfSentence {positive : Bool} :
    Sets count (Ordered position) skeleton .unjustify framed (.endOfSentence id site positive) := by
  refine sets_of_changes rfl FactKind.noConfusion (fun _ => rfl) ?_ (fun _ _ _ => rfl)
    (fun hdirection => Direction.noConfusion hdirection)
  intro other hsound hframe buffer hbuffer
  obtain ⟨-, rfl⟩ := buffer?_eq_some hbuffer
  exact ⟨Buffer.changes_removeSentenceEnd (hsound.buffer hbuffer),
    Buffer.holds_of_removeSentenceEnd (hsound.buffer hbuffer)⟩

theorem sets_available {handle : Handle} (hsite : chart.Recorded id (.token handle)) :
    Sets count (Ordered position) skeleton .justify chart.skeleton (.available id handle) := by
  refine sets_of_changes rfl FactKind.noConfusion (fun _ => rfl) ?_ ?_ ?_
  · intro other hsound hframe buffer hbuffer
    obtain ⟨-, rfl⟩ := buffer?_eq_some hbuffer
    have hsite := ((recorded_congr hframe).2 hsite).of_buffer? hbuffer
    exact ⟨Buffer.changes_makeAvailable (hsound.buffer hbuffer) handle,
      Buffer.holds_of_makeAvailable (hsound.buffer hbuffer) hsite⟩
  · intro other hframe hbuffer
    obtain ⟨buffer, hother, -⟩ := (recorded_congr hframe).2 hsite
    rw [hbuffer] at hother
    cases hother
  · rintro - _ _ _ heq
    cases heq

theorem sets_not_available {handle : Handle} :
    Sets count (Ordered position) skeleton .unjustify framed (.available id handle) := by
  refine sets_of_changes rfl FactKind.noConfusion (fun _ => rfl) ?_ (fun _ _ _ => rfl)
    (fun hdirection => Direction.noConfusion hdirection)
  intro other hsound hframe buffer hbuffer
  obtain ⟨-, rfl⟩ := buffer?_eq_some hbuffer
  exact ⟨Buffer.changes_makeUnavailable (hsound.buffer hbuffer) handle,
    Buffer.holds_of_makeUnavailable⟩

theorem sets_production {id : ProductionId} (hdefined : (chart.grammar.get? id).isSome = true) :
    Sets count (Ordered position) skeleton .justify chart.skeleton (.production id) := by
  intro other h hframe
  have hgrammar : other.grammar = chart.grammar := congrArg Prod.fst hframe
  have hholds : ((other.active.insert id).contains id) = true := by simp
  have hshift : Shift count skeleton .justify other (.production id)
      (other.justify (.production id)) := by
    refine ⟨rfl, fun a ha => ?_, fun a _ => ?_, fun hflag => ?_, fun hflag => ?_⟩
    · cases a with
      | production id' =>
        have hne : id' ≠ id := fun heq => ha (heq ▸ rfl)
        change (other.active.insert id).contains id' = other.active.contains id'
        simp [hne]
      | _ => rfl
    · cases a <;> rfl
    · refine ⟨?_, hholds⟩
      change (!other.active.contains id) = true at hflag
      rw [Bool.not_eq_true'] at hflag
      exact hflag
    · change (!other.active.contains id) = false at hflag
      rw [Bool.not_eq_false'] at hflag
      exact hholds.trans hflag.symm
  have hsound : (other.justify (.production id)).1.Sound := by
    refine ⟨h.sound.grammar, h.sound.ids, h.sound.buffers, h.sound.nodup_active.insert, fun id' hid => ?_⟩
    rcases List.mem_insert_iff.1 hid with rfl | hid
    · exact hgrammar ▸ hdefined
    · exact h.sound.active id' hid
  refine ⟨h.of_shift hsound hshift ?_ ?_, hshift, hholds⟩
  · rintro - _ _ _ heq
    cases heq
  · rintro - key (heq | heq) <;> cases heq

theorem sets_not_production {id : ProductionId} :
    Sets count (Ordered position) skeleton .unjustify framed (.production id) := by
  intro other h _
  have hholds : ((other.active.erase id).contains id) = false := by
    simpa using h.sound.nodup_active.not_mem_erase
  have hshift : Shift count skeleton .unjustify other (.production id)
      (other.unjustify (.production id)) := by
    refine ⟨rfl, fun a ha => ?_, fun a _ => ?_, fun hflag => ⟨hflag, hholds⟩, fun hflag => ?_⟩
    · cases a with
      | production id' =>
        have hne : id' ≠ id := fun heq => ha (heq ▸ rfl)
        change (other.active.erase id).contains id' = other.active.contains id'
        simp [List.mem_erase_of_ne hne]
      | _ => rfl
    · cases a <;> rfl
    · exact hholds.trans hflag.symm
  have hsound : (other.unjustify (.production id)).1.Sound :=
    ⟨h.sound.grammar, h.sound.ids, h.sound.buffers, h.sound.nodup_active.erase id,
      fun id' hid => h.sound.active id' (List.mem_of_mem_erase hid)⟩
  exact ⟨h.of_shift hsound hshift (fun hdirection => Direction.noConfusion hdirection)
    (fun hdirection => Direction.noConfusion hdirection), hshift, hholds⟩

/-- In charts that are settled, what holds is what can be derived. -/
theorem Ordered.holds_iff_derivable (h : chart.Ordered position) (hsettled : table.Settled count chart)
    (hnames : chart.grammar.UnitOrdered) (fact : Fact) :
    chart.holds fact = true ↔ table.Derivable chart fact := by
  obtain ⟨names, hnames⟩ := hnames
  exact (ordered_contract position).holds_iff_derivable wellFounded_rank (chart.rank names position) h
    hsettled (fun d hd a ha hkind => rank_lt h.aligned h.spanned hnames hd ha hkind) fact

end Chart

end LiveProse
