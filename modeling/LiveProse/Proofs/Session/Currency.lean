import LiveProse.Proofs.Chart.Chain
import LiveProse.Proofs.Sequence.Positions
import LiveProse.Proofs.Session.Calls

/-! When the chart of a session is current: between operations it is settled along the order of its
tokens, all productions are in use, its records are those of tokens that are there, and its observations
make a chain of them. Operations on productions keep it so. -/

namespace LiveProse

namespace Buffer

variable {buffer other : Buffer}

/-- The tokens of a buffer and the sites that have a record. -/
def layout (buffer : Buffer) : BufferId × TokenSequence × List Site :=
  (buffer.id, buffer.tokens, buffer.records.map Prod.fst)

theorem Placed.congr (hplaced : buffer.Placed) (h : buffer.layout = other.layout) :
    other.Placed := by
  have htokens : buffer.tokens = other.tokens := congrArg (·.2.1) h
  have hrecords : ∀ site, other.hasRecord site = buffer.hasRecord site := by
    intro site
    have hsites : buffer.records.map Prod.fst = other.records.map Prod.fst := congrArg (·.2.2) h
    rw [Bool.eq_iff_iff, hasRecord_iff, hasRecord_iff, hsites]
  refine ⟨htokens ▸ hplaced.tokens, fun handle hhandle => ?_, (hrecords _).trans hplaced.start,
    (hrecords _).trans hplaced.finish⟩
  rw [← htokens]
  exact hplaced.live handle ((hrecords _).symm.trans hhandle)

/-- What is in order for a grammar is so for one that says the same about the matches. -/
theorem Sound.of_grammar {grammar more : Grammar} (h : buffer.Sound grammar)
    (hmatched : ∀ key, buffer.potentials.contains key = true ∨ buffer.completes.contains key = true →
      more.get? key.production = grammar.get? key.production) : buffer.Sound more := by
  refine ⟨h.sites, h.noted, h.marked, fun key hkey => ?_, ⟨h.filed.nodup_beginnings,
    fun key site => ?_, h.filed.nodup_partials, fun wanted key => ?_⟩⟩
  · rw [hmatched key hkey]
    exact h.keyed key hkey
  · rw [h.filed.mem_beginnings key site]
    refine or_congr_right (exists_congr fun name => and_congr_right fun _ => ?_)
    refine exists_congr fun inner => exists_congr fun production => and_congr_right fun hinner => ?_
    rw [hmatched inner (.inr hinner)]
  · rw [h.filed.mem_partials wanted key]
    refine and_congr_right fun hkey => ?_
    rw [Grammar.needs, Grammar.needs, hmatched key (.inl hkey)]

end Buffer

namespace Chart

variable {chart s t : Chart} {id : BufferId}

/-- The order of the sites. -/
def position (chart : Chart) (id : BufferId) (site : Site) : ℕ :=
  ((chart.buffer? id).map (·.position site)).getD 0

theorem position_of_buffer? {buffer : Buffer} (hbuffer : chart.buffer? id = some buffer) :
    chart.position id = buffer.position := by
  funext site
  rw [position, hbuffer]
  rfl

theorem position_of_eq (h : s.buffer? id = t.buffer? id) : s.position id = t.position id := by
  funext site
  rw [position, position, h]

/-- The tokens of all buffers and their sites. -/
def layout (chart : Chart) : List (BufferId × TokenSequence × List Site) :=
  chart.buffers.map Buffer.layout

theorem layout_of_skeleton (h : s.skeleton.2.2 = t.skeleton.2.2) : s.layout = t.layout := by
  have hlayout (chart : Chart) : chart.layout = chart.skeleton.2.2.map fun buffer =>
      (buffer.1, buffer.2.2.1, buffer.2.2.2.map Prod.fst) := by
    unfold layout skeleton
    rw [List.map_map]
    refine List.map_congr_left fun buffer _ => ?_
    simp [Buffer.layout, Buffer.skeleton, Function.comp_def]
  rw [hlayout, hlayout, h]

theorem position_congr (h : s.layout = t.layout) : s.position = t.position := by
  have hfind (chart : Chart) (id : BufferId) :
      (chart.buffer? id).map Buffer.layout = chart.layout.find? (·.1 = id) := by
    unfold layout buffer?
    rw [List.find?_map]
    rfl
  funext id site
  have hid : (s.buffer? id).map Buffer.layout = (t.buffer? id).map Buffer.layout := by
    rw [hfind, hfind, h]
  rw [position, position]
  cases hs : s.buffer? id with
  | none =>
    rw [hs] at hid
    rw [Option.map_eq_none_iff.1 hid.symm]
  | some buffer =>
    rw [hs] at hid
    obtain ⟨other, hother, hlayout⟩ := Option.map_eq_some_iff.1 hid.symm
    have htokens : other.tokens = buffer.tokens := congrArg (·.2.1) hlayout
    rw [hother, Option.map_some, Option.map_some]
    cases site <;> simp only [Buffer.position, htokens]

/-- All records of a chart are as they should be. -/
def Placed (chart : Chart) : Prop :=
  ∀ buffer ∈ chart.buffers, buffer.Placed

theorem Placed.congr (hplaced : s.Placed) (h : s.layout = t.layout) : t.Placed := by
  intro buffer hbuffer
  have hmem : buffer.layout ∈ s.layout := by
    rw [h]
    exact List.mem_map_of_mem hbuffer
  obtain ⟨other, hother, heq⟩ := List.mem_map.1 hmem
  exact (hplaced other hother).congr heq

/-- The chart shows what follows from the text and the grammar. -/
structure Current (chart : Chart) : Prop where
  ordered : chart.Ordered chart.position
  settled : table.Settled count chart
  unitOrdered : chart.grammar.UnitOrdered
  placed : chart.Placed
  chained : chart.Chained
  active : ∀ id, (chart.grammar.get? id).isSome = true → id ∈ chart.active

theorem Current.shows (h : chart.Current) :
    chart.Shows chart.position chart.skeleton chart.holds :=
  ⟨h.ordered, rfl, h.settled, fun _ _ => rfl⟩

/-- A chart of the same frame that is settled, with all productions in use. -/
theorem Shows.current {observed : Fact → Bool} {position : BufferId → Site → ℕ}
    {framed : Grammar × Vocabulary ×
      List (BufferId × BufferKind × TokenSequence × List (Site × SiteInfo))}
    (h : chart.Shows position framed observed) (hposition : position = chart.position)
    (hnames : chart.grammar.UnitOrdered) (hplaced : chart.Placed) (hchained : chart.Chained)
    (hactive : ∀ id, (chart.grammar.get? id).isSome = true → observed (.production id) = true) :
    chart.Current := by
  refine ⟨hposition ▸ h.ordered, h.settled, hnames, hplaced, hchained, fun id hid => ?_⟩
  have hholds : chart.holds (.production id) = true :=
    (h.observed (.production id) FactKind.noConfusion).trans (hactive id hid)
  exact List.contains_iff_mem.1 hholds

/-- A chart of the frame of another is current where the other one has its records and productions in
place, and chains in what is observed. -/
theorem Shows.current_of_frame {observed : Fact → Bool}
    (h : chart.Shows s.position s.skeleton observed) (hnames : s.grammar.UnitOrdered)
    (hplaced : s.Placed)
    (hchained : ∀ id buffer, s.buffer? id = some buffer → buffer.Chained observed)
    (hactive : ∀ id, (s.grammar.get? id).isSome = true → observed (.production id) = true) :
    chart.Current := by
  have hlayout : s.layout = chart.layout := layout_of_skeleton (congrArg (·.2.2) h.frame).symm
  have hgrammar : chart.grammar = s.grammar := congrArg (·.1) h.frame
  refine h.current (position_congr hlayout) (hgrammar ▸ hnames) (hplaced.congr hlayout)
    (fun id buffer hbuffer => ?_) fun id hid => hactive id (hgrammar ▸ hid)
  obtain ⟨old, hold, heq⟩ := exists_buffer?_of_skeleton (congrArg (·.2.2) h.frame).symm hbuffer
  exact (hchained id old hold).congr (congrArg (·.1) heq) (congrArg (·.2.2.1) heq)
    (Buffer.info?_of_skeleton heq) fun fact _ hkind => h.observed fact hkind

/-- What matters of an order is how it compares the sites of facts that hold. -/
theorem Ordered.reorder {p q : BufferId → Site → ℕ} (h : chart.Ordered p)
    (hpq : ∀ fact id, fact.buffer? = some id → chart.holds fact = true →
      ∀ a ∈ fact.sites, ∀ b ∈ fact.sites, (p id a < p id b ↔ q id a < q id b)) : chart.Ordered q := by
  refine ⟨h.sound, fun id source target hnext => ?_, fun key hkey => ?_⟩
  · exact (hpq _ id rfl hnext source (by simp [Fact.sites]) target (by simp [Fact.sites])).1
      (h.aligned id source target hnext)
  · have hbegin := key.beginningSite_mem_ends
    have hend := key.endSite_mem_ends
    have hiff : p key.buffer key.endSite < p key.buffer key.beginningSite ↔
        q key.buffer key.endSite < q key.buffer key.beginningSite :=
      hkey.elim (fun hkey => hpq (.potential key) key.buffer rfl hkey _ hend _ hbegin)
        fun hkey => hpq (.complete key) key.buffer rfl hkey _ hend _ hbegin
    exact Nat.le_of_not_lt (mt hiff.2 (Nat.not_lt_of_le (h.spanned key hkey)))

/-- The order matters only where something holds. -/
theorem Ordered.reposition {p q : BufferId → Site → ℕ} (h : chart.Ordered p)
    (hpq : ∀ fact id, fact.buffer? = some id → chart.holds fact = true → q id = p id) :
    chart.Ordered q :=
  h.reorder fun fact id hid hheld _ _ _ _ => by rw [hpq fact id hid hheld]

theorem Sound.holds_of_contains (h : chart.Sound) {buffer : Buffer} (hbuffer : buffer ∈ chart.buffers)
    {key : MatchKey}
    (hkey : buffer.potentials.contains key = true ∨ buffer.completes.contains key = true) :
    key.buffer = buffer.id ∧
      (chart.holds (.potential key) = true ∨ chart.holds (.complete key) = true) := by
  have hsound := h.buffers buffer hbuffer
  have hfound := (buffer?_eq_some_iff h.ids).2 ⟨hbuffer, rfl⟩
  have hbegin := key.beginningSite_mem_ends
  rcases hkey with hkey | hkey
  · have hid := hsound.noted.own_of_holds (.potential key) hkey hbegin
    exact ⟨Option.some.inj hid, .inl ((holds_of_buffer? hid hfound).trans hkey)⟩
  · have hid := hsound.noted.own_of_holds (.complete key) hkey hbegin
    exact ⟨Option.some.inj hid, .inr ((holds_of_buffer? hid hfound).trans hkey)⟩

/-- The matches of a buffer are counted by their derivations that hold. -/
theorem Current.counts {chart : Chart} (h : chart.Current) {buffer : Buffer}
    (hbuffer : buffer ∈ chart.buffers) (key : MatchKey) :
    (buffer.potentials.count key : ℕ∞) =
        (if key.buffer = buffer.id then (table.support chart (.potential key)).encard else 0) ∧
      (buffer.completes.count key : ℕ∞) =
        if key.buffer = buffer.id then (table.support chart (.complete key)).encard else 0 := by
  have hfound := (buffer?_eq_some_iff h.ordered.sound.ids).2 ⟨hbuffer, rfl⟩
  split_ifs with hid
  · rw [h.settled (.potential key) rfl, h.settled (.complete key) rfl, count, count, hid, hfound]
    exact ⟨rfl, rfl⟩
  · have hnone : ¬(buffer.potentials.contains key = true ∨ buffer.completes.contains key = true) :=
      fun hkey => hid (h.ordered.sound.holds_of_contains hbuffer hkey).1
    rw [Bank.contains_iff_count_pos, Bank.contains_iff_count_pos, not_or, Nat.not_lt, Nat.not_lt,
      Nat.le_zero, Nat.le_zero] at hnone
    rw [hnone.1, hnone.2]
    exact ⟨rfl, rfl⟩

/-! ### Another grammar -/

variable {position : BufferId → Site → ℕ} {observed : Fact → Bool} {grammar : Grammar}
variable {framed : Grammar × Vocabulary ×
  List (BufferId × BufferKind × TokenSequence × List (Site × SiteInfo))}

/-- A grammar that says the same about the matches and the productions in use can take the place of
the old one. -/
theorem Shows.withGrammar (h : chart.Shows position framed observed) (hindexed : grammar.Indexed)
    (hmatched : ∀ key, chart.holds (.potential key) = true ∨ chart.holds (.complete key) = true →
      grammar.get? key.production = chart.grammar.get? key.production)
    (hused : ∀ id, observed (.production id) = true →
      grammar.get? id = chart.grammar.get? id ∧
      (∀ wanted, grammar.Begins wanted id ↔ chart.grammar.Begins wanted id) ∧
      (grammar.BeginsSentence id ↔ chart.grammar.BeginsSentence id)) :
    ({ chart with grammar } : Chart).Shows position (grammar, framed.2) observed := by
  have hheld : ∀ fact, ({ chart with grammar } : Chart).holds fact = chart.holds fact := by
    intro fact
    cases fact <;> rfl
  have hactive (id : ProductionId) (hid : chart.holds (.production id) = true) :=
    hused id ((h.observed (.production id) FactKind.noConfusion).symm.trans hid)
  refine ⟨h.ordered.of_holds ⟨hindexed, h.ordered.sound.ids, fun buffer hbuffer => ?_,
    h.ordered.sound.nodup_active, fun id hid => ?_⟩ fun fact hfact => (hheld fact).symm.trans hfact,
    ?_, ?_, fun fact hkind => ?_⟩
  · exact (h.ordered.sound.buffers buffer hbuffer).of_grammar fun key hkey =>
      hmatched key (h.ordered.sound.holds_of_contains hbuffer hkey).2
  · rw [(hactive id (List.contains_iff_mem.2 hid)).1]
    exact h.ordered.sound.active id hid
  · rw [← h.frame]
    rfl
  · refine settled_of_agrees h.settled fun id _ => ⟨fun fact _ => hheld fact, fun fact _ => ?_,
      fun _ _ _ _ _ => rfl, fun key _ => hmatched key, hactive⟩
    cases fact <;> rfl
  · exact (hheld fact).trans (h.observed fact hkind)

end Chart

namespace Session

open Chart

variable {session : Session}

/-- Productions are taken out of use, the grammar is exchanged for one that treats the others alike, and
productions that it defines are put to use. Where no production that it defines is left out of use, the
chart is current again. -/
theorem reaches_redefinition (h : session.chart.Current) {grammar : Grammar}
    {relying renewed : List ProductionId} (hindexed : grammar.Indexed) (hnames : grammar.UnitOrdered)
    (halike : ∀ id ∉ relying, (session.grammar.get? id).isSome = true →
      grammar.get? id = session.grammar.get? id ∧
      (∀ wanted, grammar.Begins wanted id ↔ session.grammar.Begins wanted id) ∧
      (grammar.BeginsSentence id ↔ session.grammar.BeginsSentence id))
    (hrenewed : ∀ id ∈ renewed, (grammar.get? id).isSome = true)
    (hall : ∀ id, (grammar.get? id).isSome = true →
      id ∈ renewed ∨ id ∉ relying ∧ (session.grammar.get? id).isSome = true) :
    Reaches session (Phase.unjustify (relying.map .production) ++
      .alter (·.withGrammar grammar) :: Phase.justify (renewed.map .production)) fun after =>
        after.chart.Current ∧ after.chart.skeleton = (grammar, session.chart.skeleton.2) := by
  refine (Reaches.unjustify h.shows ?_).append fun s hs => ?_
  · intro fact hfact
    obtain ⟨id, -, rfl⟩ := List.mem_map.1 hfact
    exact FactKind.noConfusion
  have hsame : s.chart.grammar = session.chart.grammar := congrArg Prod.fst hs.frame
  -- what is still in use is treated alike
  have hstill (id : ProductionId)
      (hid : (if Fact.production id ∈ relying.map .production then false
        else session.chart.holds (.production id)) = true) :
      grammar.get? id = s.chart.grammar.get? id ∧
      (∀ wanted, grammar.Begins wanted id ↔ s.chart.grammar.Begins wanted id) ∧
      (grammar.BeginsSentence id ↔ s.chart.grammar.BeginsSentence id) := by
    have hnot : id ∉ relying := by
      intro hmem
      rw [if_pos (List.mem_map_of_mem hmem)] at hid
      cases hid
    rw [if_neg (by simpa using hnot)] at hid
    rw [hsame]
    exact halike id hnot (h.ordered.sound.active id (List.contains_iff_mem.1 hid))
  refine Reaches.cons (P := fun after => after.chart.Shows session.chart.position
    (grammar, session.chart.skeleton.2) _) (Reaches.alter (hs.withGrammar hindexed ?_ hstill))
    fun s' hs' => ?_
  · -- a match that is held rests on its production, which is therefore still in use
    intro key hkey
    have hrests := hs.ordered.restsOn hs.settled (hsame ▸ h.unitOrdered) hkey
    exact (hstill key.production
      ((hs.observed (.production key.production) FactKind.noConfusion).symm.trans hrests.1)).1
  have hnew : s'.chart.grammar = grammar := congrArg Prod.fst hs'.frame
  refine (Reaches.justify hs' (fun fact hfact => ?_) fun fact hfact other hother => ?_).mono
    fun after ha => ?_
  · obtain ⟨id, hid, rfl⟩ := List.mem_map.1 hfact
    refine ⟨FactKind.noConfusion, hs'.frame ▸ sets_production ?_⟩
    rw [hnew]
    exact hrenewed id hid
  · obtain ⟨id, -, rfl⟩ := List.mem_map.1 hfact
    cases hother
  · refine ⟨ha.current_of_frame (s := { session.chart with grammar }) hnames h.placed
      (fun id buffer hbuffer => (h.chained id buffer hbuffer).congr rfl rfl rfl fun fact hid _ => ?_)
      fun id hid => ?_, ha.frame⟩
    · cases fact with
      | production => cases hid
      | _ => simp
    · rcases hall id hid with hin | ⟨hnot, hold⟩
      · simp [hin]
      · simp [hnot, holds, h.active id hold]

/-- Adding a production keeps the chart current. -/
theorem reaches_addition (h : session.chart.Current) {production : Production}
    (hvalid : session.grammar.validate production session.vocabulary = .ok ()) :
    Reaches session (session.additionPhases production) fun after => after.chart.Current ∧
      after.chart.skeleton = ((session.grammar.define production).1, session.chart.skeleton.2) := by
  have hgrammar : session.grammar.Indexed := h.ordered.sound.grammar
  have hextends := session.grammar.define_extends production
  have hindexed := hgrammar.toFiled.define production
  have hmem (id : ProductionId) : id ∈ session.grammar.leftCornerDescendants production ↔
      session.grammar.Descends production id :=
    Grammar.mem_leftCornerDescendants hgrammar.mem_results
  unfold additionPhases
  dsimp only
  generalize hdefine : session.grammar.define production = defined at hextends hindexed
  obtain ⟨grammar, new⟩ := defined
  have hne {id : ProductionId} (hid : (session.grammar.get? id).isSome = true) : id ≠ new := by
    rintro rfl
    rw [hextends.undefined] at hid
    cases hid
  change Reaches session (Phase.unjustify _ ++ .alter _ :: Phase.justify
    ((new :: session.grammar.leftCornerDescendants production).map .production)) _
  refine reaches_redefinition h hindexed (hextends.unitOrdered_of_validate hvalid)
    (fun id hnot hid => ?_) (fun id hid => ?_) fun id hid => ?_
  · rw [hmem] at hnot
    exact ⟨hextends.others id (hne hid), fun wanted => hextends.begins_iff (hne hid) hnot,
      hextends.beginsSentence_iff (hne hid) hnot⟩
  · rcases List.mem_cons.1 hid with rfl | hid
    · rw [hextends.defined]
      rfl
    · obtain ⟨corner, -, hbegins⟩ := (hmem id).1 hid
      obtain ⟨p, hp⟩ := Option.isSome_iff_exists.1 hbegins.isSome
      rw [hextends.get?_mono hp]
      rfl
  · by_cases hin : id ∈ new :: session.grammar.leftCornerDescendants production
    · exact .inl hin
    · rw [List.mem_cons, not_or] at hin
      exact .inr ⟨hin.2, hextends.others id hin.1 ▸ hid⟩

/-- Removing a production keeps the chart current. -/
theorem reaches_removal (h : session.chart.Current) {id : ProductionId} {production : Production}
    (hget : session.grammar.get? id = some production) :
    Reaches session (session.removalPhases id production) fun after => after.chart.Current ∧
      after.chart.skeleton =
        ((session.grammar.without id production).rebuild, session.chart.skeleton.2) := by
  have hgrammar : session.grammar.Indexed := h.ordered.sound.grammar
  have hextends := Grammar.without_extends hget
  have hindexed := hgrammar.toFiled.without hget
  have hmem (other : ProductionId) : other ∈ session.grammar.leftCornerDescendants production ↔
      session.grammar.Descends production other :=
    Grammar.mem_leftCornerDescendants hgrammar.mem_results
  unfold removalPhases
  dsimp only
  generalize (session.grammar.without id production).rebuild = grammar at hextends hindexed
  generalize hrelying : ProductionId.sorted
    (id :: session.grammar.leftCornerDescendants production) = relying
  have hrelies (other : ProductionId) : other ∈ relying ↔
      other = id ∨ session.grammar.Descends production other := by
    rw [← hrelying, Grammar.mem_sorted, List.mem_cons, hmem]
  refine reaches_redefinition h hindexed (hextends.unitOrdered_of_more h.unitOrdered)
    (fun other hnot _ => ?_) (fun other hother => ?_) fun other hother => ?_
  · rw [hrelies, not_or] at hnot
    have hnot' : ¬grammar.Descends production other := fun hdescends =>
      hnot.2 (hextends.descends_mono hdescends)
    exact ⟨(hextends.others other hnot.1).symm,
      fun wanted => (hextends.begins_iff hnot.1 hnot').symm,
      (hextends.beginsSentence_iff hnot.1 hnot').symm⟩
  · obtain ⟨hin, hne⟩ := List.mem_filter.1 hother
    have hne : other ≠ id := of_decide_eq_true hne
    rw [← hextends.others other hne]
    obtain ⟨corner, -, hbegins⟩ := ((hrelies other).1 hin).resolve_left hne
    exact hbegins.isSome
  · have hne : other ≠ id := by
      rintro rfl
      rw [hextends.undefined] at hother
      cases hother
    by_cases hin : other ∈ relying
    · exact .inl (List.mem_filter.2 ⟨hin, decide_eq_true hne⟩)
    · exact .inr ⟨hin, (hextends.others other hne).symm ▸ hother⟩

end Session

end LiveProse
