import LiveProse.Proofs.Chart.Introductions
import LiveProse.Proofs.Deduction.Propagation

/-! The chart keeps the engine's contract: it counts one derivation for each of its deductions, and
every change of a fact changes that fact alone. -/

namespace LiveProse

/-! ### Buffers -/

namespace Buffer

open Chart (addPotential removePotential addComplete removeComplete)

variable {buffer : Buffer} {grammar : Grammar} {key : MatchKey}

theorem potentials_addPotential (needs : List Nonterminal) :
    (addPotential needs key buffer).1.potentials = (buffer.potentials.acquire key).1 := by
  rw [addPotential_eq]
  split_ifs
  · rfl
  · rw [annotate_eq]
    rfl

theorem potentials_removePotential (needs : List Nonterminal) :
    (removePotential needs key buffer).1.potentials = (buffer.potentials.release? key).1 := by
  rw [removePotential_eq]
  split_ifs
  · rw [unannotate_eq]
    rfl
  · rfl

theorem completes_addComplete (result : Nonterminal) :
    (addComplete result key buffer).1.completes = (buffer.completes.acquire key).1 := by
  rw [addComplete_eq]
  split_ifs
  · rfl
  · rw [annotate_eq]
    rfl

theorem completes_removeComplete {production : Production}
    (hget : grammar.get? key.production = some production) :
    (removeComplete grammar key buffer).1.completes = (buffer.completes.release? key).1 := by
  rw [removeComplete_eq hget]
  split_ifs
  all_goals first
    | rfl
    | (rw [unannotate_eq]; rfl)

end Buffer

namespace Chart

variable {chart : Chart} {id : BufferId} {buffer : Buffer} {fact : Fact} {key : MatchKey}
variable {direction : Direction}

theorem buffer?_setBuffer (chart : Chart) (buffer : Buffer) (id : BufferId) :
    (chart.setBuffer buffer).buffer? id =
      (chart.buffer? id).map fun other => if other.id = buffer.id then buffer else other := by
  unfold setBuffer buffer?
  dsimp only
  rw [List.find?_map]
  refine congrArg (fun p => (chart.buffers.find? p).map _) (funext fun other => ?_)
  dsimp only [Function.comp]
  split_ifs with h
  · rw [h]
  · rfl

theorem buffer?_setBuffer_self {old : Buffer} (h : chart.buffer? buffer.id = some old) :
    (chart.setBuffer buffer).buffer? buffer.id = some buffer := by
  rw [buffer?_setBuffer, h, Option.map_some, if_pos (buffer?_eq_some h).2]

theorem buffer?_setBuffer_of_ne (h : id ≠ buffer.id) :
    (chart.setBuffer buffer).buffer? id = chart.buffer? id := by
  rw [buffer?_setBuffer]
  cases hold : chart.buffer? id with
  | none => rfl
  | some old =>
    rw [← (buffer?_eq_some hold).2] at h
    rw [Option.map_some, if_neg h]

theorem map_id_setBuffer (chart : Chart) (buffer : Buffer) :
    (chart.setBuffer buffer).buffers.map (·.id) = chart.buffers.map (·.id) := by
  unfold setBuffer
  rw [List.map_map]
  refine List.map_congr_left fun other _ => ?_
  dsimp only [Function.comp]
  split_ifs with h
  · exact h.symm
  · rfl

theorem skeleton_setBuffer (hids : (chart.buffers.map (·.id)).Nodup) {before : Buffer}
    (hbefore : chart.buffer? buffer.id = some before) (h : buffer.skeleton = before.skeleton) :
    (chart.setBuffer buffer).skeleton = chart.skeleton := by
  unfold skeleton setBuffer
  dsimp only
  rw [List.map_map]
  refine congrArg (fun bs => (chart.grammar, chart.vocabulary, bs)) ?_
  refine List.map_congr_left fun other hother => ?_
  dsimp only [Function.comp]
  split_ifs with hid
  · rw [(buffer?_eq_some_iff hids).2 ⟨hother, hid⟩, Option.some.injEq] at hbefore
    rw [h, hbefore]
  · rfl

/-- How many derivations a match is counted for. -/
def count (chart : Chart) : Fact → ℕ
  | .potential key => ((chart.buffer? key.buffer).map (·.potentials.count key)).getD 0
  | .complete key => ((chart.buffer? key.buffer).map (·.completes.count key)).getD 0
  | _ => 0

/-! ### Changing one buffer -/

theorem Sound.setBuffer (h : chart.Sound) (hbuffer : buffer.Sound chart.grammar) :
    (chart.setBuffer buffer).Sound := by
  refine ⟨h.grammar, ?_, fun other hother => ?_, h.nodup_active, h.active⟩
  · rw [map_id_setBuffer]
    exact h.ids
  · obtain ⟨old, hold, rfl⟩ := List.mem_map.1 hother
    split_ifs
    · exact hbuffer
    · exact h.buffers old hold

theorem holds_eq_of_buffer? (chart : Chart) (hown : fact.buffer? = some id) :
    chart.holds fact = ((chart.buffer? id).map (·.holds fact)).getD false := by
  cases hbuffer : chart.buffer? id with
  | none => exact holds_of_buffer?_none hown hbuffer
  | some buffer => exact holds_of_buffer? hown hbuffer

/-- What a change of a buffer does to the chart. -/
theorem Sound.shift_changeBuffer (h : chart.Sound) (direction : Direction) (fact : Fact)
    {change : Buffer → Buffer × Bool}
    (hown : fact.buffer? = some id)
    (hchange : ∀ buffer, chart.buffer? id = some buffer →
      Buffer.Changes chart.grammar direction.sense fact buffer (change buffer)) :
    (chart.changeBuffer id change).1.Sound ∧
      Shift count skeleton direction chart fact (chart.changeBuffer id change) := by
  unfold changeBuffer
  cases hbuffer : chart.buffer? id with
  | none =>
    exact ⟨h, rfl, fun _ _ => rfl, fun _ _ => rfl, fun hflag => Bool.noConfusion hflag,
      fun _ => rfl⟩
  | some buffer =>
    have hchanges := hchange buffer hbuffer
    dsimp only
    generalize change buffer = after at hchanges
    obtain ⟨buffer', flag⟩ := after
    obtain rfl : buffer'.id = id :=
      (congrArg Prod.fst hchanges.skeleton).trans (buffer?_eq_some hbuffer).2
    have hafter (id' : BufferId) : (chart.setBuffer buffer').buffer? id' =
        if id' = buffer'.id then some buffer' else chart.buffer? id' := by
      split_ifs with heq
      · exact heq ▸ buffer?_setBuffer_self hbuffer
      · exact buffer?_setBuffer_of_ne heq
    have hfact : (chart.setBuffer buffer').holds fact = buffer'.holds fact ∧
        chart.holds fact = buffer.holds fact := by
      refine ⟨holds_of_buffer? hown ?_, holds_of_buffer? hown hbuffer⟩
      rw [hafter, if_pos rfl]
    -- facts about other buffers are read where they were; `hchange` settles those about this one
    refine ⟨h.setBuffer hchanges.sound,
      skeleton_setBuffer h.ids hbuffer hchanges.skeleton, fun a ha => ?_, fun a ha => ?_,
      fun hflag => ?_, fun hflag => ?_⟩
    · cases hbuffer? : a.buffer? with
      | none => cases a <;> first | rfl | cases hbuffer?
      | some id' =>
        change (chart.setBuffer buffer').holds a = chart.holds a
        rw [holds_eq_of_buffer? _ hbuffer?, holds_eq_of_buffer? _ hbuffer?, hafter]
        split_ifs with heq
        · rw [heq, hbuffer]
          exact hchanges.holds a ha
        · rfl
    · cases a with
      | potential key =>
        dsimp only [count]
        rw [hafter]
        split_ifs with heq
        · rw [heq, hbuffer]
          exact hchanges.potentials key ha
        · rfl
      | complete key =>
        dsimp only [count]
        rw [hafter]
        split_ifs with heq
        · rw [heq, hbuffer]
          exact hchanges.completes key ha
        · rfl
      | _ => rfl
    · change chart.holds fact = _ ∧ (chart.setBuffer buffer').holds fact = _
      rw [hfact.1, hfact.2]
      exact hchanges.turned hflag
    · change (chart.setBuffer buffer').holds fact = chart.holds fact
      rw [hfact.1, hfact.2]
      exact hchanges.stayed hflag

/-! ### What can be matched at all -/

/-- A site of a buffer that has a record. -/
def Recorded (chart : Chart) (id : BufferId) (site : Site) : Prop :=
  ∃ buffer, chart.buffer? id = some buffer ∧ buffer.hasRecord site = true

/-- A match of a defined production between sites that are recorded. -/
structure Conceivable (chart : Chart) (key : MatchKey) : Prop where
  beginning : chart.Recorded key.buffer key.beginningSite
  ending : chart.Recorded key.buffer key.endSite
  defined : ∃ production, chart.grammar.get? key.production = some production ∧
    key.slotsFilled ≤ production.arity

/-- What holds has its places at sites that are recorded. -/
theorem Sound.recorded (h : chart.Sound) (hholds : chart.holds fact = true)
    (hown : fact.buffer? = some id) {site : Site} (hsite : site ∈ fact.places) :
    chart.Recorded id site := by
  obtain ⟨buffer, hbuffer⟩ := exists_buffer?_of_holds hown hholds
  rw [holds_of_buffer? hown hbuffer] at hholds
  refine ⟨buffer, hbuffer, ?_⟩
  exact Buffer.hasRecord_of_mem_notes (((h.buffer hbuffer).noted.mem site fact).2 ⟨hholds, hsite⟩)

/-- Held matches are conceivable. -/
theorem Sound.conceivable_of_holds (h : chart.Sound)
    (hholds : chart.holds (.potential key) = true ∨ chart.holds (.complete key) = true) :
    chart.Conceivable key := by
  have hbegin := key.beginningSite_mem_ends
  have hend := key.endSite_mem_ends
  rcases hholds with hholds | hholds
  · have hrecorded := fun site => @Sound.recorded _ _ _ h hholds rfl site
    obtain ⟨buffer, hbuffer, -⟩ := hrecorded _ hbegin
    refine ⟨hrecorded _ hbegin, hrecorded _ hend, ?_⟩
    exact (h.buffer hbuffer).keyed key (.inl ((holds_of_buffer? rfl hbuffer).symm.trans hholds))
  · have hrecorded := fun site => @Sound.recorded _ _ _ h hholds rfl site
    obtain ⟨buffer, hbuffer, -⟩ := hrecorded _ hbegin
    refine ⟨hrecorded _ hbegin, hrecorded _ hend, ?_⟩
    exact (h.buffer hbuffer).keyed key (.inr ((holds_of_buffer? rfl hbuffer).symm.trans hholds))

theorem Opens.succ_le_arity {id : ProductionId} {slot : Nat} {accepts : Slot → Bool}
    {first last : SiteInfo} (h : chart.Opens id slot accepts first last) :
    ∃ production, chart.grammar.get? id = some production ∧ slot + 1 ≤ production.arity := by
  obtain ⟨production, hget, hslot, -⟩ := h
  refine ⟨production, hget, ?_⟩
  have hlt := List.mem_range.1 (List.mem_filter.1 hslot).1
  rw [Production.openingSlots, List.length_take] at hlt
  unfold Production.arity
  omega

theorem Sound.recorded_target (h : chart.Sound) {source target : Site}
    (hnext : chart.holds (.next id source target) = true) : chart.Recorded id target :=
  h.recorded hnext rfl (by simp [Fact.places])

/-- The conclusions of derivations that hold are conceivable. -/
theorem Sound.conceivable_of_holding (h : chart.Sound) {d : Derivation}
    (hd : table.Holding chart d) (hkey : d.conclusion = .potential key ∨ d.conclusion = .complete key) :
    chart.Conceivable key := by
  obtain ⟨happlies, hall⟩ := hd
  have hholds : ∀ a ∈ chart.antecedents d, chart.holds a = true := hall
  obtain rfl := Derivation.derived_eq hkey
  cases d with
  | boundaryToken id' id slot before handle =>
    have hnext := h.recorded_target (hholds (.next id' before (.token handle)) (by simp [antecedents]))
    exact ⟨hnext, hnext, happlies.2.succ_le_arity⟩
  | boundaryMatch id slot before inner =>
    have hinner := h.conceivable_of_holds (.inr (hholds (.complete inner) (by simp [antecedents])))
    exact ⟨hinner.beginning, hinner.ending, happlies.2.succ_le_arity⟩
  | underToken outer id slot handle =>
    have hnext := h.recorded_target
      (hholds (.next outer.buffer outer.endSite (.token handle)) (by simp [antecedents]))
    exact ⟨hnext, hnext, happlies.2.succ_le_arity⟩
  | underMatch outer id slot inner =>
    have hinner := h.conceivable_of_holds (.inr (hholds (.complete inner) (by simp [antecedents])))
    exact ⟨hinner.beginning, hinner.ending, happlies.2.2.succ_le_arity⟩
  | extendToken outer handle =>
    have houter := h.conceivable_of_holds (.inl (hholds (.potential outer) (by simp [antecedents])))
    have hnext := h.recorded_target
      (hholds (.next outer.buffer outer.endSite (.token handle)) (by simp [antecedents]))
    exact ⟨houter.beginning, hnext, happlies.lt_arity⟩
  | extendMatch outer inner =>
    have houter := h.conceivable_of_holds (.inl (hholds (.potential outer) (by simp [antecedents])))
    have hinner := h.conceivable_of_holds (.inr (hholds (.complete inner) (by simp [antecedents])))
    exact ⟨houter.beginning, happlies.1 ▸ hinner.ending, happlies.2.lt_arity⟩
  | skip outer =>
    have houter := h.conceivable_of_holds (.inl (hholds (.potential outer) (by simp [antecedents])))
    exact ⟨houter.beginning, houter.ending, happlies.lt_arity⟩
  | completeWording outer | completeAtEnd outer | completeBefore outer next =>
    exact h.conceivable_of_holds (.inl (hholds (.potential outer) (by simp [antecedents])))

/-- Every match that is conceivable, in both forms. -/
def conceivable (skeleton : Grammar × Vocabulary ×
    List (BufferId × BufferKind × TokenSequence × List (Site × SiteInfo))) : List Fact :=
  skeleton.2.2.flatMap fun (id, _, _, sites) =>
    let handles := sites.filterMap fun (site, _) => site.handle?
    handles.flatMap fun beginning => handles.flatMap fun ending =>
      skeleton.1.toList.flatMap fun (production, shape) =>
        (List.range (shape.arity + 1)).flatMap fun filled =>
          [.potential ⟨id, production, filled, beginning, ending⟩,
            .complete ⟨id, production, filled, beginning, ending⟩]

theorem Conceivable.mem (h : chart.Conceivable key) :
    .potential key ∈ conceivable chart.skeleton ∧ .complete key ∈ conceivable chart.skeleton := by
  obtain ⟨⟨buffer, hbuffer, hbegin⟩, ⟨buffer', hbuffer', hend⟩, production, hget, hle⟩ := h
  cases hbuffer.symm.trans hbuffer'
  obtain ⟨hmem, hid⟩ := buffer?_eq_some hbuffer
  have hhandle (handle : Handle) (h : buffer.hasRecord (.token handle) = true) :
      handle ∈ (buffer.records.map fun entry => (entry.1, entry.2.info)).filterMap
        fun entry => entry.1.handle? := by
    obtain ⟨⟨site, record⟩, hrecord, hsite⟩ := List.mem_map.1 (Buffer.hasRecord_iff.1 h)
    dsimp only at hsite
    subst hsite
    exact List.mem_filterMap.2 ⟨_, List.mem_map.2 ⟨_, hrecord, rfl⟩, rfl⟩
  have hkey : key = ⟨buffer.id, key.production, key.slotsFilled, key.beginning, key.inclusiveEnd⟩ := by
    rw [hid]
  have hall (fact : Fact) (hfact : fact ∈ [Fact.potential key, .complete key]) :
      fact ∈ conceivable chart.skeleton := by
    rw [hkey] at hfact
    refine List.mem_flatMap.2 ⟨buffer.skeleton, List.mem_map.2 ⟨buffer, hmem, rfl⟩, ?_⟩
    refine List.mem_flatMap.2 ⟨key.beginning, hhandle _ hbegin, ?_⟩
    refine List.mem_flatMap.2 ⟨key.inclusiveEnd, hhandle _ hend, ?_⟩
    refine List.mem_flatMap.2 ⟨(key.production, production), Grammar.mem_toList.2 hget, ?_⟩
    exact List.mem_flatMap.2 ⟨key.slotsFilled, List.mem_range.2 (by omega), hfact⟩
  exact ⟨hall _ (by simp), hall _ (by simp)⟩

theorem foldl_add_eq {α : Type} (f : α → ℕ) (xs : List α) (n : ℕ) :
    xs.foldl (fun n x => n + f x) n = n + (xs.map f).sum := by
  induction xs generalizing n with
  | nil => rfl
  | cons x xs ih => rw [List.foldl_cons, ih, List.map_cons, List.sum_cons, Nat.add_assoc]

theorem length_flatMap_le {α β : Type} {xs : List α} {f : α → List β} {g : α → ℕ} {k : ℕ}
    (h : ∀ x ∈ xs, (f x).length ≤ g x * k) : (xs.flatMap f).length ≤ (xs.map g).sum * k := by
  induction xs with
  | nil => exact Nat.zero_le _
  | cons x xs ih =>
    have ih := ih fun y hy => h y (List.mem_cons_of_mem _ hy)
    have hx := h x List.mem_cons_self
    rw [List.flatMap_cons, List.length_append, List.map_cons, List.sum_cons, Nat.add_mul]
    omega

/-- There are fewer conceivable matches than one run may change facts. -/
theorem length_conceivable_lt (chart : Chart) :
    (conceivable chart.skeleton).length < chart.bound := by
  obtain ⟨slots, hslots⟩ : ∃ slots,
      (chart.grammar.toList.map fun (_, production) => production.arity + 1).sum = slots := ⟨_, rfl⟩
  have hfilled (id : BufferId) (beginning ending : Handle) :
      (chart.grammar.toList.flatMap fun (production, shape) =>
        (List.range (shape.arity + 1)).flatMap fun filled =>
          [Fact.potential ⟨id, production, filled, beginning, ending⟩,
            .complete ⟨id, production, filled, beginning, ending⟩]).length ≤ slots * 2 := by
    rw [← hslots]
    refine length_flatMap_le fun entry _ => ?_
    rw [List.length_flatMap]
    simp
  -- a match has two sites of one buffer and a slot of a production, and is potential or complete
  have hall : (conceivable chart.skeleton).length ≤
      (chart.buffers.map fun buffer => buffer.records.length * buffer.records.length).sum *
        (slots * 2) := by
    unfold conceivable skeleton
    dsimp only
    rw [List.flatMap_map]
    refine length_flatMap_le fun buffer _ => ?_
    generalize hhandles : (buffer.skeleton.2.2.2.filterMap fun (site, _) => site.handle?) = handles
    have hle : handles.length ≤ buffer.records.length := by
      rw [← hhandles]
      refine (List.length_filterMap_le _ _).trans ?_
      rw [Buffer.skeleton, List.length_map]
    have hfrom (beginning : Handle) := length_flatMap_le (g := fun _ => 1) (k := slots * 2)
      fun (ending : Handle) (_ : ending ∈ handles) =>
        (hfilled buffer.id beginning ending).trans (Nat.one_mul _).ge
    simp only [List.map_const', List.sum_replicate_nat, Nat.mul_one] at hfrom
    refine (length_flatMap_le (g := fun _ => handles.length) (k := slots * 2)
      fun beginning _ => hfrom beginning).trans ?_
    simp only [List.map_const', List.sum_replicate_nat]
    exact Nat.mul_le_mul_right _ (Nat.mul_le_mul hle hle)
  unfold bound
  dsimp only
  rw [foldl_add_eq, foldl_add_eq, foldl_add_eq, hslots, Nat.zero_add, Nat.zero_add, Nat.zero_add]
  refine Nat.lt_of_le_of_lt hall ?_
  have hcomm (spans : ℕ) : spans * (slots * 2) = 2 * spans * slots := by ring
  rw [hcomm]
  omega

/-! ### The frame -/

variable {other : Chart}

/-- The table depends on the grammar and on what is known about the sites. -/
theorem table_congr (hgrammar : chart.grammar = other.grammar) (hinfo : chart.info = other.info) :
    table.Applies chart = table.Applies other ∧
      table.antecedents chart = table.antecedents other := by
  have haccepts : chart.acceptsResult = other.acceptsResult := by
    funext inner slot
    rw [acceptsResult, acceptsResult, result?, result?, hgrammar]
  have hboundary : chart.boundary = other.boundary := by
    funext buffer site
    rw [boundary, boundary, hinfo]
  have hends : chart.endsSentences = other.endsSentences := by
    funext id
    rw [endsSentences, endsSentences, hgrammar]
  have hpassage : chart.isPassage = other.isPassage := by
    funext id
    rw [isPassage, isPassage, hgrammar]
  constructor
  · funext d
    change chart.Applies d = other.Applies d
    cases d <;>
      simp only [Applies, Opens, Fills, Continues, needs, Filled, closesSentence, haccepts,
        hgrammar, hinfo]
  · funext d
    change chart.antecedents d = other.antecedents d
    cases d <;>
      simp only [antecedents, openingGuard, passingGuard, hboundary, hends, hpassage]

theorem info_eq (chart : Chart) (id : BufferId) (site : Site) : chart.info id site =
    (((chart.skeleton.2.2.find? (·.1 = id)).bind fun buffer =>
      buffer.2.2.2.lookup site)).getD .sentinel := by
  have hfind : chart.skeleton.2.2.find? (·.1 = id) = (chart.buffer? id).map Buffer.skeleton := by
    unfold skeleton buffer?
    rw [List.find?_map]
    rfl
  rw [hfind, info, record?]
  cases chart.buffer? id with
  | none => rfl
  | some buffer =>
    dsimp only [Option.bind_some, Option.map_some]
    refine congrArg (Option.getD · SiteInfo.sentinel) ?_
    rw [Buffer.record?, Buffer.skeleton]
    generalize buffer.records = records
    induction records with
    | nil => rfl
    | cons entry records ih =>
      obtain ⟨other, record⟩ := entry
      simp only [List.map_cons, List.lookup_cons]
      split
      · rfl
      · exact ih

theorem info_congr (h : chart.skeleton = other.skeleton) : chart.info = other.info := by
  funext id site
  rw [info_eq, info_eq, h]

/-! ### Deductions -/

theorem count_potential (hbuffer : chart.buffer? key.buffer = some buffer) :
    chart.count (.potential key) = buffer.potentials.count key := by
  rw [count, hbuffer, Option.map_some, Option.getD_some]

theorem count_complete (hbuffer : chart.buffer? key.buffer = some buffer) :
    chart.count (.complete key) = buffer.completes.count key := by
  rw [count, hbuffer, Option.map_some, Option.getD_some]

theorem holds_iff_count (hkind : kind fact = .deduction) :
    chart.holds fact = true ↔ 0 < chart.count fact := by
  cases fact with
  | potential key =>
    rw [holds, count]
    cases chart.buffer? key.buffer with
    | none => simp
    | some buffer => simp [Bank.contains_iff_count_pos]
  | complete key =>
    rw [holds, count]
    cases chart.buffer? key.buffer with
    | none => simp
    | some buffer => simp [Bank.contains_iff_count_pos]
  | _ => cases hkind

/-- A change of one fact of a buffer that there is. -/
theorem Sound.change_one (h : chart.Sound) (direction : Direction) {change : Buffer → Buffer × Bool}
    (hbuffer : chart.buffer? id = some buffer) (hown : fact.buffer? = some id)
    (hchange : Buffer.Changes chart.grammar direction.sense fact buffer (change buffer)) :
    (chart.changeBuffer id change).1.Sound ∧
      Shift count skeleton direction chart fact (chart.changeBuffer id change) ∧
      (chart.changeBuffer id change).1.buffer? id = some (change buffer).1 := by
  obtain ⟨hsound, hshift⟩ := h.shift_changeBuffer direction fact hown fun other hother =>
    (Option.some.inj (hbuffer.symm.trans hother)) ▸ hchange
  have hid := (congrArg Prod.fst hchange.skeleton).trans (buffer?_eq_some hbuffer).2
  refine ⟨hsound, hshift, ?_⟩
  unfold changeBuffer
  rw [hbuffer]
  dsimp only
  rw [buffer?_setBuffer, hbuffer, Option.map_some, if_pos]
  exact (buffer?_eq_some hbuffer).2.trans hid.symm

theorem Conceivable.exists_buffer (h : chart.Conceivable key) :
    ∃ buffer, chart.buffer? key.buffer = some buffer ∧
      ∀ site ∈ key.ends, buffer.hasRecord site = true := by
  obtain ⟨⟨buffer, hbuffer, hbegin⟩, ⟨buffer', hbuffer', hend⟩, -⟩ := h
  cases hbuffer.symm.trans hbuffer'
  refine ⟨buffer, hbuffer, fun site hsite => ?_⟩
  rcases MatchKey.mem_ends.1 hsite with rfl | rfl
  · exact hbegin
  · exact hend

theorem Sound.justify_potential (h : chart.Sound) (hkey : chart.Conceivable key) :
    (chart.justify (.potential key)).1.Sound ∧
      Shift count skeleton .justify chart (.potential key) (chart.justify (.potential key)) ∧
      (chart.justify (.potential key)).1.count (.potential key) =
        chart.count (.potential key) + 1 := by
  obtain ⟨buffer, hbuffer, hends⟩ := hkey.exists_buffer
  obtain ⟨hsound, hshift, hafter⟩ := h.change_one .justify hbuffer rfl
    (Buffer.changes_addPotential (h.buffer hbuffer) (buffer?_eq_some hbuffer).2.symm hends
      hkey.defined)
  refine ⟨hsound, hshift, (count_potential hafter).trans ?_⟩
  rw [count_potential hbuffer, Buffer.potentials_addPotential, Bank.count_acquire, if_pos rfl]

theorem Sound.justify_complete (h : chart.Sound) (hkey : chart.Conceivable key) :
    (chart.justify (.complete key)).1.Sound ∧
      Shift count skeleton .justify chart (.complete key) (chart.justify (.complete key)) ∧
      (chart.justify (.complete key)).1.count (.complete key) =
        chart.count (.complete key) + 1 := by
  obtain ⟨buffer, hbuffer, hends⟩ := hkey.exists_buffer
  obtain ⟨production, hget, hle⟩ := hkey.defined
  obtain ⟨hsound, hshift, hafter⟩ := h.change_one .justify hbuffer rfl
    (Buffer.changes_addComplete (h.buffer hbuffer) (buffer?_eq_some hbuffer).2.symm hends hget hle)
  have hjustify : chart.justify (.complete key) =
      chart.changeBuffer key.buffer (addComplete production.result key) := by
    rw [justify, result?, hget]
    rfl
  rw [hjustify]
  refine ⟨hsound, hshift, (count_complete hafter).trans ?_⟩
  rw [count_complete hbuffer, Buffer.completes_addComplete, Bank.count_acquire, if_pos rfl]

theorem Sound.unjustify_potential (h : chart.Sound) (hcount : 0 < chart.count (.potential key)) :
    (chart.unjustify (.potential key)).1.Sound ∧
      Shift count skeleton .unjustify chart (.potential key) (chart.unjustify (.potential key)) ∧
      (chart.unjustify (.potential key)).1.count (.potential key) + 1 =
        chart.count (.potential key) := by
  obtain ⟨buffer, hbuffer, -⟩ :=
    (h.conceivable_of_holds (.inl ((holds_iff_count rfl).2 hcount))).exists_buffer
  rw [count_potential hbuffer] at hcount
  obtain ⟨hsound, hshift, hafter⟩ := h.change_one .unjustify hbuffer rfl
    (Buffer.changes_removePotential (h.buffer hbuffer) hcount)
  have hunjustify := count_potential hafter
  rw [Buffer.potentials_removePotential, Bank.count_release?, if_pos rfl] at hunjustify
  refine ⟨hsound, hshift, ?_⟩
  rw [count_potential hbuffer, ← Nat.sub_add_cancel hcount]
  exact congrArg (· + 1) hunjustify

theorem Sound.unjustify_complete (h : chart.Sound) (hcount : 0 < chart.count (.complete key)) :
    (chart.unjustify (.complete key)).1.Sound ∧
      Shift count skeleton .unjustify chart (.complete key) (chart.unjustify (.complete key)) ∧
      (chart.unjustify (.complete key)).1.count (.complete key) + 1 =
        chart.count (.complete key) := by
  have hkey := h.conceivable_of_holds (.inr ((holds_iff_count rfl).2 hcount))
  obtain ⟨buffer, hbuffer, -⟩ := hkey.exists_buffer
  obtain ⟨production, hget, -⟩ := hkey.defined
  rw [count_complete hbuffer] at hcount
  obtain ⟨hsound, hshift, hafter⟩ := h.change_one .unjustify hbuffer rfl
    (Buffer.changes_removeComplete (h.buffer hbuffer) hcount)
  have hunjustify := count_complete hafter
  rw [Buffer.completes_removeComplete hget, Bank.count_release?, if_pos rfl] at hunjustify
  refine ⟨hsound, hshift, ?_⟩
  rw [count_complete hbuffer, ← Nat.sub_add_cancel hcount]
  exact congrArg (· + 1) hunjustify

/-- The chart does what the engine relies on. -/
theorem contract : Contract table count Sound skeleton conceivable where
  kind_conclusion _ d _ := by cases d <;> rfl
  framed s t h := by
    obtain ⟨happlies, hantecedents⟩ := table_congr (congrArg Prod.fst h) (info_congr h)
    exact ⟨happlies, hantecedents, fun _ => rfl⟩
  holds_iff _ _ _ hkind := holds_iff_count hkind
  lists _ fact h := h.lists_consequences fact
  justify s fact h hkind := by
    rintro ⟨d, hconclusion, hd⟩
    cases fact with
    | potential key => exact h.justify_potential (h.conceivable_of_holding hd (.inl hconclusion))
    | complete key => exact h.justify_complete (h.conceivable_of_holding hd (.inr hconclusion))
    | _ => cases hkind
  unjustify s fact h hkind hcount := by
    cases fact with
    | potential key => exact h.unjustify_potential hcount
    | complete key => exact h.unjustify_complete hcount
    | _ => cases hkind
  conceived s fact h hkind hholds := by
    cases fact with
    | potential key => exact (h.conceivable_of_holds (.inl hholds)).mem.1
    | complete key => exact (h.conceivable_of_holds (.inr hholds)).mem.2
    | _ => cases hkind
  length_lt s _ := length_conceivable_lt s

end Chart

end LiveProse
