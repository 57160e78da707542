import LiveProse.Proofs.Chart.Agreement
import LiveProse.Proofs.Deduction.Confinement

/-! Buffers do not get in each other's way. A change of a fact about a buffer changes that buffer alone, and
what follows from such a fact is about the same buffer; a match of another one is not even looked at, however
alike the two buffers are. So a call that names facts about one buffer changes no other. -/

namespace LiveProse

namespace Chart

/-- Two charts that differ in one buffer at most. -/
structure Spares (id : BufferId) (s t : Chart) : Prop where
  others : t.buffers.filter (·.id ≠ id) = s.buffers.filter (·.id ≠ id)
  grammar : t.grammar = s.grammar
  active : t.active = s.active

variable {chart s t u : Chart} {id other : BufferId} {fact next : Fact} {direction : Direction}

theorem Spares.refl (id : BufferId) (s : Chart) : s.Spares id s := ⟨rfl, rfl, rfl⟩

theorem Spares.trans (h : s.Spares id t) (h' : t.Spares id u) : s.Spares id u :=
  ⟨h'.others.trans h.others, h'.grammar.trans h.grammar, h'.active.trans h.active⟩

/-! ### Changes of one buffer -/

theorem spares_setBuffer (chart : Chart) {buffer : Buffer} (hid : buffer.id = id) :
    chart.Spares id (chart.setBuffer buffer) := by
  subst hid
  refine ⟨?_, rfl, rfl⟩
  unfold setBuffer
  dsimp only
  induction chart.buffers with
  | nil => rfl
  | cons old buffers ih =>
    rw [List.map_cons, List.filter_cons, List.filter_cons, ih]
    by_cases hold : old.id = buffer.id <;> simp [hold]

theorem spares_changeBuffer (chart : Chart) (id : BufferId) {change : Buffer → Buffer × Bool}
    (hchange : ∀ buffer, (change buffer).1.id = buffer.id) :
    chart.Spares id (chart.changeBuffer id change).1 := by
  unfold changeBuffer
  cases hbuffer : chart.buffer? id with
  | none => exact .refl id chart
  | some buffer => exact chart.spares_setBuffer ((hchange buffer).trans (buffer?_eq_some hbuffer).2)

section

variable {buffer : Buffer} {handle : Handle} {site source target : Site} {key : MatchKey}
variable {sites : List Site}

theorem id_annotate : (buffer.annotate fact sites).id = buffer.id := by
  rw [Buffer.annotate_eq]

theorem id_unannotate : (buffer.unannotate fact sites).id = buffer.id := by
  rw [Buffer.unannotate_eq]

theorem id_makeAvailable : (makeAvailable fact handle buffer).1.id = buffer.id := by
  unfold makeAvailable
  split
  · rfl
  · dsimp only
    split_ifs <;> rfl

theorem id_makeUnavailable : (makeUnavailable fact handle buffer).1.id = buffer.id := by
  unfold makeUnavailable
  split
  · rfl
  · split_ifs <;> rfl

theorem id_addEdge : (addEdge fact source target buffer).1.id = buffer.id := by
  unfold addEdge
  split_ifs
  · rfl
  · exact id_annotate

theorem id_removeEdge : (removeEdge fact source target buffer).1.id = buffer.id := by
  unfold removeEdge
  split_ifs
  · exact id_unannotate
  · rfl

theorem id_addSentenceEnd {positive : Bool} :
    (addSentenceEnd fact site positive buffer).1.id = buffer.id := by
  unfold addSentenceEnd
  split_ifs
  · rfl
  · exact id_annotate
  · exact id_annotate

theorem id_removeSentenceEnd {positive : Bool} :
    (removeSentenceEnd fact site positive buffer).1.id = buffer.id := by
  unfold removeSentenceEnd
  split
  · rfl
  · dsimp only
    split_ifs <;> exact id_unannotate

theorem id_addPotential {needs : List Nonterminal} : (addPotential needs key buffer).1.id = buffer.id := by
  unfold addPotential
  dsimp only
  split_ifs
  · exact id_annotate
  · rfl

theorem id_removePotential {needs : List Nonterminal} :
    (removePotential needs key buffer).1.id = buffer.id := by
  unfold removePotential
  dsimp only
  split_ifs
  · exact id_unannotate
  · rfl

theorem id_addComplete {result : Nonterminal} : (addComplete result key buffer).1.id = buffer.id := by
  unfold addComplete
  dsimp only
  split_ifs
  · exact id_annotate
  · rfl

theorem id_removeComplete {grammar : Grammar} : (removeComplete grammar key buffer).1.id = buffer.id := by
  unfold removeComplete
  dsimp only
  split_ifs
  · split
    · exact id_unannotate
    · split_ifs <;> exact id_unannotate
  · rfl

end

/-- A change of a fact about a buffer is a change of the buffer. -/
theorem spares_change (direction : Direction) (chart : Chart) (hfact : fact.buffer? = some id) :
    chart.Spares id (Engine.change direction chart fact).1 := by
  cases direction with
  | justify =>
    change chart.Spares id (chart.justify fact).1
    cases fact with
    | production => cases hfact
    | available buffer handle =>
      obtain rfl := Option.some.inj hfact
      exact chart.spares_changeBuffer buffer fun _ => id_makeAvailable
    | next buffer source target =>
      obtain rfl := Option.some.inj hfact
      exact chart.spares_changeBuffer buffer fun _ => id_addEdge
    | endOfSentence buffer site positive =>
      obtain rfl := Option.some.inj hfact
      exact chart.spares_changeBuffer buffer fun _ => id_addSentenceEnd
    | potential key =>
      obtain rfl := Option.some.inj hfact
      exact chart.spares_changeBuffer key.buffer fun _ => id_addPotential
    | complete key =>
      obtain rfl := Option.some.inj hfact
      unfold justify
      dsimp only
      split
      · exact chart.spares_changeBuffer key.buffer fun _ => id_addComplete
      · exact .refl _ chart
  | unjustify =>
    change chart.Spares id (chart.unjustify fact).1
    cases fact with
    | production => cases hfact
    | available buffer handle =>
      obtain rfl := Option.some.inj hfact
      exact chart.spares_changeBuffer buffer fun _ => id_makeUnavailable
    | next buffer source target =>
      obtain rfl := Option.some.inj hfact
      exact chart.spares_changeBuffer buffer fun _ => id_removeEdge
    | endOfSentence buffer site positive =>
      obtain rfl := Option.some.inj hfact
      exact chart.spares_changeBuffer buffer fun _ => id_removeSentenceEnd
    | potential key =>
      obtain rfl := Option.some.inj hfact
      exact chart.spares_changeBuffer key.buffer fun _ => id_removePotential
    | complete key =>
      obtain rfl := Option.some.inj hfact
      exact chart.spares_changeBuffer key.buffer fun _ => id_removeComplete

/-! ### What follows -/

/-- What follows from a fact about a buffer is about the same buffer. -/
theorem Sound.buffer?_of_mem_consequences (h : chart.Sound) (hfact : fact.buffer? = some id)
    (hnext : next ∈ chart.consequences fact) : next.buffer? = some id := by
  obtain ⟨d, ⟨happlies, hmem, -⟩, rfl⟩ := (h.lists_consequences fact).mem_facts hnext
  rw [eq_buffer_of_mem_antecedents happlies hmem hfact]
  exact d.buffer?_conclusion

/-- The steps noted so far led to sound charts. -/
def Trusted (traced : Traced Chart Fact) : Prop :=
  ∀ step ∈ traced.steps, step.after.Sound

theorem trusted_change {traced : Traced Chart Fact} :
    Trusted (Engine.change direction traced fact).1 ↔
      (Engine.change direction traced.store fact).1.Sound ∧ Trusted traced := by
  rw [Traced.change_eq]
  exact List.forall_mem_cons

/-- Steps that are sound lead from a fact about a buffer only to others about it, and spare the rest of the
chart. -/
theorem confined (start : Chart) (id : BufferId) :
    Confined (fun traced : Traced Chart Fact => Trusted traced → start.Spares id traced.store)
      fun traced fact => Trusted traced → fact.buffer? = some id where
  change direction traced fact hspares hfact htrusted := by
    obtain ⟨-, htrusted⟩ := trusted_change.1 htrusted
    rw [Traced.change_eq]
    exact (hspares htrusted).trans (spares_change direction traced.store (hfact htrusted))
  stays direction traced fact _ _ other hother htrusted := hother (trusted_change.1 htrusted).2
  next direction traced fact _ hfact _ next hnext htrusted := by
    obtain ⟨hsound, htrusted⟩ := trusted_change.1 htrusted
    rw [Traced.change_eq] at hnext
    exact hsound.buffer?_of_mem_consequences (hfact htrusted) hnext
  counterpart traced fact other hfact hother htrusted := by
    have hfact := hfact htrusted
    change counterpart? fact = some other at hother
    cases fact with
    | endOfSentence buffer site positive =>
      obtain rfl := Option.some.inj hother
      exact hfact
    | _ => cases hother

end Chart

end LiveProse
