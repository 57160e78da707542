import LiveProse.Chart.Consequences
import LiveProse.Proofs.Chart.Matches
import LiveProse.Proofs.Grammar.Indices

/-! Charts in order, and what reading them answers then: the lists of neighbours and of matches at a
site hold exactly the facts that hold, each of them once. -/

namespace LiveProse

theorem nodup_filterMap {α β : Type} {f : α → Option β} {xs : List α} (hxs : xs.Nodup)
    (hf : ∀ a ∈ xs, ∀ b ∈ xs, ∀ y, f a = some y → f b = some y → a = b) : (xs.filterMap f).Nodup := by
  induction xs with
  | nil => exact List.nodup_nil
  | cons x xs ih =>
    obtain ⟨hx, hxs⟩ := List.nodup_cons.1 hxs
    have ih := ih hxs fun a ha b hb => hf a (List.mem_cons_of_mem _ ha) b (List.mem_cons_of_mem _ hb)
    cases hfx : f x with
    | none => rwa [List.filterMap_cons_none hfx]
    | some y =>
      rw [List.filterMap_cons_some hfx, List.nodup_cons]
      refine ⟨fun hmem => hx ?_, ih⟩
      obtain ⟨z, hz, hfz⟩ := List.mem_filterMap.1 hmem
      rw [hf x List.mem_cons_self z (List.mem_cons_of_mem _ hz) y hfx hfz]
      exact hz

namespace Chart

variable {chart : Chart} {id : BufferId} {site : Site} {fact : Fact}

/-- A chart in order. -/
structure Sound (chart : Chart) : Prop where
  grammar : chart.grammar.Indexed
  ids : (chart.buffers.map (·.id)).Nodup
  buffers : ∀ buffer ∈ chart.buffers, buffer.Sound chart.grammar
  nodup_active : chart.active.Nodup
  active : ∀ id ∈ chart.active, (chart.grammar.get? id).isSome = true

/-- All of a chart that no fact changes, but for the productions in use. -/
def skeleton (chart : Chart) : Grammar × Vocabulary ×
    List (BufferId × BufferKind × TokenSequence × List (Site × SiteInfo)) :=
  (chart.grammar, chart.vocabulary, chart.buffers.map Buffer.skeleton)

theorem buffer?_eq_some {buffer : Buffer} (h : chart.buffer? id = some buffer) :
    buffer ∈ chart.buffers ∧ buffer.id = id := by
  refine ⟨List.mem_of_find?_eq_some h, ?_⟩
  have := List.find?_some h
  simpa using this

theorem buffer?_eq_some_iff (hids : (chart.buffers.map (·.id)).Nodup) {buffer : Buffer} :
    chart.buffer? id = some buffer ↔ buffer ∈ chart.buffers ∧ buffer.id = id := by
  refine ⟨buffer?_eq_some, ?_⟩
  rintro ⟨hmem, rfl⟩
  rw [buffer?]
  cases hfind : chart.buffers.find? (·.id = buffer.id) with
  | none =>
    have := List.find?_eq_none.1 hfind buffer hmem
    simp at this
  | some other =>
    have hother := List.mem_of_find?_eq_some hfind
    have hid := List.find?_some hfind
    rw [List.inj_on_of_nodup_map hids hother hmem (by simpa using hid)]

theorem Sound.buffer (h : chart.Sound) {buffer : Buffer} (hbuffer : chart.buffer? id = some buffer) :
    buffer.Sound chart.grammar :=
  h.buffers buffer (buffer?_eq_some hbuffer).1

/-! ### Buffers and their facts -/

theorem holds_of_buffer? {buffer : Buffer} (hid : fact.buffer? = some id)
    (hbuffer : chart.buffer? id = some buffer) : chart.holds fact = buffer.holds fact := by
  cases fact with
  | production id => cases hid
  | available id' handle =>
    injection hid with hid
    subst hid
    simp only [holds, isAvailable, record?, hbuffer, Option.bind_some]
    rfl
  | next id' source target =>
    injection hid with hid
    subst hid
    simp only [holds, hasFact, record?, hbuffer, Option.bind_some]
    rfl
  | endOfSentence id' site positive =>
    injection hid with hid
    subst hid
    simp only [holds, endsSentence, hasFact, record?, hbuffer, Option.bind_some]
    rfl
  | potential key =>
    injection hid with hid
    subst hid
    simp only [holds, hbuffer]
    rfl
  | complete key =>
    injection hid with hid
    subst hid
    simp only [holds, hbuffer]
    rfl

theorem holds_of_buffer?_none (hid : fact.buffer? = some id) (hbuffer : chart.buffer? id = none) :
    chart.holds fact = false := by
  cases fact with
  | production id => cases hid
  | available id' handle =>
    injection hid with hid
    subst hid
    simp [holds, isAvailable, record?, hbuffer]
  | next id' source target =>
    injection hid with hid
    subst hid
    simp [holds, hasFact, record?, hbuffer]
  | endOfSentence id' site positive =>
    injection hid with hid
    subst hid
    simp [holds, endsSentence, hasFact, record?, hbuffer]
  | potential key =>
    injection hid with hid
    subst hid
    simp [holds, hbuffer]
  | complete key =>
    injection hid with hid
    subst hid
    simp [holds, hbuffer]

/-- Facts hold about buffers that are there. -/
theorem exists_buffer?_of_holds (hid : fact.buffer? = some id) (hholds : chart.holds fact = true) :
    ∃ buffer, chart.buffer? id = some buffer := by
  cases hbuffer : chart.buffer? id with
  | none =>
    rw [holds_of_buffer?_none hid hbuffer] at hholds
    cases hholds
  | some buffer => exact ⟨buffer, rfl⟩

theorem factsOfClass_of_buffer? {buffer : Buffer} {wanted : FactClass}
    (hbuffer : chart.buffer? id = some buffer) :
    chart.factsOfClass id site wanted = buffer.factsOfClass site wanted := by
  simp only [factsOfClass, record?, hbuffer, Option.bind_some]
  rfl

theorem factsOfClass_of_buffer?_none {wanted : FactClass} (hbuffer : chart.buffer? id = none) :
    chart.factsOfClass id site wanted = [] := by
  simp [factsOfClass, record?, hbuffer]

/-- The facts noted at a site are those about the buffer that hold and have a place there. -/
theorem Sound.mem_factsOfClass (h : chart.Sound) {wanted : FactClass} :
    fact ∈ chart.factsOfClass id site wanted ↔
      fact.buffer? = some id ∧ chart.holds fact = true ∧ site ∈ fact.places ∧
        fact.factClass = wanted := by
  cases hbuffer : chart.buffer? id with
  | none =>
    rw [factsOfClass_of_buffer?_none hbuffer]
    refine iff_of_false (by simp) ?_
    rintro ⟨hid, hholds, -⟩
    rw [holds_of_buffer?_none hid hbuffer] at hholds
    cases hholds
  | some buffer =>
    have hnoted := (h.buffer hbuffer).noted
    obtain ⟨-, hid⟩ := buffer?_eq_some hbuffer
    rw [factsOfClass_of_buffer? hbuffer, Buffer.mem_factsOfClass]
    constructor
    · rintro ⟨hmem, hclass⟩
      have hown := hnoted.own site fact hmem
      rw [hid] at hown
      obtain ⟨hholds, hsite⟩ := (hnoted.mem site fact).1 hmem
      exact ⟨hown, (holds_of_buffer? hown hbuffer).trans hholds, hsite, hclass⟩
    · rintro ⟨hown, hholds, hsite, hclass⟩
      rw [holds_of_buffer? hown hbuffer] at hholds
      exact ⟨(hnoted.mem site fact).2 ⟨hholds, hsite⟩, hclass⟩

theorem nodup_factsOfClass (chart : Chart) (id : BufferId) (site : Site) (wanted : FactClass) :
    (chart.factsOfClass id site wanted).Nodup := by
  cases hbuffer : chart.buffer? id with
  | none =>
    rw [factsOfClass_of_buffer?_none hbuffer]
    exact List.nodup_nil
  | some buffer =>
    rw [factsOfClass_of_buffer? hbuffer]
    exact buffer.nodup_factsOfClass site wanted

/-! ### Neighbours -/

theorem Sound.mem_successors (h : chart.Sound) {target : Site} :
    target ∈ chart.successors id site ↔ chart.holds (.next id site target) = true := by
  rw [successors, List.mem_filterMap]
  constructor
  · rintro ⟨fact, hfact, hmatch⟩
    obtain ⟨hown, hholds, -, -⟩ := h.mem_factsOfClass.1 hfact
    cases fact with
    | next id' source target' =>
      injection hown with hown
      simp only [Option.ite_none_right_eq_some, Option.some.injEq] at hmatch
      rw [← hmatch.1, ← hmatch.2, ← hown]
      exact hholds
    | _ => cases hmatch
  · intro hholds
    refine ⟨.next id site target, h.mem_factsOfClass.2 ⟨rfl, hholds, ?_, rfl⟩, by simp⟩
    simp [Fact.places]

theorem Sound.mem_predecessors (h : chart.Sound) {source : Site} :
    source ∈ chart.predecessors id site ↔ chart.holds (.next id source site) = true := by
  rw [predecessors, List.mem_filterMap]
  constructor
  · rintro ⟨fact, hfact, hmatch⟩
    obtain ⟨hown, hholds, -, -⟩ := h.mem_factsOfClass.1 hfact
    cases fact with
    | next id' source' target =>
      injection hown with hown
      simp only [Option.ite_none_right_eq_some, Option.some.injEq] at hmatch
      rw [← hmatch.1, ← hmatch.2, ← hown]
      exact hholds
    | _ => cases hmatch
  · intro hholds
    refine ⟨.next id source site, h.mem_factsOfClass.2 ⟨rfl, hholds, ?_, rfl⟩, by simp⟩
    simp [Fact.places]

theorem Sound.nodup_successors (h : chart.Sound) : (chart.successors id site).Nodup := by
  refine nodup_filterMap (nodup_factsOfClass ..) ?_
  intro a ha b hb y hy hy'
  have ha := (h.mem_factsOfClass.1 ha).1
  have hb := (h.mem_factsOfClass.1 hb).1
  cases a with
  | next ida sourcea targeta =>
    cases b with
    | next idb sourceb targetb =>
      simp only [Option.ite_none_right_eq_some, Option.some.injEq] at hy hy'
      injection ha with ha
      injection hb with hb
      rw [ha, hb, hy.1, hy.2, hy'.1, hy'.2]
    | _ => cases hy'
  | _ => cases hy

theorem Sound.nodup_predecessors (h : chart.Sound) : (chart.predecessors id site).Nodup := by
  refine nodup_filterMap (nodup_factsOfClass ..) ?_
  intro a ha b hb y hy hy'
  have ha := (h.mem_factsOfClass.1 ha).1
  have hb := (h.mem_factsOfClass.1 hb).1
  cases a with
  | next ida sourcea targeta =>
    cases b with
    | next idb sourceb targetb =>
      simp only [Option.ite_none_right_eq_some, Option.some.injEq] at hy hy'
      injection ha with ha
      injection hb with hb
      rw [ha, hb, hy.1, hy.2, hy'.1, hy'.2]
    | _ => cases hy'
  | _ => cases hy

/-! ### Matches at a site -/

theorem Sound.mem_potentialsEndingAt (h : chart.Sound) {key : MatchKey} :
    key ∈ chart.potentialsEndingAt id site ↔
      chart.holds (.potential key) = true ∧ key.buffer = id ∧ key.endSite = site := by
  rw [potentialsEndingAt, List.mem_filterMap]
  constructor
  · rintro ⟨fact, hfact, hmatch⟩
    obtain ⟨hown, hholds, -, -⟩ := h.mem_factsOfClass.1 hfact
    cases fact with
    | potential key' =>
      injection hown with hown
      simp only [Option.ite_none_right_eq_some, Option.some.injEq] at hmatch
      rw [← hmatch.2]
      exact ⟨hholds, hown, hmatch.1⟩
    | _ => cases hmatch
  · rintro ⟨hholds, rfl, rfl⟩
    refine ⟨.potential key, h.mem_factsOfClass.2 ⟨rfl, hholds, ?_, rfl⟩, by simp⟩
    exact key.endSite_mem_ends

theorem Sound.mem_completesBeginningAt (h : chart.Sound) {key : MatchKey} :
    key ∈ chart.completesBeginningAt id site ↔
      chart.holds (.complete key) = true ∧ key.buffer = id ∧ key.beginningSite = site := by
  rw [completesBeginningAt, List.mem_filterMap]
  constructor
  · rintro ⟨fact, hfact, hmatch⟩
    obtain ⟨hown, hholds, -, -⟩ := h.mem_factsOfClass.1 hfact
    cases fact with
    | complete key' =>
      injection hown with hown
      simp only [Option.ite_none_right_eq_some, Option.some.injEq] at hmatch
      rw [← hmatch.2]
      exact ⟨hholds, hown, hmatch.1⟩
    | _ => cases hmatch
  · rintro ⟨hholds, rfl, rfl⟩
    refine ⟨.complete key, h.mem_factsOfClass.2 ⟨rfl, hholds, ?_, rfl⟩, by simp⟩
    exact key.beginningSite_mem_ends

theorem nodup_potentialsEndingAt (chart : Chart) (id : BufferId) (site : Site) :
    (chart.potentialsEndingAt id site).Nodup := by
  refine nodup_filterMap (nodup_factsOfClass ..) ?_
  intro a _ b _ y hy hy'
  cases a with
  | potential keya =>
    cases b with
    | potential keyb =>
      simp only [Option.ite_none_right_eq_some, Option.some.injEq] at hy hy'
      rw [hy.2, hy'.2]
    | _ => cases hy'
  | _ => cases hy

theorem nodup_completesBeginningAt (chart : Chart) (id : BufferId) (site : Site) :
    (chart.completesBeginningAt id site).Nodup := by
  refine nodup_filterMap (nodup_factsOfClass ..) ?_
  intro a _ b _ y hy hy'
  cases a with
  | complete keya =>
    cases b with
    | complete keyb =>
      simp only [Option.ite_none_right_eq_some, Option.some.injEq] at hy hy'
      rw [hy.2, hy'.2]
    | _ => cases hy'
  | _ => cases hy

/-- The unfinished matches that end at a site. -/
theorem Sound.mem_waitingAt (h : chart.Sound) {key : MatchKey} {production : Production} :
    (key, production) ∈ chart.waitingAt id site ↔
      (chart.holds (.potential key) = true ∧ key.buffer = id ∧ key.endSite = site) ∧
        chart.grammar.get? key.production = some production ∧
          key.slotsFilled < production.arity := by
  rw [waitingAt, List.mem_filterMap]
  constructor
  · rintro ⟨key', hkey, hmatch⟩
    obtain ⟨production', hget, hif⟩ := Option.bind_eq_some_iff.1 hmatch
    simp only [Option.ite_none_right_eq_some, Option.some.injEq, Prod.mk.injEq] at hif
    obtain ⟨hlt, rfl, rfl⟩ := hif
    exact ⟨h.mem_potentialsEndingAt.1 hkey, hget, hlt⟩
  · rintro ⟨hkey, hget, hlt⟩
    refine ⟨key, h.mem_potentialsEndingAt.2 hkey, ?_⟩
    rw [hget, Option.bind_some, if_pos hlt]

theorem nodup_waitingAt (chart : Chart) (id : BufferId) (site : Site) :
    (chart.waitingAt id site).Nodup := by
  refine nodup_filterMap (chart.nodup_potentialsEndingAt id site) ?_
  intro a _ b _ y hy hy'
  obtain ⟨pa, -, hy⟩ := Option.bind_eq_some_iff.1 hy
  obtain ⟨pb, -, hy'⟩ := Option.bind_eq_some_iff.1 hy'
  simp only [Option.ite_none_right_eq_some, Option.some.injEq] at hy hy'
  exact congrArg Prod.fst (hy.2.trans hy'.2.symm)

end Chart

end LiveProse
