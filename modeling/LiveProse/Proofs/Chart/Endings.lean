import LiveProse.Proofs.Chart.Ledger

/-! The list of sentence ends that a buffer keeps beside its records. Whatever fact changes, the list has
exactly the sites at which the end of a sentence is noted, each of them once. -/

namespace LiveProse

namespace Buffer

variable {buffer after : Buffer} {fact a : Fact} {sites : List Site} {site other : Site}
variable {key : MatchKey}

/-- The ends of sentences are listed where they are noted. -/
structure Ended (buffer : Buffer) : Prop where
  nodup : buffer.sentenceEndings.Nodup
  mem : ∀ site, site ∈ buffer.sentenceEndings ↔
    .endOfSentence buffer.id site true ∈ buffer.notes site

theorem Ended.congr (h : buffer.Ended) (hid : after.id = buffer.id)
    (hendings : after.sentenceEndings = buffer.sentenceEndings)
    (hnotes : ∀ site, .endOfSentence buffer.id site true ∈ after.notes site ↔
      .endOfSentence buffer.id site true ∈ buffer.notes site) : after.Ended := by
  refine ⟨hendings ▸ h.nodup, fun site => ?_⟩
  rw [hendings, h.mem, hid, hnotes]

theorem Ended.insert (h : buffer.Ended) (site : Site) (hid : after.id = buffer.id)
    (hendings : after.sentenceEndings = buffer.sentenceEndings.insert site)
    (hnotes : ∀ other, .endOfSentence buffer.id other true ∈ after.notes other ↔
      other = site ∨ .endOfSentence buffer.id other true ∈ buffer.notes other) : after.Ended := by
  refine ⟨hendings ▸ h.nodup.insert, fun other => ?_⟩
  rw [hendings, List.mem_insert_iff, h.mem, hid, hnotes]

theorem Ended.erase (h : buffer.Ended) (site : Site) (hid : after.id = buffer.id)
    (hendings : after.sentenceEndings = buffer.sentenceEndings.erase site)
    (hnotes : ∀ other, .endOfSentence buffer.id other true ∈ after.notes other ↔
      other ≠ site ∧ .endOfSentence buffer.id other true ∈ buffer.notes other) : after.Ended := by
  refine ⟨hendings ▸ h.nodup.erase site, fun other => ?_⟩
  rw [hendings, h.nodup.mem_erase_iff, h.mem, hid, hnotes]

/-- What is noted at a site of a changed record. -/
theorem notes_modifyFacts_eq {change : Annotations Fact → Annotations Fact} :
    (buffer.modifyFacts site change).notes other =
      if other = site then
        ((buffer.record? other).map fun record => (change record.facts).positive.items).getD []
      else buffer.notes other := by
  unfold notes
  rw [record?_modifyFacts, Option.map_map]
  split_ifs with hsite <;> simp [Function.comp_def]

theorem mem_notes_annotate (h : a ≠ fact) :
    a ∈ (buffer.annotate fact sites).notes other ↔ a ∈ buffer.notes other := by
  induction sites generalizing buffer with
  | nil => rfl
  | cons site sites ih =>
    change a ∈ ((buffer.modifyFacts site fun facts => (facts.add fact).1).annotate fact sites).notes other ↔ _
    rw [ih, notes_modifyFacts_eq]
    split_ifs with hsite
    · rw [notes]
      cases buffer.record? other with
      | none => rfl
      | some record => simp [add_fst, h]
    · rfl

theorem mem_notes_unannotate (h : a ≠ fact) :
    a ∈ (buffer.unannotate fact sites).notes other ↔ a ∈ buffer.notes other := by
  induction sites generalizing buffer with
  | nil => rfl
  | cons site sites ih =>
    change a ∈ ((buffer.modifyFacts site fun facts => (facts.remove fact).1).unannotate fact sites).notes other ↔ _
    rw [ih, notes_modifyFacts_eq]
    split_ifs with hsite
    · rw [notes]
      cases buffer.record? other with
      | none => rfl
      | some record => simp [remove_fst, List.mem_erase_of_ne h]
    · rfl

theorem Ended.annotate (h : buffer.Ended)
    (hfact : ∀ site, .endOfSentence buffer.id site true ≠ fact) : (buffer.annotate fact sites).Ended :=
  h.congr (by rw [annotate_eq]) (by rw [annotate_eq]) fun site => mem_notes_annotate (hfact site)

theorem Ended.unannotate (h : buffer.Ended)
    (hfact : ∀ site, .endOfSentence buffer.id site true ≠ fact) :
    (buffer.unannotate fact sites).Ended :=
  h.congr (by rw [unannotate_eq]) (by rw [unannotate_eq]) fun site => mem_notes_unannotate (hfact site)

/-- What is withheld does not matter. -/
theorem Ended.modifyFacts (h : buffer.Ended) {change : Annotations Fact → Annotations Fact}
    (hchange : ∀ facts, (change facts).positive = facts.positive) :
    (buffer.modifyFacts site change).Ended :=
  h.congr rfl rfl fun other => by rw [notes_modifyFacts hchange]

/-! ### Changing facts -/

open Chart

theorem Ended.makeAvailable (h : buffer.Ended) (handle : Handle) :
    (makeAvailable fact handle buffer).1.Ended := by
  have hnoted : (buffer.modifyFacts (.token handle) fun facts => (facts.justifyNegation fact).1).Ended :=
    h.modifyFacts fun facts => rfl
  unfold Chart.makeAvailable
  split
  · exact h
  · dsimp only
    split_ifs
    · exact hnoted.congr rfl rfl fun _ => Iff.rfl
    · exact hnoted

theorem Ended.makeUnavailable (h : buffer.Ended) (handle : Handle) :
    (makeUnavailable fact handle buffer).1.Ended := by
  have hnoted : (buffer.modifyFacts (.token handle) fun facts => (facts.unjustifyNegation fact).1).Ended :=
    h.modifyFacts fun facts => by
      unfold Annotations.unjustifyNegation
      split_ifs <;> rfl
  unfold Chart.makeUnavailable
  split
  · exact h
  · split_ifs
    · exact hnoted.congr rfl rfl fun _ => Iff.rfl
    · exact h

theorem Ended.addEdge (h : buffer.Ended) (id : BufferId) (source target : Site) :
    (addEdge (.next id source target) source target buffer).1.Ended := by
  unfold Chart.addEdge
  split_ifs
  · exact h
  · exact h.annotate fun _ => nofun

theorem Ended.removeEdge (h : buffer.Ended) (id : BufferId) (source target : Site) :
    (removeEdge (.next id source target) source target buffer).1.Ended := by
  unfold Chart.removeEdge
  split_ifs
  · exact h.unannotate fun _ => nofun
  · exact h

theorem Ended.addSentenceEnd (h : buffer.Ended) (site : Site) (positive : Bool) :
    (addSentenceEnd (.endOfSentence buffer.id site positive) site positive buffer).1.Ended := by
  unfold Chart.addSentenceEnd
  split_ifs with hskip hpositive
  · exact h
  · subst hpositive
    simp only [Bool.or_eq_true, Bool.not_eq_true', not_or, Bool.not_eq_false] at hskip
    dsimp only
    refine h.insert site (by rw [annotate_eq]) (by rw [annotate_eq]) fun other => ?_
    change _ ∈ (buffer.annotate _ [site]).notes other ↔ _
    rw [notes_annotate (List.nodup_singleton site)]
    by_cases hother : other = site <;> simp [hother, hskip.1]
  · exact h.annotate fun other heq => hpositive (Fact.endOfSentence.inj heq).2.2.symm

theorem Ended.removeSentenceEnd (h : buffer.Ended) (site : Site) (positive : Bool) :
    (removeSentenceEnd (.endOfSentence buffer.id site positive) site positive buffer).1.Ended := by
  unfold Chart.removeSentenceEnd
  cases hrecord : buffer.record? site with
  | none => exact h
  | some record =>
    cases positive with
    | false =>
      dsimp only
      rw [Bool.and_false]
      exact h.unannotate fun other => nofun
    | true =>
      have hnotes : buffer.notes site = record.facts.positive.items := by
        rw [notes, hrecord, Option.map_some, Option.getD_some]
      -- the fact goes exactly if it was noted once
      have hremoved : (record.facts.remove (.endOfSentence buffer.id site true)).2 = true ↔
          (buffer.notes site).count (.endOfSentence buffer.id site true) = 1 := by
        rw [hnotes]
        exact decide_eq_true_iff.trans Bank.release?_eq_zero
      have hafter (other : Site) :
          .endOfSentence buffer.id other true ∈
              (buffer.unannotate (.endOfSentence buffer.id site true) [site]).notes other ↔
            (other = site → (buffer.notes site).count (.endOfSentence buffer.id site true) ≠ 1) ∧
              .endOfSentence buffer.id other true ∈ buffer.notes other := by
        rw [notes_unannotate (List.nodup_singleton site)]
        by_cases hother : other = site
        · subst hother
          rw [if_pos (List.mem_singleton_self _), ← List.count_pos_iff, ← List.count_pos_iff,
            List.count_erase_self]
          simp only [true_imp_iff]
          omega
        · simp [hother]
      dsimp only
      rw [Bool.and_true]
      split_ifs with hgone
      · refine h.erase site (by rw [unannotate_eq]) (by rw [unannotate_eq]) fun other => ?_
        exact (hafter other).trans (and_congr_left fun _ => by simp [hremoved.1 hgone])
      · refine h.congr (by rw [unannotate_eq]) (by rw [unannotate_eq]) fun other => ?_
        exact (hafter other).trans (and_iff_right fun _ => mt hremoved.2 hgone)

theorem Ended.withMatches (h : buffer.Ended) (potentials completes : Bank MatchKey) :
    (buffer.withMatches potentials completes).Ended :=
  h.congr rfl rfl fun _ => Iff.rfl

theorem Ended.addPotential (h : buffer.Ended) (needs : List Nonterminal) :
    (addPotential needs key buffer).1.Ended := by
  rw [addPotential_eq]
  split_ifs
  · exact h.withMatches _ _
  · exact ((h.withMatches _ _).annotate fun _ => by simp).congr rfl rfl fun _ => Iff.rfl

theorem Ended.removePotential (h : buffer.Ended) (needs : List Nonterminal) :
    (removePotential needs key buffer).1.Ended := by
  rw [removePotential_eq]
  split_ifs
  · exact ((h.withMatches _ _).unannotate fun _ => by simp).congr rfl rfl fun _ => Iff.rfl
  · exact h.withMatches _ _

theorem Ended.addComplete (h : buffer.Ended) (result : Nonterminal) :
    (addComplete result key buffer).1.Ended := by
  rw [addComplete_eq]
  split_ifs
  · exact h.withMatches _ _
  · exact ((h.withMatches _ _).annotate fun _ => by simp).congr rfl rfl fun _ => Iff.rfl

theorem Ended.removeComplete (h : buffer.Ended) (grammar : Grammar) :
    (removeComplete grammar key buffer).1.Ended := by
  have hgone (completes : Bank MatchKey) :
      (({ buffer with completes } : Buffer).unannotate (.complete key) key.ends).Ended :=
    Ended.unannotate (h.congr rfl rfl fun _ => Iff.rfl) fun _ => by simp
  unfold Chart.removeComplete
  dsimp only
  split_ifs
  · split
    · exact hgone _
    · split_ifs
      · exact hgone _
      · exact (hgone _).congr rfl rfl fun _ => Iff.rfl
  · exact h.congr rfl rfl fun _ => Iff.rfl

end Buffer

namespace Chart

variable {chart : Chart} {id : BufferId} {buffer : Buffer}

/-- In every buffer the ends of sentences are listed where they are noted. -/
def Ended (chart : Chart) : Prop :=
  ∀ buffer ∈ chart.buffers, buffer.Ended

theorem Ended.setBuffer (h : chart.Ended) (hbuffer : buffer.Ended) : (chart.setBuffer buffer).Ended := by
  intro other hother
  obtain ⟨old, hold, rfl⟩ := List.mem_map.1 hother
  split_ifs
  · exact hbuffer
  · exact h old hold

theorem Ended.changeBuffer (h : chart.Ended) {change : Buffer → Buffer × Bool}
    (hchange : ∀ buffer, buffer.id = id → buffer.Ended → (change buffer).1.Ended) :
    (chart.changeBuffer id change).1.Ended := by
  unfold Chart.changeBuffer
  cases hbuffer : chart.buffer? id with
  | none => exact h
  | some buffer =>
    obtain ⟨hmem, hid⟩ := buffer?_eq_some hbuffer
    exact h.setBuffer (hchange buffer hid (h buffer hmem))

/-- No change of a fact puts the lists of sentence ends out of order. -/
theorem Ended.change (h : chart.Ended) (direction : Direction) (fact : Fact) :
    (Engine.change direction chart fact).1.Ended := by
  cases direction with
  | justify =>
    change (chart.justify fact).1.Ended
    unfold justify
    cases fact with
    | production id => exact h
    | available id handle => exact h.changeBuffer fun _ _ hended => hended.makeAvailable handle
    | next id source target => exact h.changeBuffer fun _ _ hended => hended.addEdge id source target
    | endOfSentence id site positive =>
      exact h.changeBuffer fun _ hid hended => hid ▸ hended.addSentenceEnd site positive
    | potential key => exact h.changeBuffer fun _ _ hended => hended.addPotential _
    | complete key =>
      dsimp only
      split
      · exact h.changeBuffer fun _ _ hended => hended.addComplete _
      · exact h
  | unjustify =>
    change (chart.unjustify fact).1.Ended
    unfold unjustify
    cases fact with
    | production id => exact h
    | available id handle => exact h.changeBuffer fun _ _ hended => hended.makeUnavailable handle
    | next id source target => exact h.changeBuffer fun _ _ hended => hended.removeEdge id source target
    | endOfSentence id site positive =>
      exact h.changeBuffer fun _ hid hended => hid ▸ hended.removeSentenceEnd site positive
    | potential key => exact h.changeBuffer fun _ _ hended => hended.removePotential _
    | complete key => exact h.changeBuffer fun _ _ hended => hended.removeComplete _

end Chart

end LiveProse
