import LiveProse.Proofs.Grammar.Beginnings
import LiveProse.Proofs.Store.Contents

/-! The search for what can begin a match. It takes one requirement after another, remembers which it
ever asked for and which productions it reached, and ends when none waits. A production is reached once,
by whatever requirement accepts it first; that hides nothing from the others, because what it asks for
does not depend on who reached it (`Closes`). -/

namespace LiveProse

namespace Grammar

open Relation

/-- The index of results files every defined production under the name of its result. -/
def FiledByResult (grammar : Grammar) : Prop :=
  ∀ name id, (name, id) ∈ grammar.byResult.pairs ↔
    ∃ production, grammar.get? id = some production ∧ production.result.name = name

variable {grammar : Grammar} {closing : Closing} {wanted : Nonterminal} {id : ProductionId}

theorem FiledByResult.mem_resultingIn (h : grammar.FiledByResult) (haccepts : grammar.Accepts wanted id) :
    id ∈ grammar.resultingIn wanted.name := by
  obtain ⟨production, hget, haccepts⟩ := haccepts
  simp only [Nonterminal.accepts, Bool.and_eq_true, decide_eq_true_eq] at haccepts
  exact PairIndex.mem_get.2 ((h _ _).2 ⟨production, hget, haccepts.1.symm⟩)

/-! ### Asking -/

namespace Closing

theorem mem_asked_ask {other : Nonterminal} :
    other ∈ (closing.ask wanted).asked ↔ other = wanted ∨ other ∈ closing.asked := by
  unfold ask
  split_ifs with hasked
  · refine ⟨.inr, ?_⟩
    rintro (rfl | hother)
    · exact List.contains_iff_mem.1 hasked
    · exact hother
  · exact List.mem_cons

theorem mem_waiting_ask {other : Nonterminal} :
    other ∈ (closing.ask wanted).waiting ↔
      (other = wanted ∧ other ∉ closing.asked) ∨ other ∈ closing.waiting := by
  unfold ask
  split_ifs with hasked
  · refine ⟨.inr, ?_⟩
    rintro (⟨rfl, hnot⟩ | hother)
    · exact absurd (List.contains_iff_mem.1 hasked) hnot
    · exact hother
  · rw [List.mem_cons]
    refine or_congr_left ⟨?_, And.left⟩
    rintro rfl
    exact ⟨rfl, fun hmem => hasked (List.contains_iff_mem.2 hmem)⟩

theorem found_ask : (closing.ask wanted).found = closing.found := by
  unfold ask
  split_ifs <;> rfl

variable (corners : List Nonterminal)

theorem mem_asked_foldl_ask (closing : Closing) (other : Nonterminal) :
    other ∈ (corners.foldl ask closing).asked ↔ other ∈ corners ∨ other ∈ closing.asked := by
  induction corners generalizing closing with
  | nil => simp
  | cons corner corners ih =>
    rw [List.foldl_cons, ih, mem_asked_ask, List.mem_cons, or_left_comm, or_assoc]

theorem mem_waiting_foldl_ask (closing : Closing) (other : Nonterminal) :
    other ∈ (corners.foldl ask closing).waiting ↔
      (other ∈ corners ∧ other ∉ closing.asked) ∨ other ∈ closing.waiting := by
  induction corners generalizing closing with
  | nil => simp
  | cons corner corners ih =>
    rw [List.foldl_cons, ih, mem_asked_ask, mem_waiting_ask, List.mem_cons]
    by_cases hcorner : other = corner <;> simp [hcorner]

theorem found_foldl_ask : (corners.foldl ask closing).found = closing.found := by
  induction corners generalizing closing with
  | nil => rfl
  | cons corner corners ih => rw [List.foldl_cons, ih, found_ask]

/-! ### How many requirements there can be -/

/-- No more requirements can be taken from now on: those that wait, and those that might still be asked
for. -/
def remaining (corners : List Nonterminal) (closing : Closing) : ℕ :=
  closing.waiting.length + (corners.filter (!closing.asked.contains ·)).length

theorem remaining_ask_le {corners : List Nonterminal} (hwanted : wanted ∈ corners) :
    (closing.ask wanted).remaining corners ≤ closing.remaining corners := by
  unfold ask
  split_ifs with hasked
  · exact Nat.le_refl _
  · -- the requirement moves from those that might be asked for to those that wait
    have hlt : (corners.filter (!(wanted :: closing.asked).contains ·)).length <
        (corners.filter (!closing.asked.contains ·)).length := by
      have heq : corners.filter (!(wanted :: closing.asked).contains ·) =
          (corners.filter (!closing.asked.contains ·)).filter (· ≠ wanted) := by
        rw [List.filter_filter]
        refine List.filter_congr fun other _ => ?_
        simp
      rw [heq]
      refine List.length_filter_lt_length_iff_exists.2 ⟨wanted, List.mem_filter.2 ⟨hwanted, ?_⟩, by simp⟩
      simpa using hasked
    simp only [remaining, List.length_cons]
    omega

theorem remaining_foldl_ask_le (closing : Closing) {all corners : List Nonterminal} (h : corners ⊆ all) :
    (corners.foldl ask closing).remaining all ≤ closing.remaining all := by
  induction corners generalizing closing with
  | nil => exact Nat.le_refl _
  | cons corner corners ih =>
    obtain ⟨hcorner, hcorners⟩ := List.cons_subset.1 h
    exact Nat.le_trans (ih _ hcorners) (remaining_ask_le hcorner)

end Closing

/-! ### Reaching -/

/-- A search for what can begin a match of some roots, while the productions are looked at that
`current` accepts. All that it reached and asked for is due to the roots; and what any requirement
accepts that neither waits nor is current has been reached. -/
structure Closes (grammar : Grammar) (roots current : List Nonterminal) (closing : Closing) : Prop where
  begun : roots ⊆ closing.asked
  waiting : closing.waiting ⊆ closing.asked
  asked : ∀ wanted ∈ closing.asked, ∀ id, grammar.Accepts wanted id →
    ∃ root ∈ roots, grammar.Begins root id
  found : ∀ id ∈ closing.found, ∃ root ∈ roots, grammar.Begins root id
  corners : ∀ id ∈ closing.found, ∀ production, grammar.get? id = some production →
    production.leftCorners ⊆ closing.asked
  taken : ∀ wanted ∈ closing.asked, wanted ∉ closing.waiting → wanted ∉ current →
    ∀ id, grammar.Accepts wanted id → id ∈ closing.found

variable {roots current : List Nonterminal}

/-- A search may reach a production that one of its requirements accepts. -/
theorem Closes.reach (h : grammar.Closes roots current closing) (hwanted : wanted ∈ closing.asked)
    (id : ProductionId) :
    grammar.Closes roots current (grammar.reach wanted closing id) ∧
      closing.asked ⊆ (grammar.reach wanted closing id).asked ∧
      closing.found ⊆ (grammar.reach wanted closing id).found ∧
      (grammar.Accepts wanted id → id ∈ (grammar.reach wanted closing id).found) := by
  unfold Grammar.reach
  cases hget : grammar.get? id with
  | none =>
    refine ⟨h, List.Subset.refl _, List.Subset.refl _, ?_⟩
    rintro ⟨production, hsome, -⟩
    rw [hget] at hsome
    cases hsome
  | some production =>
    dsimp only
    split_ifs with hskip
    · refine ⟨h, List.Subset.refl _, List.Subset.refl _, ?_⟩
      rintro ⟨other, hother, haccepts⟩
      obtain rfl := Option.some.inj (hget.symm.trans hother)
      simpa [haccepts] using hskip
    · rw [Bool.or_eq_true, not_or] at hskip
      have haccepts : grammar.Accepts wanted id := ⟨production, hget, by simpa using hskip.1⟩
      obtain ⟨root, hroot, hbegins⟩ := h.asked wanted hwanted id haccepts
      have hmem := Closing.mem_asked_foldl_ask production.leftCorners
        { closing with found := id :: closing.found }
      have hwaits := Closing.mem_waiting_foldl_ask production.leftCorners
        { closing with found := id :: closing.found }
      have hkept : closing.asked ⊆ (production.leftCorners.foldl Closing.ask
          { closing with found := id :: closing.found }).asked := fun other hother =>
        (hmem other).2 (.inr hother)
      refine ⟨⟨fun other hother => hkept (h.begun hother), fun other hother => ?_,
        fun other hother => ?_, ?_, ?_, fun other hother hnot hcurrent => ?_⟩, hkept, ?_, fun _ => ?_⟩
      · rcases (hwaits other).1 hother with hcorner | hother
        · exact (hmem other).2 (.inl hcorner.1)
        · exact hkept (h.waiting hother)
      · rcases (hmem other).1 hother with hcorner | hother
        · -- whatever a left corner accepts can begin what the production begins
          intro next hnext
          obtain ⟨first, hfirst, hleads⟩ := hbegins
          exact ⟨root, hroot, first, hfirst, hleads.tail ⟨production, other, hget, hcorner, hnext⟩⟩
        · exact h.asked other hother
      · rw [Closing.found_foldl_ask]
        exact List.forall_mem_cons.2 ⟨⟨root, hroot, hbegins⟩, h.found⟩
      · rw [Closing.found_foldl_ask]
        refine List.forall_mem_cons.2 ⟨fun other hother => ?_, fun first hfirst other hother => ?_⟩
        · obtain rfl := Option.some.inj (hget.symm.trans hother)
          exact fun corner hcorner => (hmem corner).2 (.inl hcorner)
        · exact fun corner hcorner => hkept (h.corners first hfirst other hother hcorner)
      · rw [Closing.found_foldl_ask]
        -- what is asked for only now waits, and what was taken before keeps what it has found
        rw [hwaits, not_or] at hnot
        intro next hnext
        rcases (hmem other).1 hother with hcorner | hother
        · by_cases hasked : other ∈ closing.asked
          · exact List.mem_cons_of_mem _ (h.taken other hasked hnot.2 hcurrent next hnext)
          · exact absurd ⟨hcorner, hasked⟩ hnot.1
        · exact List.mem_cons_of_mem _ (h.taken other hother hnot.2 hcurrent next hnext)
      · rw [Closing.found_foldl_ask]
        exact List.subset_cons_self _ _
      · rw [Closing.found_foldl_ask]
        exact List.mem_cons_self

theorem Closes.reachAll (h : grammar.Closes roots current closing) (hwanted : wanted ∈ closing.asked)
    (ids : List ProductionId) :
    grammar.Closes roots current (ids.foldl (grammar.reach wanted) closing) ∧
      closing.found ⊆ (ids.foldl (grammar.reach wanted) closing).found ∧
      ∀ id ∈ ids, grammar.Accepts wanted id → id ∈ (ids.foldl (grammar.reach wanted) closing).found := by
  induction ids generalizing closing with
  | nil => exact ⟨h, List.Subset.refl _, by simp⟩
  | cons first ids ih =>
    obtain ⟨hnext, hasked, hfound, hfirst⟩ := h.reach hwanted first
    obtain ⟨hlast, hkept, hreached⟩ := ih hnext (hasked hwanted)
    refine ⟨hlast, fun id hid => hkept (hfound hid), List.forall_mem_cons.2 ⟨fun haccepts => ?_, hreached⟩⟩
    exact hkept (hfirst haccepts)

/-- Taking a requirement leaves nothing of it to be done. -/
theorem Closes.take (hfiled : grammar.FiledByResult) {waiting : List Nonterminal}
    (hwaiting : closing.waiting = wanted :: waiting) (h : grammar.Closes roots [] closing) :
    grammar.Closes roots []
      ((grammar.resultingIn wanted.name).foldl (grammar.reach wanted) { closing with waiting }) := by
  have hasked : wanted ∈ closing.asked := h.waiting (hwaiting ▸ List.mem_cons_self)
  have hcurrent : grammar.Closes roots [wanted] { closing with waiting } := by
    refine ⟨h.begun, fun other hother => h.waiting (hwaiting ▸ List.mem_cons_of_mem _ hother), h.asked,
      h.found, h.corners, fun other hother hnot hne => h.taken other hother ?_ List.not_mem_nil⟩
    rw [hwaiting, List.mem_cons, not_or]
    exact ⟨fun heq => hne (List.mem_singleton.2 heq), hnot⟩
  obtain ⟨hlast, -, hreached⟩ := hcurrent.reachAll hasked (grammar.resultingIn wanted.name)
  refine { hlast with taken := fun other hother hnot _ id haccepts => ?_ }
  by_cases heq : other = wanted
  · subst heq
    exact hreached id (hfiled.mem_resultingIn haccepts) haccepts
  · exact hlast.taken other hother hnot (by simpa using heq) id haccepts

/-! ### The end of the search -/

theorem leftCorners_subset {production : Production} (hget : grammar.get? id = some production) :
    production.leftCorners ⊆ grammar.allLeftCorners := fun _ hcorner =>
  List.mem_flatMap.2 ⟨(id, production), mem_toList.2 hget, hcorner⟩

theorem remaining_reach_le (wanted : Nonterminal) (closing : Closing) (id : ProductionId) :
    (grammar.reach wanted closing id).remaining grammar.allLeftCorners ≤
      closing.remaining grammar.allLeftCorners := by
  unfold reach
  split
  · exact Nat.le_refl _
  · rename_i production hget
    split_ifs
    · exact Nat.le_refl _
    · exact { closing with found := id :: closing.found }.remaining_foldl_ask_le (leftCorners_subset hget)

theorem remaining_reachAll_le (grammar : Grammar) (wanted : Nonterminal) (closing : Closing)
    (ids : List ProductionId) :
    (ids.foldl (grammar.reach wanted) closing).remaining grammar.allLeftCorners ≤
      closing.remaining grammar.allLeftCorners := by
  induction ids generalizing closing with
  | nil => exact Nat.le_refl _
  | cons first ids ih => exact Nat.le_trans (ih _) (remaining_reach_le wanted closing first)

/-- With a budget for all requirements that can come up, the search ends because none waits. -/
theorem Closes.closeOver (hfiled : grammar.FiledByResult) {budget : ℕ}
    (hbudget : closing.remaining grammar.allLeftCorners ≤ budget) (h : grammar.Closes roots [] closing) :
    grammar.Closes roots [] (grammar.closeOver budget closing) ∧
      (grammar.closeOver budget closing).waiting = [] := by
  induction budget generalizing closing with
  | zero =>
    refine ⟨h, List.length_eq_zero_iff.1 ?_⟩
    change closing.waiting.length = 0
    unfold Closing.remaining at hbudget
    omega
  | succ budget ih =>
    rw [Grammar.closeOver]
    cases hwaiting : closing.waiting with
    | nil => exact ⟨h, hwaiting⟩
    | cons wanted waiting =>
      refine ih ?_ (h.take hfiled hwaiting)
      have hle := grammar.remaining_reachAll_le wanted { closing with waiting }
        (grammar.resultingIn wanted.name)
      simp only [Closing.remaining, hwaiting, List.length_cons] at hle hbudget ⊢
      omega

/-- When nothing waits, everything was found that can begin a match of the roots. -/
theorem Closes.mem_found (h : grammar.Closes roots [] closing) (hwaiting : closing.waiting = []) :
    id ∈ closing.found ↔ ∃ root ∈ roots, grammar.Begins root id := by
  have htaken : ∀ wanted ∈ closing.asked, ∀ id, grammar.Accepts wanted id → id ∈ closing.found :=
    fun wanted hasked => h.taken wanted hasked (hwaiting ▸ List.not_mem_nil) List.not_mem_nil
  refine ⟨h.found id, ?_⟩
  rintro ⟨root, hroot, first, haccepts, hleads⟩
  induction hleads with
  | refl => exact htaken root (h.begun hroot) first haccepts
  | tail _ hlast ih =>
    obtain ⟨production, corner, hget, hcorner, hnext⟩ := hlast
    exact htaken corner (h.corners _ ih production hget hcorner) _ hnext

/-- The closure of some requirements is what can begin one of them. -/
theorem mem_closure (hfiled : grammar.FiledByResult) :
    id ∈ grammar.closure roots ↔ ∃ wanted ∈ roots, grammar.Begins wanted id := by
  have hbegun : grammar.Closes roots [] ⟨roots.reverse, roots, []⟩ := by
    refine ⟨List.Subset.refl _, fun _ => List.mem_reverse.1, fun root hroot id haccepts => ?_, by simp,
      by simp, fun root hroot hnot => absurd (List.mem_reverse.2 hroot) hnot⟩
    exact ⟨root, hroot, id, haccepts, .refl⟩
  have hbudget : Closing.remaining grammar.allLeftCorners ⟨roots.reverse, roots, []⟩ ≤
      roots.length + grammar.allLeftCorners.length := by
    have := List.length_filter_le (!roots.contains ·) grammar.allLeftCorners
    simp only [Closing.remaining, List.length_reverse]
    omega
  obtain ⟨hclosed, hwaiting⟩ := hbegun.closeOver hfiled hbudget
  exact hclosed.mem_found hwaiting

theorem mem_sorted {ids : List ProductionId} : id ∈ ProductionId.sorted ids ↔ id ∈ ids := by
  simp [ProductionId.sorted]

theorem mem_leftCornerDescendants (h : grammar.FiledByResult) {production : Production} :
    id ∈ grammar.leftCornerDescendants production ↔ grammar.Descends production id := by
  rw [leftCornerDescendants, mem_sorted, mem_closure h]
  rfl

end Grammar

end LiveProse
