import LiveProse.Proofs.Grammar.Numbers
import LiveProse.Proofs.Grammar.UnitOrder
import LiveProse.Proofs.Store.Association
import Mathlib.Order.Bounds.Basic

/-! Grammars after any changes. Whatever was defined and undefined before, the indices are what the defined
productions make them (`Accurate`), and the numbers given out are all different, because a production that
is removed leaves its place empty. -/

namespace LiveProse

namespace Grammar

open Relation

/-- A change that may be asked of a grammar. -/
inductive Change where
  | define (production : Production) (vocabulary : Vocabulary)
  | undefine (id : ProductionId)

/-- Makes a change and says which number was given out for it, if any. A production is defined only if it
passes the checks, and a change that fails changes nothing. -/
def perform (grammar : Grammar) : Change → Grammar × Option ProductionId
  | .define production vocabulary =>
    match grammar.validate production vocabulary with
    | .ok () => ((grammar.define production).1, some (grammar.define production).2)
    | .error _ => (grammar, none)
  | .undefine id =>
    match grammar.undefine id with
    | .ok (less, _) => (less, none)
    | .error _ => (grammar, none)

/-- Makes changes one after another and collects the numbers given out for them. -/
def performAll (grammar : Grammar) : List Change → Grammar × List ProductionId
  | [] => (grammar, [])
  | change :: changes =>
    let (after, given) := grammar.perform change
    let (last, later) := after.performAll changes
    (last, given.toList ++ later)

/-- The productions that a nonterminal accepts: their result has its name, at a tier at least as high. -/
def accepted (grammar : Grammar) (wanted : Nonterminal) : Set ProductionId :=
  {id | ∃ production, grammar.get? id = some production ∧
    wanted.name = production.result.name ∧ wanted.tier ≤ production.result.tier}

/-- The productions that end sentences: the sentences and the passages. -/
def enders (grammar : Grammar) : Set ProductionId :=
  {id | ∃ production, grammar.get? id = some production ∧
    (production.variant = .sentence ∨ production.variant = .passage)}

/-- With a production comes whatever the nonterminals of its opening slots accept. -/
def Closed (grammar : Grammar) (ids : Set ProductionId) : Prop :=
  ∀ id ∈ ids, ∀ production, grammar.get? id = some production →
    ∀ slot ∈ production.openingSlots, ∀ corner ∈ slot.needs, grammar.accepted corner ⊆ ids

/-- The indices are what their definitions say. -/
structure Accurate (grammar : Grammar) : Prop where
  closures : ∀ wanted, grammar.Wants wanted →
    IsLeast {ids | grammar.accepted wanted ⊆ ids ∧ grammar.Closed ids}
      {id | id ∈ grammar.additionalBeginnings wanted}
  ancestors : ∀ id wanted, wanted ∈ grammar.ancestors.get id ↔ id ∈ grammar.additionalBeginnings wanted
  sentences : IsLeast {ids | grammar.enders ⊆ ids ∧ grammar.Closed ids}
    {id | id ∈ grammar.sentenceBeginnings}
  beginnings : ∀ key id, id ∈ grammar.beginningWith key ↔ ∃ production,
    grammar.get? id = some production ∧
      ∃ slot ∈ production.openingSlots, ∃ parseme ∈ slot.alternatives, parseme.key? = some key
  nodup_beginnings : ∀ key, (grammar.beginningWith key).Nodup
  results : ∀ name id, id ∈ grammar.resultingIn name ↔ ∃ production,
    grammar.get? id = some production ∧ production.result.name = name
  nodup_results : ∀ name, (grammar.resultingIn name).Nodup
  ids : ∀ production id, grammar.find? production = some id ↔ grammar.get? id = some production
  nodup_ids : ∀ production, (grammar.ids.get production).length ≤ 1

variable {grammar : Grammar} {wanted : Nonterminal} {id : ProductionId}

/-! ### Least sets -/

theorem mem_accepted : id ∈ grammar.accepted wanted ↔ grammar.Accepts wanted id := by
  simp [accepted, Accepts, Nonterminal.accepts]

theorem mem_leftCorners {production : Production} {corner : Nonterminal} :
    corner ∈ production.leftCorners ↔ ∃ slot ∈ production.openingSlots, corner ∈ slot.needs := by
  simp only [Production.leftCorners, Production.beginnings, Slot.needs, List.mem_filterMap, List.mem_flatMap]
  constructor
  · rintro ⟨parseme, ⟨slot, hslot, hparseme⟩, hwanted⟩
    exact ⟨slot, hslot, parseme, hparseme, hwanted⟩
  · rintro ⟨slot, hslot, parseme, hparseme, hwanted⟩
    exact ⟨parseme, ⟨slot, hslot, hparseme⟩, hwanted⟩

/-- A set is closed if no step through a left corner leads out of it. -/
theorem closed_iff {ids : Set ProductionId} :
    grammar.Closed ids ↔ ∀ id ∈ ids, ∀ other, grammar.Leads id other → other ∈ ids := by
  constructor
  · rintro h id hid other ⟨production, corner, hget, hcorner, haccepts⟩
    obtain ⟨slot, hslot, hneeds⟩ := mem_leftCorners.1 hcorner
    exact h id hid production hget slot hslot corner hneeds (mem_accepted.2 haccepts)
  · intro h id hid production hget slot hslot corner hneeds other hother
    exact h id hid other
      ⟨production, corner, hget, mem_leftCorners.2 ⟨slot, hslot, hneeds⟩, mem_accepted.1 hother⟩

/-- What can be reached through left corners is the least closed set around where they start. -/
theorem isLeast_leads (starts : Set ProductionId) :
    IsLeast {ids | starts ⊆ ids ∧ grammar.Closed ids}
      {id | ∃ first ∈ starts, ReflTransGen grammar.Leads first id} := by
  refine ⟨⟨fun first hfirst => ⟨first, hfirst, .refl⟩, closed_iff.2 ?_⟩, ?_⟩
  · rintro id ⟨first, hfirst, hleads⟩ other hother
    exact ⟨first, hfirst, hleads.tail hother⟩
  · rintro ids ⟨hstarts, hclosed⟩ id ⟨first, hfirst, hleads⟩
    induction hleads with
    | refl => exact hstarts hfirst
    | tail _ hlast ih => exact closed_iff.1 hclosed _ ih _ hlast

theorem Indexed.isLeast_closure (h : grammar.Indexed) (hwants : grammar.Wants wanted) :
    IsLeast {ids | grammar.accepted wanted ⊆ ids ∧ grammar.Closed ids}
      {id | id ∈ grammar.additionalBeginnings wanted} := by
  have hbegins : {id | id ∈ grammar.additionalBeginnings wanted} =
      {id | ∃ first ∈ grammar.accepted wanted, ReflTransGen grammar.Leads first id} := by
    ext id
    simp only [Set.mem_ofPred_eq, h.closures wanted id hwants, Begins, mem_accepted]
  rw [hbegins]
  exact isLeast_leads _

theorem Indexed.isLeast_sentences (h : grammar.Indexed) :
    IsLeast {ids | grammar.enders ⊆ ids ∧ grammar.Closed ids} {id | id ∈ grammar.sentenceBeginnings} := by
  have hbegins : {id | id ∈ grammar.sentenceBeginnings} =
      {id | ∃ first ∈ grammar.enders, ReflTransGen grammar.Leads first id} := by
    ext id
    have hsentences := h.sentences id
    rw [canBeginSentence, List.contains_iff_mem] at hsentences
    rw [Set.mem_ofPred_eq, hsentences]
    simp only [BeginsSentence, enders, Set.mem_ofPred_eq, Production.endsSentences, Bool.or_eq_true,
      decide_eq_true_eq]
    constructor
    · rintro ⟨first, production, hget, hends, hleads⟩
      exact ⟨first, ⟨production, hget, hends⟩, hleads⟩
    · rintro ⟨first, ⟨production, hget, hends⟩, hleads⟩
      exact ⟨first, production, hget, hends, hleads⟩
  rw [hbegins]
  exact isLeast_leads _

/-! ### Closures of what no slot asks for -/

/-- There are closures only of what slots ask for. -/
def Asked (grammar : Grammar) : Prop :=
  ∀ wanted id, id ∈ grammar.additionalBeginnings wanted → grammar.Wants wanted

theorem asked_rebuild (grammar : Grammar) : grammar.rebuild.Asked := by
  intro wanted id hid
  have hsome : (grammar.rebuild.closures.lookup wanted).isSome = true := by
    rw [additionalBeginnings] at hid
    cases hlookup : grammar.rebuild.closures.lookup wanted with
    | none =>
      rw [hlookup] at hid
      cases hid
    | some closure => rfl
  obtain ⟨entry, hentry, rfl⟩ := List.mem_map.1 (lookup_isSome_iff.1 hsome)
  obtain ⟨wanted, hwanted, rfl⟩ := List.mem_map.1 hentry
  exact mem_wanted.1 hwanted

theorem Reached.asked (h : grammar.Reached) : grammar.Asked := by
  cases h with
  | empty =>
    intro wanted id hid
    cases hid
  | define _ _ => exact asked_rebuild _
  | undefine _ hundefine =>
    obtain ⟨-, rfl⟩ := of_undefine hundefine
    exact asked_rebuild _

theorem Reached.numbered (h : grammar.Reached) : grammar.Numbered := by
  induction h with
  | empty => exact numbered_empty
  | define _ hvalid ih => exact ih.define hvalid
  | undefine _ hundefine ih =>
    obtain ⟨hget, rfl⟩ := of_undefine hundefine
    exact ih.without hget

theorem Indexed.mem_ancestors_iff (h : grammar.Indexed) (hasked : grammar.Asked) :
    wanted ∈ grammar.ancestors.get id ↔ id ∈ grammar.additionalBeginnings wanted := by
  rw [PairIndex.mem_get, h.mem_ancestors]
  constructor
  · rintro ⟨hwants, hbegins⟩
    exact (h.closures wanted id hwants).2 hbegins
  · intro hid
    have hwants := hasked wanted id hid
    exact ⟨hwants, (h.closures wanted id hwants).1 hid⟩

/-! ### Single productions -/

theorem mem_beginningKeys {production : Production} {key : ParsemeKey} :
    key ∈ beginningKeys production ↔
      ∃ slot ∈ production.openingSlots, ∃ parseme ∈ slot.alternatives, parseme.key? = some key := by
  simp only [beginningKeys, Production.beginnings, List.mem_filterMap, List.mem_flatMap]
  constructor
  · rintro ⟨parseme, ⟨slot, hslot, hparseme⟩, hkey⟩
    exact ⟨slot, hslot, parseme, hparseme, hkey⟩
  · rintro ⟨slot, hslot, parseme, hparseme, hkey⟩
    exact ⟨parseme, ⟨slot, hslot, hparseme⟩, hkey⟩

theorem Numbered.mem_get (h : grammar.Numbered) {production : Production} :
    id ∈ grammar.ids.get production ↔ grammar.get? id = some production :=
  PairIndex.mem_get.trans (h.mem production id)

theorem Numbered.length_get_le (h : grammar.Numbered) (production : Production) :
    (grammar.ids.get production).length ≤ 1 := by
  have hnodup := PairIndex.nodup_get h.nodup production
  have hmem (id : ProductionId) : id ∈ grammar.ids.get production ↔ grammar.get? id = some production :=
    h.mem_get
  generalize grammar.ids.get production = ids at hnodup hmem ⊢
  rcases ids with _ | ⟨first, _ | ⟨second, rest⟩⟩
  · exact Nat.zero_le 1
  · exact Nat.le_refl 1
  · have hsecond : second ∈ first :: second :: rest := List.mem_cons_of_mem _ List.mem_cons_self
    have heq : first = second :=
      h.distinct production first second ((hmem first).1 List.mem_cons_self) ((hmem second).1 hsecond)
    exact absurd (heq ▸ List.mem_cons_self) (List.nodup_cons.1 hnodup).1

theorem Numbered.find?_eq_some_iff (h : grammar.Numbered) {production : Production} :
    grammar.find? production = some id ↔ grammar.get? id = some production := by
  constructor
  · intro hfind
    exact h.mem_get.1 (List.mem_of_mem_head? hfind)
  · intro hget
    have hmem := h.mem_get.2 hget
    obtain ⟨first, hfirst⟩ := Option.isSome_iff_exists.1 (List.isSome_head?.2 (List.ne_nil_of_mem hmem))
    rw [find?, hfirst,
      h.distinct production first id (h.mem_get.1 (List.mem_of_mem_head? hfirst)) hget]

/-- In every grammar that can come about the indices are what they are meant to be. -/
theorem Reached.accurate (h : grammar.Reached) : grammar.Accurate where
  closures _ hwants := h.indexed.isLeast_closure hwants
  ancestors _ _ := h.indexed.mem_ancestors_iff h.asked
  sentences := h.indexed.isLeast_sentences
  beginnings key id := by
    rw [beginningWith, PairIndex.mem_get, h.indexed.mem_beginnings]
    simp only [mem_beginningKeys]
  nodup_beginnings := PairIndex.nodup_get h.indexed.nodup_beginnings
  results name id := PairIndex.mem_get.trans (h.indexed.mem_results name id)
  nodup_results := PairIndex.nodup_get h.indexed.nodup_results
  ids _ _ := h.numbered.find?_eq_some_iff
  nodup_ids := h.numbered.length_get_le

/-! ### Changes -/

variable {changes : List Change}

theorem Reached.perform (h : grammar.Reached) (change : Change) : (grammar.perform change).1.Reached := by
  cases change with
  | define production vocabulary =>
    rw [Grammar.perform]
    split
    · rename_i hvalid
      exact h.define hvalid
    · exact h
  | undefine id =>
    rw [Grammar.perform]
    split
    · rename_i hundefine
      exact h.undefine hundefine
    · exact h

theorem Reached.performAll (h : grammar.Reached) (changes : List Change) :
    (grammar.performAll changes).1.Reached := by
  induction changes generalizing grammar with
  | nil => exact h
  | cons change changes ih => exact ih (h.perform change)

/-- Places are never given up, and the number given out is that of the next place. -/
theorem perform_numbers (grammar : Grammar) (change : Change) :
    (grammar.perform change).2.toList.map (·.number) =
        List.range' grammar.productions.length (grammar.perform change).2.toList.length ∧
      (grammar.perform change).1.productions.length =
        grammar.productions.length + (grammar.perform change).2.toList.length := by
  cases change with
  | define production vocabulary =>
    rw [Grammar.perform]
    split
    · simp [Grammar.define, rebuild]
    · simp
  | undefine id =>
    rw [Grammar.perform]
    split
    · rename_i hundefine
      obtain ⟨-, rfl⟩ := of_undefine hundefine
      simp [without, rebuild]
    · simp

/-- The numbers given out follow one another. -/
theorem performAll_numbers (grammar : Grammar) (changes : List Change) :
    (grammar.performAll changes).2.map (·.number) =
        List.range' grammar.productions.length (grammar.performAll changes).2.length ∧
      (grammar.performAll changes).1.productions.length =
        grammar.productions.length + (grammar.performAll changes).2.length := by
  induction changes generalizing grammar with
  | nil => simp [performAll]
  | cons change changes ih =>
    obtain ⟨hfirst, hlength⟩ := perform_numbers grammar change
    obtain ⟨hlater, hlast⟩ := ih (grammar.perform change).1
    simp only [performAll, List.map_append, List.length_append]
    refine ⟨?_, by omega⟩
    rw [hfirst, hlater, hlength, List.range'_append_1]

/-- Whatever was defined and undefined, the indices are what the defined productions make them, no number
was given out twice, and everything that is defined has one of the numbers that were given out. -/
theorem performAll_accurate (changes : List Change) :
    let (grammar, given) := performAll {} changes
    grammar.Accurate ∧ given.Nodup ∧ ∀ id production, grammar.get? id = some production → id ∈ given := by
  obtain ⟨hnumbers, hlength⟩ := performAll_numbers {} changes
  refine ⟨(Reached.empty.performAll changes).accurate, ?_, fun id production hget => ?_⟩
  · refine List.Nodup.of_map (·.number) ?_
    rw [hnumbers]
    exact List.nodup_range'
  · have hlt : id.number < (performAll {} changes).1.productions.length := get?_lt (by rw [hget]; rfl)
    have hmem : id.number ∈ (performAll {} changes).2.map (·.number) := by
      rw [hnumbers, List.mem_range'_1, ← hlength]
      exact ⟨Nat.zero_le _, hlt⟩
    obtain ⟨other, hother, heq⟩ := List.mem_map.1 hmem
    obtain rfl : other = id := congrArg ProductionId.mk heq
    exact hother

/-- A noun that is nothing but a word. -/
def noun : Production := ⟨.subsentence, ⟨⟨1⟩, 0⟩, [.ofList [.word]]⟩

/-- A noun of a higher tier, which may have a phrase in front of it. -/
def fullNoun : Production :=
  ⟨.subsentence, ⟨⟨1⟩, 2⟩,
    [.ofList [.epsilon, .nonterminal ⟨⟨2⟩, 1⟩], .ofList [.nonterminal ⟨⟨1⟩, 1⟩], .ofList [.word]]⟩

/-- Nouns, phrases that begin with a noun of any tier, and sentences. The plain noun is removed in the end
and defined again. -/
def nounChanges : List Change :=
  [.define noun {}, .define fullNoun {},
    .define ⟨.wording, ⟨⟨2⟩, 1⟩, [.ofList [.nonterminal ⟨⟨1⟩, 0⟩], .ofList [.word]]⟩ {},
    .define ⟨.sentence, ⟨⟨3⟩, 0⟩, [.ofList [.nonterminal ⟨⟨2⟩, 0⟩], .ofList [.sentenceEnd]]⟩ {},
    .define noun {}, .undefine ⟨0⟩, .undefine ⟨0⟩, .define noun {}]

/-- The plain noun is not accepted where a noun of the first tier is wanted, but it can begin one, because it
can begin the phrase in front of it. What fails gives out no number. -/
theorem performAll_accurate_nouns :
    (performAll {} nounChanges).1.Accurate ∧
      (performAll {} nounChanges).2 = [⟨0⟩, ⟨1⟩, ⟨2⟩, ⟨3⟩, ⟨4⟩] ∧
      (performAll {} nounChanges).1.Wants ⟨⟨1⟩, 1⟩ ∧
      ⟨4⟩ ∉ (performAll {} nounChanges).1.accepted ⟨⟨1⟩, 1⟩ ∧
      ProductionId.sorted ((performAll {} nounChanges).1.additionalBeginnings ⟨⟨1⟩, 1⟩) =
        [⟨1⟩, ⟨2⟩, ⟨4⟩] := by
  have hbeginnings : (performAll {} nounChanges).1.additionalBeginnings ⟨⟨1⟩, 1⟩ = [⟨4⟩, ⟨2⟩, ⟨1⟩] := by
    decide +kernel
  refine ⟨(performAll_accurate nounChanges).1, by decide +kernel, ?_, ?_, by rw [hbeginnings]; cbv⟩
  · exact ⟨⟨1⟩, fullNoun, .ofList [.nonterminal ⟨⟨1⟩, 1⟩], by decide +kernel, by decide, by decide⟩
  · rintro ⟨production, hget, -, htier⟩
    have hnoun : (performAll {} nounChanges).1.get? ⟨4⟩ = some noun := by decide +kernel
    rw [hnoun, Option.some.injEq] at hget
    subst hget
    exact absurd htier (by decide)

end Grammar

end LiveProse
