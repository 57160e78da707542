import LiveProse.Proofs.Grammar.Beginnings
import Mathlib.Data.List.Forall2
import Mathlib.Logic.Equiv.Basic

/-! Productions that are spelled alike. Two productions over different words are alike if their words
stand for one another, place by place. What they accept, and what can begin with them, is then alike
too. -/

namespace LiveProse

section Lists

variable {α β : Type} {P : α → β → Prop} {l : List α} {l' : List β}

theorem any_eq_of_forall₂ (h : List.Forall₂ P l l') {f : α → Bool} {g : β → Bool}
    (hfg : ∀ a b, P a b → f a = g b) : l.any f = l'.any g := by
  induction h with
  | nil => rfl
  | cons hhead _ ih => rw [List.any_cons, List.any_cons, hfg _ _ hhead, ih]

theorem exists_mem_iff_of_forall₂ (h : List.Forall₂ P l l') {p : α → Prop} {q : β → Prop}
    (hpq : ∀ a b, P a b → (p a ↔ q b)) : (∃ a ∈ l, p a) ↔ ∃ b ∈ l', q b := by
  induction h with
  | nil => simp
  | cons hhead _ ih => simp [hpq _ _ hhead, ih]

theorem any_eq_of_rel {first : Option α} {second : Option β} (h : Option.Rel P first second)
    {f : α → Bool} {g : β → Bool} (hfg : ∀ a b, P a b → f a = g b) : first.any f = second.any g := by
  cases h with
  | none => rfl
  | some h => exact hfg _ _ h

theorem rel_getElem? (h : List.Forall₂ P l l') (index : ℕ) :
    Option.Rel P l[index]? l'[index]? := by
  induction h generalizing index with
  | nil => exact .none
  | cons hhead _ ih =>
    cases index with
    | zero => exact .some hhead
    | succ index => exact ih index

end Lists

section Words

variable (R : Word → Word → Prop)

/-- The same tier, and names that stand for one another. -/
structure Nonterminal.Alike (first second : Nonterminal) : Prop where
  name : R first.name second.name
  tier : first.tier = second.tier

/-- The same class, and texts that stand for one another. -/
inductive Parseme.Alike : Parseme → Parseme → Prop
  | epsilon : Alike .epsilon .epsilon
  | token {first second : Word} (text : R first second) : Alike (.token first) (.token second)
  | digits : Alike .digits .digits
  | word : Alike .word .word
  | nameWord : Alike .nameWord .nameWord
  | sentenceEnd : Alike .sentenceEnd .sentenceEnd
  | nonterminal {first second : Nonterminal} (wanted : first.Alike R second) :
      Alike (.nonterminal first) (.nonterminal second)

structure Slot.Alike (first second : Slot) : Prop where
  alternatives : List.Forall₂ (Parseme.Alike R) first.alternatives second.alternatives
  optional : first.optional = second.optional

structure Production.Alike (first second : Production) : Prop where
  variant : first.variant = second.variant
  result : first.result.Alike R second.result
  slots : List.Forall₂ (Slot.Alike R) first.slots second.slots

/-- The same is known about two sites, but for the words. -/
structure SiteInfo.Alike (first second : SiteInfo) : Prop where
  text : Option.Rel R first.text second.text
  traits : first.traits = second.traits

end Words

variable {R : Word → Word → Prop}

theorem SiteInfo.alike_sentinel : SiteInfo.sentinel.Alike R .sentinel := ⟨.none, rfl⟩

/-! ### Alike to one alone -/

theorem Nonterminal.biUnique_alike (hR : Relator.BiUnique R) :
    Relator.BiUnique (Nonterminal.Alike R) := by
  refine ⟨fun a b c ha hb => ?_, fun a b c hb hc => ?_⟩
  · cases a; cases b
    exact (Nonterminal.mk.injEq ..).mpr ⟨hR.1 ha.name hb.name, ha.tier.trans hb.tier.symm⟩
  · cases b; cases c
    exact (Nonterminal.mk.injEq ..).mpr ⟨hR.2 hb.name hc.name, hb.tier.symm.trans hc.tier⟩

theorem Parseme.biUnique_alike (hR : Relator.BiUnique R) : Relator.BiUnique (Parseme.Alike R) := by
  refine ⟨fun a b c ha hb => ?_, fun a b c hb hc => ?_⟩
  · cases ha <;> cases hb <;> try rfl
    · exact congrArg _ (hR.1 ‹_› ‹_›)
    · exact congrArg _ ((Nonterminal.biUnique_alike hR).1 ‹_› ‹_›)
  · cases hb <;> cases hc <;> try rfl
    · exact congrArg _ (hR.2 ‹_› ‹_›)
    · exact congrArg _ ((Nonterminal.biUnique_alike hR).2 ‹_› ‹_›)

theorem Slot.biUnique_alike (hR : Relator.BiUnique R) : Relator.BiUnique (Slot.Alike R) := by
  have hlists := (Parseme.biUnique_alike hR).forall₂
  refine ⟨fun a b c ha hb => ?_, fun a b c hb hc => ?_⟩
  · cases a; cases b
    exact (Slot.mk.injEq ..).mpr
      ⟨hlists.1 ha.alternatives hb.alternatives, ha.optional.trans hb.optional.symm⟩
  · cases b; cases c
    exact (Slot.mk.injEq ..).mpr
      ⟨hlists.2 hb.alternatives hc.alternatives, hb.optional.symm.trans hc.optional⟩

theorem Production.biUnique_alike (hR : Relator.BiUnique R) :
    Relator.BiUnique (Production.Alike R) := by
  have hresult := Nonterminal.biUnique_alike hR
  have hslots := (Slot.biUnique_alike hR).forall₂
  refine ⟨fun a b c ha hb => ?_, fun a b c hb hc => ?_⟩
  · cases a; cases b
    exact (Production.mk.injEq ..).mpr ⟨ha.variant.trans hb.variant.symm,
      hresult.1 ha.result hb.result, hslots.1 ha.slots hb.slots⟩
  · cases b; cases c
    exact (Production.mk.injEq ..).mpr ⟨hb.variant.symm.trans hc.variant,
      hresult.2 hb.result hc.result, hslots.2 hb.slots hc.slots⟩

/-! ### What is accepted -/

section Accepting

variable {wanted wanted' result result' : Nonterminal} {parseme parseme' : Parseme}
variable {slot slot' : Slot} {info info' : SiteInfo} {production production' : Production}

theorem Nonterminal.Alike.accepts_eq (hR : Relator.BiUnique R) (hwanted : wanted.Alike R wanted')
    (hresult : result.Alike R result') : wanted.accepts result = wanted'.accepts result' := by
  unfold Nonterminal.accepts
  rw [hwanted.tier, hresult.tier,
    decide_eq_decide.2 (Relator.rel_eq hR hwanted.name hresult.name)]

theorem Parseme.Alike.acceptsToken_eq (hR : Relator.BiUnique R) (h : parseme.Alike R parseme')
    (hinfo : info.Alike R info') : parseme.acceptsToken info = parseme'.acceptsToken info' := by
  obtain ⟨htext, htraits⟩ := hinfo
  cases h with
  | token hword =>
    unfold Parseme.acceptsToken
    dsimp only
    generalize info.text = text, info'.text = text' at htext
    cases htext with
    | none => rfl
    | some hother => simp only [Option.some.injEq, Relator.rel_eq hR hother hword]
  | digits | word | nameWord | sentenceEnd => simp only [Parseme.acceptsToken, htraits]
  | epsilon | nonterminal => rfl

theorem Parseme.Alike.acceptsMatch_eq (hR : Relator.BiUnique R) (h : parseme.Alike R parseme')
    (hresult : result.Alike R result') :
    parseme.acceptsMatch result = parseme'.acceptsMatch result' := by
  cases h with
  | nonterminal hwanted => exact hwanted.accepts_eq hR hresult
  | _ => rfl

theorem Parseme.Alike.wanted? (h : parseme.Alike R parseme') :
    Option.Rel (Nonterminal.Alike R) parseme.wanted? parseme'.wanted? := by
  cases h with
  | nonterminal hwanted => exact .some hwanted
  | _ => exact .none

namespace Slot.Alike

theorem acceptsToken_eq (hR : Relator.BiUnique R) (h : slot.Alike R slot')
    (hinfo : info.Alike R info') : slot.acceptsToken info = slot'.acceptsToken info' :=
  any_eq_of_forall₂ h.alternatives fun _ _ hparseme => hparseme.acceptsToken_eq hR hinfo

theorem acceptsMatch_eq (hR : Relator.BiUnique R) (h : slot.Alike R slot')
    (hresult : result.Alike R result') : slot.acceptsMatch result = slot'.acceptsMatch result' :=
  any_eq_of_forall₂ h.alternatives fun _ _ hparseme => hparseme.acceptsMatch_eq hR hresult

theorem needs (h : slot.Alike R slot') :
    List.Forall₂ (Nonterminal.Alike R) slot.needs slot'.needs :=
  List.rel_filterMap (fun _ _ hparseme => hparseme.wanted?) h.alternatives

end Slot.Alike

namespace Production.Alike

variable (h : production.Alike R production')
include h

theorem arity_eq : production.arity = production'.arity := h.slots.length_eq

theorem isPassage_eq : production.isPassage = production'.isPassage := by
  simp only [isPassage, h.variant]

theorem endsSentences_eq : production.endsSentences = production'.endsSentences := by
  simp only [endsSentences, h.variant]

theorem canReach_eq (filled : ℕ) {first first' last last' : SiteInfo} (hfirst : first.Alike R first')
    (hlast : last.Alike R last') :
    production.canReach filled first last = production'.canReach filled first' last' := by
  simp only [canReach, h.variant, h.arity_eq, hfirst.traits, hlast.traits]

theorem slot? (index : ℕ) :
    Option.Rel (Slot.Alike R) (production.slot? index) (production'.slot? index) :=
  rel_getElem? h.slots index

theorem epsilonPrefix_eq : production.epsilonPrefix = production'.epsilonPrefix := by
  unfold epsilonPrefix
  have hslots := h.slots
  generalize production.slots = slots, production'.slots = slots' at hslots
  induction hslots with
  | nil => rfl
  | cons hhead _ ih =>
    rw [List.takeWhile_cons, List.takeWhile_cons, hhead.optional]
    split_ifs
    · rw [List.length_cons, List.length_cons, ih]
    · rfl

theorem openingSlots :
    List.Forall₂ (Slot.Alike R) production.openingSlots production'.openingSlots := by
  unfold Production.openingSlots
  rw [h.epsilonPrefix_eq]
  exact List.forall₂_take _ h.slots

theorem leftCorners :
    List.Forall₂ (Nonterminal.Alike R) production.leftCorners production'.leftCorners :=
  List.rel_filterMap (fun _ _ hparseme => hparseme.wanted?)
    (List.rel_flatMap h.openingSlots fun _ _ hslot => hslot.alternatives)

/-- Both may open in the same slots. -/
theorem openingsWhere_eq {accepts accepts' : Slot → Bool}
    (haccepts : ∀ slot slot', slot.Alike R slot' → accepts slot = accepts' slot') :
    production.openingsWhere accepts = production'.openingsWhere accepts' := by
  unfold openingsWhere
  rw [h.openingSlots.length_eq]
  exact List.filter_congr fun index _ => any_eq_of_rel (rel_getElem? h.slots index) haccepts

end Production.Alike

end Accepting

/-! ### Grammars -/

namespace Grammar

open Relation

/-- Two grammars define productions that are spelled alike, under other numbers. -/
def Alike (R : Word → Word → Prop) (numbers : Equiv.Perm ProductionId) (grammar grammar' : Grammar) :
    Prop :=
  ∀ id, Option.Rel (Production.Alike R) (grammar.get? id) (grammar'.get? (numbers id))

namespace Alike

variable {numbers : Equiv.Perm ProductionId} {grammar grammar' : Grammar} {id other : ProductionId}
variable {wanted wanted' : Nonterminal} (h : Alike R numbers grammar grammar')
include h

/-- What is said of the production of a number is said of the other production. -/
theorem exists_iff {p q : Production → Prop}
    (hpq : ∀ production production', production.Alike R production' →
      (p production ↔ q production')) :
    (∃ production, grammar.get? id = some production ∧ p production) ↔
      ∃ production, grammar'.get? (numbers id) = some production ∧ q production := by
  have hid := h id
  generalize grammar.get? id = first, grammar'.get? (numbers id) = second at hid
  cases hid with
  | none => simp
  | some halike => simp [hpq _ _ halike]

variable (hR : Relator.BiUnique R)
include hR

theorem accepts_iff (hwanted : wanted.Alike R wanted') :
    grammar.Accepts wanted id ↔ grammar'.Accepts wanted' (numbers id) :=
  h.exists_iff fun production production' halike => by
    rw [hwanted.accepts_eq hR halike.result]

theorem leads_iff : grammar.Leads id other ↔ grammar'.Leads (numbers id) (numbers other) := by
  have hleads (grammar : Grammar) (id other : ProductionId) : grammar.Leads id other ↔
      ∃ production, grammar.get? id = some production ∧
        ∃ corner ∈ production.leftCorners, grammar.Accepts corner other := by
    simp only [Leads, exists_and_left]
  rw [hleads, hleads]
  exact h.exists_iff fun production production' halike =>
    exists_mem_iff_of_forall₂ halike.leftCorners fun _ _ hcorner => h.accepts_iff hR hcorner

theorem leads_star_iff : ReflTransGen grammar.Leads id other ↔
    ReflTransGen grammar'.Leads (numbers id) (numbers other) := by
  constructor
  · exact ReflTransGen.lift numbers (fun _ _ hleads => (h.leads_iff hR).1 hleads) id other
  · intro hleads
    have hback := ReflTransGen.lift (r := grammar'.Leads) (p := grammar.Leads) numbers.symm
      (fun a b hab => (h.leads_iff hR).2 (by simpa using hab)) _ _ hleads
    simpa [Function.onFun] using hback

theorem begins_iff (hwanted : wanted.Alike R wanted') :
    grammar.Begins wanted id ↔ grammar'.Begins wanted' (numbers id) :=
  numbers.exists_congr fun _ => and_congr (h.accepts_iff hR hwanted) (h.leads_star_iff hR)

theorem beginsSentence_iff : grammar.BeginsSentence id ↔ grammar'.BeginsSentence (numbers id) := by
  refine numbers.exists_congr fun first => h.exists_iff fun production production' halike => ?_
  rw [halike.endsSentences_eq, h.leads_star_iff hR]

end Alike

end Grammar

end LiveProse
