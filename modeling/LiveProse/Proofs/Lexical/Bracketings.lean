import LiveProse.Proofs.Lexical.Compositions

/-! Ways of putting effects together. All of them give what the classes do one after another, as long as
no comment is opened inside of 254 others; empty text in front never shows, and behind it shows in no
state. A comment opened at the last depth but one is where the ways part: there the rule of a composed
table is taken for one that leads on, and the next composition goes by it. -/

namespace LiveProse

open TokenClass

/-- A way of putting the effects of a row of classes together. -/
inductive Composition where
  | empty
  | single (kind : TokenClass)
  | andThen (first next : Composition)

namespace Composition

/-- The classes in their order. -/
def kinds : Composition → List TokenClass
  | empty => []
  | single kind => [kind]
  | andThen first next => first.kinds ++ next.kinds

/-- The effect, put together this way. -/
def effect : Composition → Effect
  | empty => .identity
  | single kind => kind.effect
  | andThen first next => first.effect.andThen next.effect

theorem tracks (composition : Composition) (h : brackets composition.kinds ≤ 32000) :
    composition.effect.Tracks composition.kinds := by
  induction composition with
  | empty => exact Effect.tracks_nil
  | single kind => exact Effect.tracks_single kind
  | andThen first next ih ih' =>
    have hboth := h
    rw [kinds, brackets_append] at hboth
    exact (ih (by omega)).andThen (ih' (by omega)) h

theorem delta_effect (composition : Composition) (h : brackets composition.kinds ≤ 32000)
    (slot : Fin Superstate.commentableCount) :
    (composition.effect.comments.get slot).delta.toInt = surplus composition.kinds :=
  ((composition.tracks h).follows _ slot (Superstate.commentSlot?_getElem slot)).delta

theorem reaches_single (kind : TokenClass) (slot : Fin Superstate.commentableCount) :
    (kind.effect.comments.get slot).Reaches := by
  obtain ⟨hexplicit, -, hdelta⟩ := comments_effect kind slot
  rw [CommentImages.Reaches, hexplicit, hdelta, List.length_nil]
  rcases kind.rise_cases with ⟨-, hrise⟩ | hrise | hrise <;> rw [hrise] <;> decide

/-- Where no stretch of a row closes more than 256 comments that it does not open, no table of the
composed effect is shorter than its rule stays below zero. -/
theorem reaches (composition : Composition) (h : brackets composition.kinds ≤ 32000)
    (hclosed : ∀ stretch, stretch <:+: composition.kinds → -256 ≤ surplus stretch)
    (slot : Fin Superstate.commentableCount) : (composition.effect.comments.get slot).Reaches := by
  induction composition generalizing slot with
  | empty => exact reaches_single .plainText slot
  | single kind => exact reaches_single kind slot
  | andThen first next _ ih =>
    have hboth := h
    rw [kinds, brackets_append] at hboth
    refine (first.tracks (by omega)).reaches_andThen (next.tracks (by omega)) h
      (hclosed _ (List.infix_refl _)) (fun slot => ?_) slot
    exact ih (by omega) (fun stretch hstretch => hclosed stretch
      (hstretch.trans (List.suffix_append _ _).isInfix)) slot

end Composition

namespace TokenEffect

/-- Composing with a plain token in front is skipped. -/
theorem plain_andThen (effect : TokenEffect) : (single .plainText).andThen effect = effect := by
  unfold andThen
  split_ifs with hplain hself
  · exact hplain.symm
  · rfl
  · exact absurd rfl hself

/-- Composing with a plain token behind is skipped. -/
theorem andThen_plain (effect : TokenEffect) : effect.andThen (single .plainText) = effect :=
  if_pos rfl

end TokenEffect

/-- The effect of at most 32000 classes, put together in any way, takes every valid state where the
classes take it one after another, as long as no comment is opened inside of 254 others. Valid states
lead to valid states only. Empty text in front of the row changes no table, and empty text behind it
changes no image, and no table either if no stretch of the row closes more than 256 comments that it does
not open; so skipping plain tokens is composing with them. -/
theorem composition_runs (composition : Composition) (hlength : composition.kinds.length ≤ 32000) :
    (∀ state : LexicalState, state.IsValid → OpensBelow 254 state composition.kinds →
      composition.effect.apply state = run state composition.kinds) ∧
    (∀ state : LexicalState, state.IsValid → (composition.effect.apply state).IsValid ∧
      ∀ front, front <+: composition.kinds → (run state front).IsValid) ∧
    Effect.identity.andThen composition.effect = composition.effect ∧
    (∀ state : LexicalState, state.IsValid →
      (composition.effect.andThen .identity).apply state = composition.effect.apply state) ∧
    (∀ effect : TokenEffect, effect.toEffect = composition.effect →
      ((TokenEffect.single .plainText).andThen effect).toEffect =
        (TokenEffect.single .plainText).toEffect.andThen effect.toEffect) ∧
    ((∀ stretch, stretch <:+: composition.kinds →
        stretch.count .rightBracket ≤ stretch.count .leftBracket + 256) →
      composition.effect.andThen .identity = composition.effect ∧
      ∀ effect : TokenEffect, effect.toEffect = composition.effect →
        (effect.andThen (.single .plainText)).toEffect =
          effect.toEffect.andThen (TokenEffect.single .plainText).toEffect) := by
  have hbrackets : brackets composition.kinds ≤ 32000 :=
    (brackets_le_length composition.kinds).trans hlength
  have htracks := composition.tracks hbrackets
  have hregular := htracks.toRegular
  have hdelta (slot : Fin Superstate.commentableCount) :
      (composition.effect.comments.get slot).delta.toInt.natAbs ≤ 32000 := by
    rw [composition.delta_effect hbrackets slot]
    exact (natAbs_surplus_le composition.kinds).trans hbrackets
  refine ⟨fun state hvalid hopens => htracks.apply_eq hvalid hopens,
    fun state hvalid => ⟨hregular.isValid_apply hvalid, fun front _ => isValid_run hvalid front⟩,
    Effect.identity_andThen hregular,
    fun state hvalid => Effect.apply_andThen_identity hregular hdelta hvalid,
    fun effect heffect => ?_, fun hclosed => ?_⟩
  · rw [TokenEffect.plain_andThen, heffect]
    exact (Effect.identity_andThen hregular).symm
  · have hidentity : composition.effect.andThen .identity = composition.effect := by
      refine Effect.andThen_identity hregular (composition.reaches hbrackets ?_) hdelta
      intro stretch hstretch
      have := hclosed stretch hstretch
      rw [surplus_eq]
      omega
    refine ⟨hidentity, fun effect heffect => ?_⟩
    rw [TokenEffect.andThen_plain, heffect]
    exact hidentity.symm

/-- A bracket that closes a comment, and the end of the embedded prose that the comment was in. -/
def closeThenLeave : Composition := .andThen (.single .rightBracket) (.single .rightCrosseyedCyclops)

/-- Closed and left, embedded prose leads back to the inclusion around it. -/
theorem composition_runs_closeThenLeave :
    LexicalState.IsValid ⟨.embedded false false false .plain, 1⟩ ∧
      OpensBelow 254 ⟨.embedded false false false .plain, 1⟩ closeThenLeave.kinds ∧
      closeThenLeave.effect.apply ⟨.embedded false false false .plain, 1⟩ =
        ⟨.inclusion false false .plain, 0⟩ ∧
      closeThenLeave.effect.andThen .identity = closeThenLeave.effect := by
  obtain ⟨hruns, -, -, -, -, hbehind⟩ := composition_runs closeThenLeave (by decide)
  have hvalid : LexicalState.IsValid ⟨.embedded false false false .plain, 1⟩ := fun _ => rfl
  have hopens : OpensBelow 254 ⟨.embedded false false false .plain, 1⟩ closeThenLeave.kinds := by
    decide +kernel
  refine ⟨hvalid, hopens, (hruns _ hvalid hopens).trans (by decide +kernel), (hbehind ?_).1⟩
  intro stretch hstretch
  calc stretch.count .rightBracket
    _ ≤ stretch.length := List.count_le_length
    _ ≤ 2 := hstretch.length_le
    _ ≤ stretch.count .leftBracket + 256 := by omega

/-- A comment is closed, a string with a substitution comes and goes, and 255 comments are opened, the
last one of which is closed again. -/
def overshooting : List TokenClass :=
  [.rightBracket, .doubleQuote, .leftBracket, .doubleQuote] ++ List.replicate 255 .leftBracket ++
    [.rightBracket]

set_option maxRecDepth 20000 in
/-- No comment is opened inside of 255 others, and yet the composed effect does not close the last one. -/
theorem chain_overshooting :
    LexicalState.IsValid ⟨.prose false .plain, 1⟩ ∧ OpensBelow 255 ⟨.prose false .plain, 1⟩ overshooting ∧
      run ⟨.prose false .plain, 1⟩ overshooting = ⟨.prose false .plain, 254⟩ ∧
      (Effect.chain (overshooting.map (·.effect))).apply ⟨.prose false .plain, 1⟩ =
        ⟨.prose false .plain, 255⟩ :=
  ⟨fun _ => rfl, by decide +kernel, by decide +kernel, by decide +kernel⟩

end LiveProse
