import LiveProse.Proofs.Lexical.Bracketings
import LiveProse.Proofs.Lexical.Walks
import LiveProse.Proofs.Sequence.Listings

/-! The numbers of composed effects. The rule of a table changes depths by a number of sixteen bits, and
composing adds and subtracts such numbers as they are; only a depth is cut off where it is looked up. The
number says how many more comments a row opens than it closes, which has no bound. However the effects of
a row are put together, the numbers fit just if no stretch of it goes too far, and 2 ^ 15 left brackets
do. -/

namespace LiveProse

open TokenClass

namespace Effect

variable {first next : Effect} {s : Superstate} {own images : CommentImages}

/-- The numbers computed to compose two tables fit into sixteen bits: the sum of the rules, the depths
from which both rules apply, and what trimming compares with zero, from the deepest image down to the
one that it keeps. -/
structure Fits (first next : Effect) (s : Superstate) (own images : CommentImages) : Prop where
  delta : Fits16 (own.delta.toInt + images.delta.toInt)
  beyond : Fits16 (images.explicit.length - own.delta.toInt)
  closing : Fits16 (-own.delta.toInt)
  trimming : ∀ depth : ℕ, 0 < depth → depth ≤ reach own images →
    (first.composeComments next s own).explicit.length ≤ depth →
      Fits16 (depth + (own.delta + images.delta).toInt)

end Effect

/-- No stretch of a row opens 2 ^ 15 comments more than it closes, or the other way round. -/
def Moderate (kinds : List TokenClass) : Prop :=
  ∀ stretch, stretch <:+: kinds → (surplus stretch).natAbs < 2 ^ 15

variable {kinds front back : List TokenClass}

theorem Moderate.append (h : Moderate (front ++ back)) : Moderate front ∧ Moderate back :=
  ⟨fun stretch hstretch => h stretch (hstretch.trans (List.prefix_append _ _).isInfix),
    fun stretch hstretch => h stretch (hstretch.trans (List.suffix_append _ _).isInfix)⟩

namespace Effect

variable {first next : Effect} {own images : CommentImages}

end Effect

namespace Composition

/-- No number is cut off while the effects are put together this way. -/
def Fits : Composition → Prop
  | empty | single _ => True
  | andThen first next => first.Fits ∧ next.Fits ∧ ∀ slot : Fin Superstate.commentableCount,
      ∃ slot', (first.effect.comments.get slot).target.commentSlot? = some slot' ∧
        first.effect.Fits next.effect (Superstate.commentableTable.get slot)
          (first.effect.comments.get slot) (next.effect.comments.get slot')

theorem regular (composition : Composition) : composition.effect.Regular := by
  induction composition with
  | empty => exact Effect.regular_identity
  | single kind => exact Effect.regular_effect kind
  | andThen first next ih ih' => exact ih.andThen ih'

/-- The classes one after another. -/
def ofRow (kinds : List TokenClass) : Composition :=
  kinds.foldr (fun kind rest => .andThen (.single kind) rest) .empty

end Composition

/-! ### Sums of tokens -/

/-- The effect is that of a row of classes, put together in some way. -/
def TokenEffect.Composed (kinds : List TokenClass) : TokenEffect → Prop
  | single kind => kinds = [kind].filter (· ≠ .plainText)
  | composed effect => ∃ composition : Composition, composition.kinds = kinds ∧
      composition.effect = effect

namespace TokenEffect

variable {first next : TokenEffect}

theorem Composed.exists (h : first.Composed kinds) :
    ∃ composition : Composition, composition.kinds = kinds ∧ composition.effect = first.toEffect := by
  cases first with
  | single kind =>
    obtain rfl : kinds = [kind].filter (· ≠ .plainText) := h
    by_cases hkind : kind = .plainText
    · subst hkind
      exact ⟨.empty, rfl, rfl⟩
    · exact ⟨.single kind, by simp [Composition.kinds, hkind], rfl⟩
  | composed effect => exact h

/-- Plain tokens have no part in a composition. -/
theorem Composed.andThen (h : first.Composed front) (h' : next.Composed back) :
    (first.andThen next).Composed (front ++ back) := by
  unfold TokenEffect.andThen
  split_ifs with hnext hfirst
  · subst hnext
    obtain rfl : back = [] := h'
    rwa [List.append_nil]
  · subst hfirst
    obtain rfl : front = [] := h
    exact h'
  · obtain ⟨composition, rfl, heffect⟩ := h.exists
    obtain ⟨composition', rfl, heffect'⟩ := h'.exists
    exact ⟨.andThen composition composition', rfl, by rw [Composition.effect, heffect, heffect']⟩

end TokenEffect

namespace Composition

end Composition

end LiveProse
