import LiveProse.Proofs.Lexical.Compositions
import LiveProse.Proofs.Sequence.Positions

/-! Sums of effects as walks. A sum over tokens composes their effects in whatever way the tree of the
sequence puts them together, so it takes a state where one token after another takes it, as long as no
comment is opened inside of 254 others. -/

namespace LiveProse

open TokenClass

/-- A token with the effect of one class. -/
def Token.IsSingle (token : Token) : Prop := ∃ kind, token.effect = .single kind

/-- The class of a token. A sum has none. -/
def Token.kind? (token : Token) : Option TokenClass :=
  match token.effect with
  | .single kind => some kind
  | .composed _ => none

namespace TokenSequence

/-- The state that a row of tokens leads to, one effect after another. -/
def walk (before : LexicalState) (tokens : List Token) : LexicalState :=
  tokens.foldl (fun state token => token.stateAfter state) before

/-- The classes of a row of tokens. -/
def kinds (tokens : List Token) : List TokenClass := tokens.filterMap Token.kind?

variable {before : LexicalState} {tokens more : List Token}

theorem walk_append (before : LexicalState) (tokens more : List Token) :
    walk before (tokens ++ more) = walk (walk before tokens) more :=
  List.foldl_append

theorem kinds_append (tokens more : List Token) : kinds (tokens ++ more) = kinds tokens ++ kinds more :=
  List.filterMap_append

/-- Single tokens lead where their classes lead. -/
theorem walk_eq_run (hsingle : ∀ token ∈ tokens, token.IsSingle) :
    walk before tokens = run before (kinds tokens) := by
  induction tokens generalizing before with
  | nil => rfl
  | cons token tokens ih =>
    obtain ⟨kind, hkind⟩ := hsingle token List.mem_cons_self
    have hkinds : kinds (token :: tokens) = kind :: kinds tokens :=
      List.filterMap_cons_some (by rw [Token.kind?, hkind])
    rw [hkinds, run_cons, walk, List.foldl_cons, Token.stateAfter, hkind]
    exact ih fun other hother => hsingle other (List.mem_cons_of_mem _ hother)

/-- The depths of comments in a row of tokens can be counted: no comment is opened inside of 254 others,
and there are fewer than 32000 square brackets. -/
structure InRange (tokens : List Token) : Prop where
  opens : OpensBelow 254 .initial (kinds tokens)
  brackets : brackets (kinds tokens) < 32000

instance (tokens : List Token) : Decidable (InRange tokens) :=
  decidable_of_iff (OpensBelow 254 .initial (kinds tokens) ∧ brackets (kinds tokens) < 32000)
    ⟨fun h => ⟨h.1, h.2⟩, fun h => ⟨h.opens, h.brackets⟩⟩

theorem InRange.take (h : InRange tokens) (rank : ℕ) : InRange (tokens.take rank) := by
  obtain ⟨hopens, hbrackets⟩ := h
  rw [← List.take_append_drop rank tokens, kinds_append] at hopens hbrackets
  rw [brackets_append] at hbrackets
  exact ⟨(opensBelow_append.1 hopens).1, by omega⟩

end TokenSequence

open TokenSequence

/-! ### Sums -/

namespace Effect

variable {first next : Effect} {front back : List TokenClass}

/-- An effect of a row is one of any other row that runs alike. -/
theorem Tracks.of_runs (h : first.Tracks front) (hsurplus : surplus back = surplus front)
    (hruns : ∀ state : LexicalState, state.IsValid → OpensBelow 254 state back →
      OpensBelow 254 state front ∧ run state back = run state front) : first.Tracks back := by
  refine ⟨h.toRegular, fun s hopens => ?_, fun s slot hslot => ?_⟩
  · obtain ⟨hfront, hsame⟩ := hruns _ (LexicalState.isValid_zero s) hopens
    rw [hsame]
    exact h.zero s hfront
  · have hfollows := h.follows s slot hslot
    have hruns (depth : UInt8) := hruns ⟨s, depth⟩
      (LexicalState.isValid_iff.2 fun _ => Option.isSome_iff_exists.2 ⟨slot, hslot⟩)
    refine ⟨by rw [hsurplus, hfollows.delta], fun depth hdepth hopens => ?_,
      fun depth hbeyond hopens => ?_⟩
    · obtain ⟨hfront, hsame⟩ := hruns depth hopens
      rw [hsame]
      exact hfollows.image depth hdepth hfront
    · rw [hsurplus]
      exact hfollows.tail depth hbeyond (hruns depth hopens).1

/-- Classes that do together what empty text does leave valid states where they are. -/
theorem Tracks.stays (hplain : identity.Tracks front) : surplus front = 0 ∧
    ∀ state : LexicalState, state.IsValid → OpensBelow 254 state front → run state front = state := by
  have hslot : Superstate.commentSlot? (.prose false .plain) = some 0 := rfl
  have hdelta := (hplain.follows _ 0 hslot).delta
  rw [comments_identity hslot] at hdelta
  refine ⟨hdelta.symm, fun state hvalid hopens => ?_⟩
  rw [← hplain.apply_eq hvalid hopens, apply_identity hvalid]

theorem Tracks.append_plain (h : first.Tracks front) (hplain : identity.Tracks back) :
    first.Tracks (front ++ back) := by
  obtain ⟨hsurplus, hstays⟩ := hplain.stays
  refine h.of_runs (by rw [surplus_append, hsurplus, add_zero]) fun state hvalid hopens => ?_
  obtain ⟨hfront, hback⟩ := opensBelow_append.1 hopens
  exact ⟨hfront, (run_append state front back).trans (hstays _ (isValid_run hvalid front) hback)⟩

theorem Tracks.plain_append (hplain : identity.Tracks front) (h : next.Tracks back) :
    next.Tracks (front ++ back) := by
  obtain ⟨hsurplus, hstays⟩ := hplain.stays
  refine h.of_runs (by rw [surplus_append, hsurplus, zero_add]) fun state hvalid hopens => ?_
  obtain ⟨hfront, hback⟩ := opensBelow_append.1 hopens
  rw [run_append, hstays state hvalid hfront]
  exact ⟨hstays state hvalid hfront ▸ hback, rfl⟩

end Effect

theorem TokenEffect.tracks_andThen {a b : TokenEffect} {front back : List TokenClass}
    (h : a.toEffect.Tracks front) (h' : b.toEffect.Tracks back)
    (hbrackets : brackets (front ++ back) ≤ 32000) : (a.andThen b).toEffect.Tracks (front ++ back) := by
  unfold TokenEffect.andThen
  split_ifs with hb ha
  · subst hb
    exact h.append_plain h'
  · subst ha
    exact h.plain_append h'
  · exact h.andThen h' hbrackets

/-- A sum of single tokens tracks their classes, if there are not too many brackets among them. -/
def Token.effectSummary : Summary Token where
  Holds sum tokens := (∀ token ∈ tokens, token.IsSingle) → brackets (kinds tokens) ≤ 32000 →
    sum.effect.toEffect.Tracks (kinds tokens)
  neutral _ _ := Effect.tracks_nil
  single value h _ := by
    obtain ⟨kind, hkind⟩ := h value List.mem_cons_self
    have hkinds : kinds [value] = [kind] := List.filterMap_cons_some (by rw [Token.kind?, hkind])
    rw [hkinds, hkind]
    exact Effect.tracks_single kind
  combine h h' hsingle hbrackets := by
    rw [kinds_append] at hbrackets ⊢
    have hboth := hbrackets
    rw [brackets_append] at hboth
    exact TokenEffect.tracks_andThen
      (h (fun token htoken => hsingle token (List.mem_append_left _ htoken)) (by omega))
      (h' (fun token htoken => hsingle token (List.mem_append_right _ htoken)) (by omega)) hbrackets
  insert _ h := Bool.noConfusion h

namespace TokenSequence

/-- The state at a position is the one that the tokens before it lead to. -/
theorem stateBefore_nth {tokens : TokenSequence} (h : tokens.Sound Token.effectSummary) {rank : ℕ}
    (hsingle : ∀ token ∈ tokens.toList.take rank, token.IsSingle)
    (hrank : rank ≤ tokens.entries.length) (hrange : InRange (tokens.toList.take rank)) :
    stateBefore tokens (tokens.nth rank) = walk .initial (tokens.toList.take rank) := by
  rw [walk_eq_run hsingle, stateBefore, Token.stateAfter]
  exact (h.sumBefore hrank hsingle hrange.brackets.le).apply_eq LexicalState.isValid_initial hrange.opens

end TokenSequence

end LiveProse
