import LiveProse.Proofs.Lexical.Walks
import LiveProse.Proofs.Sequence.Listings

/-!
States at positions of token sequences. The state before a position is read off the cached sums of the
tree, and everything that goes through the tokens in order takes one effect after another instead. As
long as no comment is opened inside of 254 others, both come to the same state, so the state does not
depend on the tree or on the edits that led to it.
-/

namespace LiveProse

/-- The elements before a position. -/
def Listing.before {α : Type} (listing : Listing α) (cursor : Cursor) : List α :=
  (listing.map (·.2)).take (listing.place cursor)

namespace TokenSequence

variable {tokens : TokenSequence} {listing : Listing Token} {cursor : Cursor}

/-- The states beside a token are those that the tokens before it and up to it lead to. -/
theorem getElem?_withStates (before : LexicalState) (row : List Token) (rank : ℕ) :
    (withStates before row)[rank]? = row[rank]?.map fun token =>
      (token, walk before (row.take rank), walk before (row.take (rank + 1))) := by
  induction row generalizing before rank with
  | nil => rfl
  | cons token rest ih =>
    cases rank with
    | zero => rfl
    | succ rank => exact ih (token.stateAfter before) rank

/-- Whatever edits led to a sequence, the state before a position is the one that the tokens before it
lead to, one after another. -/
theorem stateBefore_history (h : History tokens listing) (hlive : listing.Live cursor)
    (hsingle : ∀ token ∈ listing.before cursor, token.IsSingle)
    (hrange : InRange (listing.before cursor)) :
    stateBefore tokens cursor = walk .initial (listing.before cursor) := by
  obtain ⟨hsound, rfl⟩ := h.sound Token.effectSummary
  conv_lhs => rw [← hsound.nth_place hlive]
  exact stateBefore_nth hsound hsingle (Listing.place_le _ _) hrange

/-- The state before a position is the same in every sequence with the same tokens before it, and it is
the one that going through the tokens in order finds there. -/
theorem stateBefore_walks (h : History tokens listing) (hlive : listing.Live cursor)
    (hsingle : ∀ token ∈ listing.before cursor, token.IsSingle)
    (hrange : InRange (listing.before cursor)) :
    stateBefore tokens cursor = walk .initial (listing.before cursor) ∧
      (∀ token old new, (withStates .initial tokens.toList)[tokens.rank cursor]? = some (token, old, new) →
        stateBefore tokens cursor = old ∧ token.stateAfter (stateBefore tokens cursor) = new) ∧
      ∀ tokens' listing' cursor', History tokens' listing' → listing'.Live cursor' →
        listing'.before cursor' = listing.before cursor →
          stateBefore tokens' cursor' = stateBefore tokens cursor := by
  have hwalk := stateBefore_history h hlive hsingle hrange
  refine ⟨hwalk, fun token old new hentry => ?_, fun tokens' listing' cursor' h' hlive' hsame => ?_⟩
  · obtain ⟨hsound, rfl⟩ := h.sound Token.effectSummary
    rw [getElem?_withStates, hsound.rank_place hlive, Option.map_eq_some_iff] at hentry
    obtain ⟨other, hother, heq⟩ := hentry
    obtain ⟨rfl, hstates⟩ := Prod.mk.inj heq
    obtain ⟨hold, hnew⟩ := Prod.mk.inj hstates
    rw [hwalk, ← hnew, List.take_add_one, hother, walk_append]
    exact ⟨hold, rfl⟩
  · rw [hwalk, stateBefore_history h' hlive' (hsame ▸ hsingle) (hsame ▸ hrange), hsame]

/-! ### Rows put in one after another -/

/-- A token of one codepoint that is not a space. -/
def mark (kind : TokenClass) : Token := ⟨1, 0, none, false, .single kind⟩

/-- The tokens of a row, each put in after those before it. -/
def ofRow (row : List Token) : TokenSequence :=
  row.foldl (fun tokens token => (tokens.insert none token).1) Sequence.empty

theorem exists_history_ofRow (row : List Token) :
    ∃ listing, History (ofRow row) listing ∧ listing.map (·.2) = row := by
  induction row using List.reverseRecOn with
  | nil => exact ⟨[], .empty, rfl⟩
  | append_singleton row token ih =>
    obtain ⟨listing, h, hrow⟩ := ih
    have hrest : ofRow (row ++ [token]) = ((ofRow row).insert none token).1 := by
      rw [ofRow, List.foldl_append]
      rfl
    have hlast : (listing.insertIdx listing.length (((ofRow row).insert none token).2, token)).map
        (·.2) = row ++ [token] := by
      rw [List.insertIdx_length_self, List.map_append, hrow]
      rfl
    exact ⟨_, hrest ▸ h.insert none token listing.live_none, hlast⟩

theorem stateBefore_walks_ofRow :
    stateBefore (ofRow [mark .leftBracket, mark .plainText]) none = ⟨.prose false .plain, 1⟩ := by
  obtain ⟨listing, h, hrow⟩ := exists_history_ofRow [mark .leftBracket, mark .plainText]
  have hbefore : listing.before none = [mark .leftBracket, mark .plainText] := by
    rw [Listing.before, Listing.place, ← listing.length_map (·.2), List.take_length, hrow]
  have hsingle : ∀ token ∈ listing.before none, token.IsSingle := by
    rw [hbefore]
    simp [Token.IsSingle, mark]
  have hrange : InRange (listing.before none) := by
    rw [hbefore]
    decide
  rw [(stateBefore_walks h listing.live_none hsingle hrange).1, hbefore]
  decide +kernel

/-- 257 comments one inside of another, two of which are closed again before four plain tokens. -/
def nested : List Token :=
  List.replicate 257 (mark .leftBracket) ++ List.replicate 2 (mark .rightBracket) ++
    List.replicate 4 (mark .plainText)

set_option maxRecDepth 20000 in
/-- The tokens lead no deeper than the depth can be counted, and the sum does not stop there. -/
theorem stateBefore_nested :
    (∃ listing, History (ofRow nested) listing ∧ listing.map (·.2) = nested) ∧
      stateBefore (ofRow nested) none = ⟨.prose false .plain, 254⟩ ∧
      walk .initial nested = ⟨.prose false .plain, 253⟩ :=
  ⟨exists_history_ofRow nested, by decide +kernel, by decide +kernel⟩

end TokenSequence

end LiveProse
