import LiveProse.Proofs.Lexical.Contents
import LiveProse.Proofs.Relex.Bounds
import LiveProse.Proofs.Relex.Rows

/-! The text of a sequence of tokens under edits. The tokens that make way and those that come are worked out
from texts, so whatever the edit is, what the tokens spell out afterwards is the text with the edit spliced in
(`Worded.apply`). Tokens may be empty here, since a terminator can end one that has not begun. -/

namespace LiveProse

open Codepoint

namespace Relex

variable {lexer : Lexer} {texts : List Text} {cut : Cut}

/-- Going on through old tokens, the lexer spells out what it had and the tokens that it took whole. -/
theorem flatten_lexOn (htidy : lexer.Tidy) (htexts : ∀ c ∈ texts.flatten, c ≠ terminator) :
    ((lexOn lexer texts).1.flushed.toList.map (·.text)).flatten =
      lexer.spelled ++ (texts.take (lexOn lexer texts).2).flatten := by
  induction texts generalizing lexer with
  | nil => simpa [lexOn] using Lexer.flatten_push_terminator htidy
  | cons text rest ih =>
    cases text with
    | nil => simpa [lexOn] using Lexer.flatten_push_terminator htidy
    | cons c text =>
      obtain ⟨hc, hrest⟩ := List.forall_mem_cons.1 htexts
      obtain ⟨htext, hrest⟩ := List.forall_mem_append.1 hrest
      rw [lexOn]
      dsimp only
      split_ifs with hbegan
      · simpa using Lexer.flatten_of_beganToken htidy hc hbegan
      · have hpush := Lexer.takes_push htidy c
        obtain ⟨hdone, hspelled⟩ := Lexer.spelled_pushAll hpush.tidy text
        rw [ih hdone hrest, hspelled, hpush.spelled, Text.plain_singleton hc, Text.plain_of_ne htext]
        simp

/-- An edit of a text without terminators may bring some in. -/
theorem plain_splice {text : Text} (htext : ∀ c ∈ text, c ≠ terminator) (lo hi : Nat) (inserted : Text) :
    Text.plain (Edit.splice ⟨lo, hi, inserted⟩ text) = text.take lo ++ inserted.plain ++ text.drop hi := by
  simp only [Edit.splice, Text.plain_append]
  rw [Text.plain_of_ne fun c hc => htext c (List.mem_of_mem_take hc),
    Text.plain_of_ne fun c hc => htext c (List.mem_of_mem_drop hc)]

/-- What is kept in front, what is lexed again and what is kept behind make up the text that the cut asks
for, but for the terminators in it. -/
theorem flatten_region (hfirst : cut.first ≤ cut.resume)
    (htexts : ∀ c ∈ texts.flatten, c ≠ terminator) :
    let done := region texts cut
    (texts.take done.start).flatten ++ (done.lexemes.map (·.text)).flatten ++
        (texts.drop (done.start + done.replaced)).flatten =
      Text.plain ((texts.take cut.first).flatten ++ cut.behind texts) := by
  intro done
  have hstart : done.start ≤ cut.first := region_start_le texts cut
  have hplain {part : List Text} (hpart : part.Sublist texts) : Text.plain part.flatten = part.flatten :=
    Text.plain_of_ne fun c hc => htexts c (hpart.flatten.subset hc)
  obtain ⟨htidy, hspelled⟩ := Lexer.spelled_pushAll (show Lexer.Tidy {} from rfl)
    (((texts.take cut.first).drop done.start).flatten ++ cut.middle)
  have hlexemes := flatten_lexOn htidy (show ∀ c ∈ (texts.drop cut.resume).flatten, c ≠ terminator from
    fun c hc => htexts c ((List.drop_sublist _ _).flatten.subset hc))
  rw [hspelled] at hlexemes
  generalize hlexer : lexOn _ (texts.drop cut.resume) = lexed at hlexemes
  have hdone : done = ⟨done.start, cut.resume + lexed.2 - done.start, lexed.1.flushed.toList⟩ := by
    rw [← hlexer]
    rfl
  have hfront : (texts.take cut.first).flatten =
      (texts.take done.start).flatten ++ ((texts.take cut.first).drop done.start).flatten := by
    rw [← List.flatten_append, ← Nat.min_eq_left hstart, ← List.take_take, Nat.min_eq_left hstart,
      List.take_append_drop]
  have hback : (texts.drop cut.resume).flatten =
      ((texts.drop cut.resume).take lexed.2).flatten ++ (texts.drop (cut.resume + lexed.2)).flatten := by
    rw [← List.flatten_append, ← List.drop_drop, List.take_append_drop]
  rw [hdone]
  dsimp only
  rw [hlexemes, Nat.add_sub_cancel' (by omega), Cut.behind, hfront, hback]
  simp only [Text.plain_append]
  rw [hplain (List.take_sublist _ _), hplain ((List.drop_sublist _ _).trans (List.take_sublist _ _)),
    hplain ((List.take_sublist _ _).trans (List.drop_sublist _ _)), hplain (List.drop_sublist _ _)]
  simp [Lexer.spelled]

end Relex

namespace RelexPlan.Rows

open TokenSequence

variable {plan : RelexPlan} {tokens after : TokenSequence} {vocabulary grown : Vocabulary}
variable {outcome : RelexOutcome} {front doomed inserted kept : List (Handle × Token)}

/-- The tokens that stay keep their texts, and those that come have the texts of the lexemes. -/
theorem spellings_after
    (R : plan.Rows tokens vocabulary after grown outcome front doomed inserted kept) :
    spellings after grown = (spellings tokens grown).take front.length ++
      (plan.lexemes.map (·.text) ++ (spellings tokens grown).drop (front.length + plan.replaced)) := by
  have hinserted : (inserted.map (·.2)).map (·.spelling grown) = plan.lexemes.map (·.text) :=
    Token.Spells.map_eq R.spells fun _ _ hspells => hspells.spelling_eq
  rw [← hinserted, ← R.length_doomed, ← List.length_append]
  simp only [spellings, Sequence.toList, R.entries, R.entries_after, List.map_map, ← List.map_take,
    ← List.map_drop]
  rw [List.take_left, ← List.append_assoc front doomed kept, List.drop_left]
  simp

theorem mem_after (R : plan.Rows tokens vocabulary after grown outcome front doomed inserted kept)
    {token : Token} (htoken : token ∈ after.toList) :
    token ∈ tokens.toList ∨ ∃ lexeme, Token.Spells grown token lexeme := by
  rw [toList_eq R.entries_after, List.map_append, List.mem_append, List.mem_append] at htoken
  rw [toList_eq R.entries, List.map_append, List.mem_append, List.mem_append]
  rcases htoken with hmem | hmem | hmem
  · exact .inl (.inl hmem)
  · obtain ⟨index, hindex, rfl⟩ := List.mem_iff_getElem.1 hmem
    exact .inr ⟨_, R.spells.get hindex (R.spells.length_eq ▸ hindex)⟩
  · exact .inl (.inr (.inr hmem))

end RelexPlan.Rows

namespace TokenSequence

variable {tokens after : TokenSequence} {vocabulary grown : Vocabulary}

/-- Every token was made of a lexeme, and none holds a terminator. -/
structure Worded (tokens : TokenSequence) (vocabulary : Vocabulary) : Prop where
  sound : ∀ S, tokens.Sound S
  spells : ∀ token ∈ tokens.toList, ∃ lexeme, Token.Spells vocabulary token lexeme
  plain : ∀ c ∈ text tokens vocabulary, c ≠ terminator

namespace Worded

theorem empty (vocabulary : Vocabulary) : Worded Sequence.empty vocabulary :=
  ⟨fun _ => .empty, nofun, nofun⟩

theorem lengths_eq (h : tokens.Worded vocabulary) :
    (spellings tokens vocabulary).map List.length = lengths tokens := by
  rw [spellings, List.map_map]
  refine List.map_congr_left fun token htoken => ?_
  obtain ⟨lexeme, hspells⟩ := h.spells token htoken
  rw [Function.comp_apply, hspells.spelling_eq, hspells.codepoints_eq]

theorem total_eq (h : tokens.Worded vocabulary) :
    tokens.total.codepoints = (text tokens vocabulary).length := by
  have htotal : tokens.total.codepoints = (lengths tokens).sum :=
    (h.sound Token.codepointSummary).total
  rw [htotal, text, List.length_flatten, h.lengths_eq]

/-- Tokens keep their texts as the vocabulary grows. -/
theorem spellings_mono (h : tokens.Worded vocabulary) (hgrows : vocabulary.texts <+: grown.texts) :
    spellings tokens grown = spellings tokens vocabulary := by
  refine List.map_congr_left fun token htoken => ?_
  obtain ⟨lexeme, hspells⟩ := h.spells token htoken
  rw [hspells.spelling_eq, (hspells.mono hgrows).spelling_eq]

theorem mono (h : tokens.Worded vocabulary) (hgrows : vocabulary.texts <+: grown.texts) :
    tokens.Worded grown := by
  refine ⟨h.sound, fun token htoken => ?_, ?_⟩
  · obtain ⟨lexeme, hspells⟩ := h.spells token htoken
    exact ⟨lexeme, hspells.mono hgrows⟩
  · rw [text, h.spellings_mono hgrows]
    exact h.plain

/-- The cut of an edit that fits, put together, is the text with the edit spliced in. -/
theorem cut_spliced (h : tokens.Worded vocabulary) {edit : Edit} (hlo : edit.lo ≤ edit.hi)
    (hhi : edit.hi ≤ (text tokens vocabulary).length) :
    let cut := Relex.cut tokens vocabulary edit
    ((spellings tokens vocabulary).take cut.first).flatten ++ cut.behind (spellings tokens vocabulary) =
      edit.splice (text tokens vocabulary) := by
  have hsum : edit.hi ≤ (lengths tokens).sum := by
    rwa [← h.lengths_eq, ← List.length_flatten]
  rw [Relex.cut_eq_cutOf (h.sound _) h.lengths_eq hsum hlo]
  exact Relex.cutOf_spliced _ hlo hhi

/-- Carrying out the plan for an edit puts its text in the place of the range, but for the terminators in
it. -/
theorem apply (h : tokens.Worded vocabulary) {edit : Edit} {plan : RelexPlan} {outcome : RelexOutcome}
    (hplan : RelexPlan.make tokens vocabulary edit = .ok (some plan))
    (happly : plan.apply tokens vocabulary = (after, grown, outcome)) :
    after.Worded grown ∧
      text after grown = Text.plain (edit.splice (text tokens vocabulary)) := by
  obtain ⟨hlo, hhi, hregion⟩ := RelexPlan.eq_of_make hplan
  have hcount := Relex.region_cut_le (h.sound _) vocabulary edit
  have hdone := Relex.flatten_region (Relex.cut_le (h.sound _) vocabulary edit).1 h.plain
  rw [h.cut_spliced hlo (h.total_eq ▸ hhi)] at hdone
  dsimp only at hregion hcount hdone
  generalize Relex.region (spellings tokens vocabulary) (Relex.cut tokens vocabulary edit) = done
    at hregion hcount hdone
  subst hregion
  obtain ⟨front, doomed, inserted, kept, hfront, R⟩ := RelexPlan.rows_apply h.sound rfl hcount happly
  have htext : text after grown = Text.plain (edit.splice (text tokens vocabulary)) := by
    rw [← hdone, text, R.spellings_after, h.spellings_mono R.grows, hfront]
    simp
  refine ⟨⟨R.sound, fun token htoken => ?_, ?_⟩, htext⟩
  · rcases R.mem_after htoken with hstays | hspells
    · exact (h.mono R.grows).spells token hstays
    · exact hspells
  · rw [htext]
    exact Text.ne_terminator_plain _

end Worded

end TokenSequence

end LiveProse
