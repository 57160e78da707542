import LiveProse.Lexical.Lexer
import Mathlib.Tactic

/-! Text cut into segments by looking ahead. A segment is what one token spells: a line break with
the tabs or the documentation break that it begins, a run of blanks, a run of letters, a delimiter of
two codepoints, or a single mark. Segments never ask what came before them, and all but bare line
breaks look one codepoint ahead (`segment_append`). What class a segment is of can be read off its
text, except that a single quote has to know how many quotes it stands behind. -/

namespace LiveProse

namespace Codepoint

/-- Whitespace that breaks no line. -/
def isGap (c : Char) : Bool := isWhitespace c && c != '\r' && c != '\n'

/-- The codepoint that a line break may take in as its second. -/
def pairOf? (c : Char) : Option Char :=
  if c = '\n' then some '\r' else if c = '\r' then some '\n' else none

/-- Whether two marks make one delimiter. -/
def joins (c d : Char) : Bool :=
  (c == '(' && (d == '-' || d == '+')) || ((c == '-' || c == '+') && d == ')')

end Codepoint

namespace Segmentation

open Codepoint

/-- The line break that a text begins with, as long as it gets. -/
def lineBreak : Text → Text
  | [] => []
  | c :: rest => match pairOf? c with
    | none => []
    | some d => if rest.head? = some d then [c, d] else [c]

/-- The tabs that a text begins with. -/
def tabs (text : Text) : Text := text.takeWhile (· == '\t')

/-- What a documentation break takes in after the line break that opens it. -/
def breakBody (text : Text) : Text :=
  if text.take Lexer.breakLine.length = Lexer.breakLine ∧
      lineBreak (text.drop Lexer.breakLine.length) ≠ [] then
    let closing := lineBreak (text.drop Lexer.breakLine.length)
    Lexer.breakLine ++ (closing ++ tabs ((text.drop Lexer.breakLine.length).drop closing.length))
  else []

/-- What a line break takes in after itself. -/
def breakTail (text : Text) : Text :=
  if tabs text = [] then breakBody text else tabs text

/-- The first segment of a text. -/
def segment : Text → Text
  | [] => []
  | c :: rest =>
    let text := c :: rest
    if lineBreak text ≠ [] then
      lineBreak text ++ breakTail (text.drop (lineBreak text).length)
    else if isWhitespace c then text.takeWhile isGap
    else if isLetter c then text.takeWhile isLetter
    else c :: (rest.head?.filter (joins c)).toList

/-! ### Looking ahead -/

/-- Codepoints that extend nothing in front of them. -/
def Inert (c : Char) : Prop :=
  isGap c = false ∧ isLetter c = false ∧ pairOf? c = none ∧ c ≠ '\t' ∧ c ≠ '-' ∧ c ≠ '+' ∧ c ≠ ')'

/-- One text may stand for another behind a segment, for all that the next codepoint tells. -/
def Follows (rest rest' : Text) : Prop :=
  rest'.head? = rest.head? ∨ ∀ c, rest'.head? = some c → Inert c

theorem Follows.append {rest rest' : Text} (h : Follows rest rest') (text : Text) :
    Follows (text ++ rest) (text ++ rest') := by
  cases text with
  | nil => exact h
  | cons c text => exact .inl rfl

theorem Follows.of_append {text : Text} (hne : text ≠ []) (rest rest' : Text) :
    Follows (text ++ rest) (text ++ rest') := by
  cases text with
  | nil => exact absurd rfl hne
  | cons c text => exact .inl rfl

/-- A codepoint that did not come next does not come next now, if it is not inert. -/
theorem Follows.head?_ne {rest rest' : Text} (h : Follows rest rest') {c : Char} (hc : ¬Inert c)
    (hne : rest.head? ≠ some c) : rest'.head? ≠ some c := by
  rcases h with h | h
  · rwa [h]
  · exact fun hsome => hc (h c hsome)

theorem takeWhile_append_iff {p : Char → Bool} {text rest : Text} :
    (text ++ rest).takeWhile p = text ↔
      (∀ c ∈ text, p c = true) ∧ ∀ c, rest.head? = some c → p c = false := by
  induction text with
  | nil => cases rest <;> simp [List.takeWhile_cons]
  | cons c text ih =>
    cases hc : p c with
    | false => simp [hc]
    | true => simp [hc, ih]

theorem takeWhile_follows {p : Char → Bool} (hp : ∀ c, Inert c → p c = false) (text : Text)
    {rest rest' : Text} (h : Follows rest rest') (htext : (text ++ rest).takeWhile p = text) :
    (text ++ rest').takeWhile p = text := by
  rw [takeWhile_append_iff] at htext ⊢
  refine ⟨htext.1, fun c hc => ?_⟩
  rcases h with h | h
  · exact htext.2 c (by rw [← h]; exact hc)
  · exact hp c (h c hc)

theorem tabs_follows {text rest rest' : Text} (h : Follows rest rest')
    (htext : tabs (text ++ rest) = text) : tabs (text ++ rest') = text :=
  takeWhile_follows (fun c hc => by simpa using hc.2.2.2.1) text h htext

theorem pairOf?_eq_some {c d : Char} (h : pairOf? c = some d) :
    (c = '\n' ∧ d = '\r') ∨ (c = '\r' ∧ d = '\n') := by
  unfold pairOf? at h
  split_ifs at h with hn hr
  · exact .inl ⟨hn, (Option.some.inj h).symm⟩
  · exact .inr ⟨hr, (Option.some.inj h).symm⟩

theorem not_inert_of_pair {c d : Char} (h : pairOf? c = some d) : ¬Inert d := by
  rcases pairOf?_eq_some h with ⟨-, rfl⟩ | ⟨-, rfl⟩ <;> exact fun hd => absurd hd.2.2.1 (by decide)

theorem lineBreak_eq_nil_iff {text : Text} :
    lineBreak text = [] ↔ ∀ c, text.head? = some c → pairOf? c = none := by
  cases text with
  | nil => simp [lineBreak]
  | cons c rest =>
    unfold lineBreak
    cases hc : pairOf? c with
    | none => simp [hc]
    | some d =>
      simp only [List.head?_cons, Option.some.injEq, forall_eq', hc]
      split_ifs <;> simp

theorem lineBreak_follows {text rest rest' : Text} (h : Follows rest rest')
    (htext : lineBreak (text ++ rest) = text) : lineBreak (text ++ rest') = text := by
  match text with
  | [] =>
    rw [List.nil_append, lineBreak_eq_nil_iff] at htext ⊢
    intro c hc
    rcases h with h | h
    · exact htext c (by rw [← h]; exact hc)
    · exact (h c hc).2.2.1
  | [c] =>
    cases hc : pairOf? c with
    | none => simp [lineBreak, hc] at htext
    | some d =>
      have hne : rest.head? ≠ some d := fun hd => by simp [lineBreak, hc, hd] at htext
      simp [lineBreak, hc, h.head?_ne (not_inert_of_pair hc) hne]
  | c :: d :: text =>
    simpa [lineBreak] using htext

theorem prefix_lineBreak (text : Text) : lineBreak text <+: text := by
  cases text with
  | nil => exact List.prefix_rfl
  | cons c rest =>
    rw [lineBreak]
    cases hc : pairOf? c with
    | none => exact List.nil_prefix
    | some d =>
      dsimp only
      split_ifs with hd
      · cases rest with
        | nil => simp at hd
        | cons e rest =>
          obtain rfl : e = d := by simpa using hd
          exact ⟨rest, rfl⟩
      · exact ⟨rest, rfl⟩

theorem prefix_breakBody (text : Text) : breakBody text <+: text := by
  unfold breakBody
  split_ifs with h
  · obtain ⟨hline, -⟩ := h
    dsimp only
    conv_rhs => rw [← List.take_append_drop Lexer.breakLine.length text, hline]
    generalize text.drop Lexer.breakLine.length = rest
    rw [List.prefix_append_right_inj]
    conv_rhs => rw [← List.prefix_iff_eq_append.1 (prefix_lineBreak rest)]
    rw [List.prefix_append_right_inj]
    exact List.takeWhile_prefix _
  · exact List.nil_prefix

theorem prefix_breakTail (text : Text) : breakTail text <+: text := by
  unfold breakTail
  split_ifs
  · exact prefix_breakBody text
  · exact List.takeWhile_prefix _

theorem prefix_segment (text : Text) : segment text <+: text := by
  cases text with
  | nil => exact List.prefix_rfl
  | cons c rest =>
    unfold segment
    dsimp only
    split_ifs
    · conv_rhs => rw [← List.prefix_iff_eq_append.1 (prefix_lineBreak (c :: rest))]
      rw [List.prefix_append_right_inj]
      exact prefix_breakTail _
    · exact List.takeWhile_prefix _
    · exact List.takeWhile_prefix _
    · refine List.cons_prefix_cons.2 ⟨rfl, ?_⟩
      cases rest with
      | nil => exact List.prefix_rfl
      | cons d rest => cases hd : joins c d <;> simp [Option.filter, hd]

theorem lineBreak_ne_nil_of_head {text : Text} {c : Char} (hc : text.head? = some c)
    (h : c = '\n' ∨ c = '\r') : lineBreak text ≠ [] := by
  rw [ne_eq, lineBreak_eq_nil_iff]
  rcases h with rfl | rfl <;> exact fun h => absurd (h _ hc) (by decide)

theorem segment_ne_nil {text : Text} (h : text ≠ []) : segment text ≠ [] := by
  cases text with
  | nil => exact absurd rfl h
  | cons c rest =>
    unfold segment
    dsimp only
    split_ifs with hbreak hblank hletter
    · simp [hbreak]
    · -- whitespace that is no line break is blank
      have hc : isGap c = true := by
        simp only [ne_eq, not_not, lineBreak_eq_nil_iff, List.head?_cons, Option.some.injEq,
          forall_eq'] at hbreak
        have hr : c ≠ '\r' := by rintro rfl; exact absurd hbreak (by decide)
        have hn : c ≠ '\n' := by rintro rfl; exact absurd hbreak (by decide)
        simp [isGap, hblank, hr, hn]
      simp [hc]
    · simp [hletter]
    · simp

/-! ### Segments in a row -/

/-- All segments of a text. -/
def segments (text : Text) : List Text :=
  match text with
  | [] => []
  | c :: rest =>
    segment (c :: rest) :: segments ((c :: rest).drop (segment (c :: rest)).length)
termination_by text.length
decreasing_by
  have := List.length_pos_iff.2 (segment_ne_nil (List.cons_ne_nil c rest))
  simp only [List.length_drop, List.length_cons]
  omega

@[simp] theorem segments_nil : segments [] = [] := by rw [segments]

/-- A text that begins with its first segment. -/
theorem segments_append {text rest : Text} (hne : text ≠ []) (h : segment (text ++ rest) = text) :
    segments (text ++ rest) = text :: segments rest := by
  cases text with
  | nil => exact absurd rfl hne
  | cons c text =>
    rw [List.cons_append] at h ⊢
    rw [segments, h]
    simp

theorem segments_of_ne_nil {text : Text} (h : text ≠ []) :
    ∃ rest, text = segment text ++ rest ∧ segments text = segment text :: segments rest := by
  obtain ⟨rest, hrest⟩ := prefix_segment text
  refine ⟨rest, hrest.symm, ?_⟩
  conv_lhs => rw [← hrest]
  exact segments_append (segment_ne_nil h) (by rw [hrest])

@[simp] theorem flatten_segments (text : Text) : (segments text).flatten = text := by
  induction hn : text.length using Nat.strong_induction_on generalizing text with
  | _ n ih =>
    by_cases h : text = []
    · simp [h]
    · obtain ⟨rest, htext, hsegments⟩ := segments_of_ne_nil h
      have hlt : rest.length < n := by
        have := List.length_pos_iff.2 (segment_ne_nil h)
        rw [← hn]
        conv_rhs => rw [htext]
        rw [List.length_append]
        omega
      rw [hsegments, List.flatten_cons, ih _ hlt rest rfl, ← htext]

theorem segments_eq_cons_iff {text first : Text} {others : List Text} :
    segments text = first :: others ↔
      ∃ rest, text = first ++ rest ∧ first ≠ [] ∧ segment (first ++ rest) = first ∧
        segments rest = others := by
  constructor
  · intro h
    have hne : text ≠ [] := by rintro rfl; simp at h
    obtain ⟨rest, htext, hsegments⟩ := segments_of_ne_nil hne
    rw [h, List.cons.injEq] at hsegments
    obtain ⟨rfl, rfl⟩ := hsegments
    exact ⟨rest, htext, segment_ne_nil hne, by rw [← htext], rfl⟩
  · rintro ⟨rest, rfl, hne, hfirst, rfl⟩
    exact segments_append hne hfirst

theorem ne_nil_of_mem_segments {text first : Text} (h : first ∈ segments text) : first ≠ [] := by
  generalize hs : segments text = all at h
  induction all generalizing text with
  | nil => simp at h
  | cons other others ih =>
    obtain ⟨rest, -, hne, -, hrest⟩ := segments_eq_cons_iff.1 hs
    rcases List.mem_cons.1 h with rfl | h
    · exact hne
    · exact ih hrest h

/-! ### What a segment depends on -/

theorem breakBody_follows {text rest rest' : Text} (hne : text ≠ []) (h : Follows rest rest')
    (htext : breakBody (text ++ rest) = text) : breakBody (text ++ rest') = text := by
  unfold breakBody at htext
  split_ifs at htext with hline
  · obtain ⟨hline, hclosing⟩ := hline
    dsimp only at htext
    generalize hc : lineBreak ((text ++ rest).drop Lexer.breakLine.length) = closing at *
    generalize ht : tabs (((text ++ rest).drop Lexer.breakLine.length).drop closing.length) = t at *
    subst htext
    have hdrop (r : Text) : (Lexer.breakLine ++ (closing ++ t) ++ r).drop Lexer.breakLine.length =
        closing ++ (t ++ r) := by simp
    rw [hdrop] at hc ht
    rw [List.drop_left] at ht
    have hclose := lineBreak_follows (h.append t) hc
    have htabs := tabs_follows h ht
    unfold breakBody
    simp only [hdrop, hclose, List.drop_left, htabs]
    rw [if_pos ⟨by simp, hclosing⟩]
  · exact absurd htext.symm hne

/-- What makes a line break bare: nothing follows that it could take in. -/
theorem breakBody_of_head_ne {text : Text} (h : text.head? ≠ some '-') : breakBody text = [] := by
  unfold breakBody
  rw [if_neg]
  rintro ⟨hline, -⟩
  cases text with
  | nil => simp [Lexer.breakLine] at hline
  | cons c text =>
    simp only [Lexer.breakLine, List.length_cons, List.take_succ_cons, List.cons.injEq] at hline
    exact h (by simp [hline.1])

theorem breakTail_follows {text rest rest' : Text} (h : Follows rest rest')
    (hbreak : text = [] → breakBody rest = [] → breakBody rest' = [])
    (htext : breakTail (text ++ rest) = text) : breakTail (text ++ rest') = text := by
  unfold breakTail at htext ⊢
  split_ifs at htext with htabs
  · have hnil : tabs (text ++ rest') = [] := by
      cases text with
      | nil => exact tabs_follows h htabs
      | cons c text =>
        have hc : (c == '\t') = false := by
          cases hc : c == '\t' <;> simp_all [tabs]
        simp [tabs, hc]
    rw [if_pos hnil]
    by_cases hne : text = []
    · subst hne
      exact hbreak rfl htext
    · exact breakBody_follows hne h htext
  · rw [tabs_follows h htext, if_neg (by rwa [htext] at htabs)]

/-- A segment stays the first one when what follows it changes, unless the next codepoint now
extends it or it is a bare line break that now begins a documentation break. -/
theorem segment_follows {text rest rest' : Text} (hne : text ≠ []) (h : Follows rest rest')
    (hbreak : lineBreak text = text → breakBody rest = [] → breakBody rest' = [])
    (htext : segment (text ++ rest) = text) : segment (text ++ rest') = text := by
  cases text with
  | nil => exact absurd rfl hne
  | cons c text =>
    have hhead (r : Text) : lineBreak (c :: (text ++ r)) = [] ↔ pairOf? c = none := by
      simp [lineBreak_eq_nil_iff]
    simp only [List.cons_append, segment] at htext ⊢
    cases hpair : pairOf? c with
    | some d =>
      -- the line break itself stays first, and then what it draws in behind it
      have hnil (r : Text) : lineBreak (c :: (text ++ r)) ≠ [] := by simp [hhead, hpair]
      rw [if_pos (hnil rest)] at htext
      rw [if_pos (hnil rest')]
      generalize ho : lineBreak (c :: (text ++ rest)) = opening at *
      generalize ha : breakTail ((c :: (text ++ rest)).drop opening.length) = after at *
      have hdrop (r : Text) : (c :: (text ++ r)).drop opening.length = after ++ r := by
        rw [← List.cons_append, ← htext]
        simp
      have hopen (r : Text) : c :: (text ++ r) = opening ++ (after ++ r) := by
        rw [← List.cons_append, ← htext, List.append_assoc]
      have ho' : lineBreak (c :: (text ++ rest')) = opening := by
        rw [hopen] at ho ⊢
        exact lineBreak_follows (h.append after) ho
      rw [ho', hdrop, ← htext]
      rw [hdrop] at ha
      refine congrArg _ (breakTail_follows h (fun hafter hrest => ?_) ha)
      refine hbreak ?_ hrest
      rw [← htext, hafter, List.append_nil]
      rw [hopen, hafter] at ho
      have hend : Follows rest [] := .inr (by simp)
      have := lineBreak_follows hend ho
      rwa [List.append_nil] at this
    | none =>
      have hnil (r : Text) : ¬lineBreak (c :: (text ++ r)) ≠ [] := by simp [hhead, hpair]
      rw [if_neg (hnil rest)] at htext
      rw [if_neg (hnil rest')]
      split_ifs at htext ⊢ with hblank hletter
      · exact takeWhile_follows (fun _ hd => hd.1) (c :: text) h htext
      · exact takeWhile_follows (fun _ hd => hd.2.1) (c :: text) h htext
      · -- a mark looks at the next codepoint, to see whether they are one delimiter
        rw [List.cons.injEq] at htext ⊢
        refine ⟨rfl, ?_⟩
        cases text with
        | cons d text => exact htext.2
        | nil =>
          have hjoin : ∀ d, rest'.head? = some d → joins c d = false := by
            intro d hd
            rcases h with h | h
            · have hd' : rest.head? = some d := by rw [← h]; exact hd
              have := htext.2
              rw [List.nil_append, hd'] at this
              cases hj : joins c d <;> simp_all [Option.filter]
            · obtain ⟨-, -, -, -, h1, h2, h3⟩ := h d hd
              simp [joins, h1, h2, h3]
          rw [List.nil_append]
          cases hd : rest'.head? with
          | none => rfl
          | some d => simp [Option.filter, hjoin d hd]

end Segmentation

end LiveProse
