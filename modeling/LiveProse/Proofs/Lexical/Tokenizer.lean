import LiveProse.Proofs.Lexical.Lookahead

/-! Text cut into tokens from left to right, each token read off the text that is left: the rules of
lexing as one would tell them, with no memory and no bound on how far they look ahead. The lexer,
which is pushed one codepoint at a time, finds the same tokens (`lex_eq_tokenize`). -/

namespace LiveProse

namespace Tokenizer

open Codepoint Segmentation Lexer

/-- The token that begins with a line break: the line break with tabs after it, a documentation
break, or the line break alone. -/
def lineToken (text : Text) : Lexeme :=
  let opening := lineBreak text
  let after := text.drop opening.length
  let closing := lineBreak (after.drop breakLine.length)
  let indentation := tabs ((after.drop breakLine.length).drop closing.length)
  if tabs after ≠ [] then ⟨opening ++ tabs after, true, .indentation, 1⟩
  else if breakLine <+: after ∧ closing ≠ [] then
    ⟨opening ++ (breakLine ++ (closing ++ indentation)), false,
      if indentation = [] then .documentationBreak else .documentationBreakFollowedByIndentation, 2⟩
  else ⟨opening, true, .bareNewline, 1⟩

/-- The delimiters of two marks. -/
def delimiters : List (Text × TokenClass) :=
  [(['(', '-'], .leftCyclops), (['(', '+'], .leftCrosseyedCyclops), (['-', ')'], .rightCyclops),
    (['+', ')'], .rightCrosseyedCyclops)]

/-- The class of a mark that stands alone. -/
def markClass (c : Char) : TokenClass :=
  if c = '\x22' then .doubleQuote
  else if c = '[' then .leftBracket
  else if c = ']' then .rightBracket
  else if c = '!' then .bang
  else if c = '\x27' then .singleQuote
  else .plainText

/-- The tokens that a text begins with: three if it begins with three single quotes, else one. -/
def front : Text → List Lexeme
  | [] => []
  | c :: rest =>
    let text := c :: rest
    if c = '\r' ∨ c = '\n' then [lineToken text]
    else if isWhitespace c then [⟨text.takeWhile isGap, true, .plainText, 0⟩]
    else if isLetter c then [⟨text.takeWhile isLetter, false, .plainText, 0⟩]
    else if text.take 3 = ['\x27', '\x27', '\x27'] then
      [⟨['\x27'], false, .singleQuote, 0⟩, ⟨['\x27'], false, .plainText, 0⟩,
        ⟨['\x27'], false, .singleQuote, 0⟩]
    else match delimiters.lookup (text.take 2) with
      | some kind => [⟨text.take 2, false, kind, 0⟩]
      | none => [⟨[c], false, markClass c, 0⟩]

/-- The codepoints that some tokens spell. -/
def spelled (tokens : List Lexeme) : Text := (tokens.map (·.text)).flatten

/-! ### Tokens that begin with a line break -/

theorem isLineBreak_lineBreak {text : Text} (h : lineBreak text ≠ []) :
    Lexer.IsLineBreak (lineBreak text) := by
  cases text with
  | nil => exact absurd rfl h
  | cons c rest =>
    cases hpair : pairOf? c with
    | none => simp [lineBreak, hpair] at h
    | some d =>
      rcases pairOf?_eq_some hpair with ⟨rfl, rfl⟩ | ⟨rfl, rfl⟩ <;>
        simp only [lineBreak, hpair] <;> split_ifs <;> simp [Lexer.IsLineBreak]

theorem lineBreak_breakTail (text : Text) :
    lineBreak (lineBreak text ++ breakTail (text.drop (lineBreak text).length)) =
      lineBreak text := by
  obtain ⟨rest, hrest⟩ := prefix_breakTail (text.drop (lineBreak text).length)
  refine lineBreak_follows
    (?_ : Follows (breakTail (text.drop (lineBreak text).length) ++ rest) _)
    (by rw [hrest, List.prefix_iff_eq_append.1 (prefix_lineBreak text)])
  cases breakTail (text.drop (lineBreak text).length) with
  | nil => exact .inr (by simp)
  | cons c tail => exact .inl rfl

theorem tabs_tabs (text : Text) : tabs (tabs text) = tabs text := by
  have h : (tabs text ++ []).takeWhile (· == '\t') = tabs text :=
    takeWhile_append_iff.2 ⟨fun c hc => by simp [eq_tab_of_mem_tabs hc], by simp⟩
  rwa [List.append_nil] at h

/-- A documentation break, whose class is told by its last codepoint. -/
theorem ofSegment_break (opening : Text) {closing : Text} (hclosing : IsLineBreak closing)
    (after : Text) :
    Lexeme.ofSegment (opening ++ (breakLine ++ (closing ++ tabs after)))
      (if (opening ++ (breakLine ++ (closing ++ tabs after))).getLast? = some '\t' then
        .documentationBreakFollowedByIndentation else .documentationBreak) =
      ⟨opening ++ (breakLine ++ (closing ++ tabs after)), false,
        if tabs after = [] then .documentationBreak
        else .documentationBreakFollowedByIndentation, 2⟩ := by
  have htab : ∀ c ∈ tabs after, c = '\t' := fun c hc => eq_tab_of_mem_tabs hc
  have hlast := getLast?_lineBreak_append hclosing htab (opening ++ breakLine)
  rw [List.append_assoc] at hlast
  by_cases hnil : tabs after = []
  · rw [if_neg (by rw [hlast]; exact not_not.2 hnil), if_pos hnil]
    simp [Lexeme.ofSegment, TokenClass.lines, breakLine, isWhitespace]
  · rw [if_pos (hlast.2 hnil), if_neg hnil]
    simp [Lexeme.ofSegment, TokenClass.lines, breakLine, isWhitespace]

theorem lineToken_eq {text : Text} (h : lineBreak text ≠ []) :
    lineToken text = .ofSegment (lineBreak text ++ breakTail (text.drop (lineBreak text).length))
      (classOf (lineBreak text ++ breakTail (text.drop (lineBreak text).length))) := by
  have hkind := classOf_lineBreak h (lineBreak_breakTail text)
  have hline := isLineBreak_lineBreak h
  unfold lineToken
  dsimp only
  generalize lineBreak text = opening at *
  generalize text.drop opening.length = after at *
  rw [hkind]
  by_cases htabs : tabs after = []
  · have htail : breakTail after = breakBody after := by rw [breakTail, if_pos htabs]
    have hguard : breakLine <+: after ∧ lineBreak (after.drop breakLine.length) ≠ [] ↔
        after.take breakLine.length = breakLine ∧
          lineBreak (after.drop breakLine.length) ≠ [] := by
      rw [List.prefix_iff_eq_take, eq_comm]
    by_cases hbreak : breakLine <+: after ∧ lineBreak (after.drop breakLine.length) ≠ []
    · rw [if_neg (not_not.2 htabs), if_pos hbreak, htail, breakBody, if_pos (hguard.1 hbreak)]
      dsimp only
      have hnone (rest : Text) : tabs (breakLine ++ rest) = [] := rfl
      rw [← ofSegment_break opening (isLineBreak_lineBreak hbreak.2), hnone]
      conv_rhs => rw [if_neg (by simp [breakLine]), if_neg (by simp)]
    · rw [if_neg (not_not.2 htabs), if_neg hbreak, htail, breakBody, if_neg (mt hguard.2 hbreak),
        if_pos rfl, List.append_nil, Lexeme.ofSegment, hline.all_isWhitespace]
      rfl
  · have htail : breakTail after = tabs after := by rw [breakTail, if_neg htabs]
    rw [if_pos htabs, htail, if_neg htabs, tabs_tabs, if_pos htabs]
    simp [Lexeme.ofSegment, hline.all_isWhitespace, all_tabs, TokenClass.lines]

/-! ### Other tokens -/

theorem all_takeWhile_isGap (text : Text) : (text.takeWhile isGap).all isWhitespace = true := by
  rw [List.all_eq_true]
  intro c hc
  have := List.all_eq_true.1 (List.all_takeWhile (p := isGap) (l := text)) c hc
  simp only [isGap, Bool.and_eq_true] at this
  exact this.1.1

theorem not_isPunctuation_of_isWhitespace {c : Char} (h : isWhitespace c = true) :
    isPunctuation c = false := by
  cases hmark : isPunctuation c
  · rfl
  · exfalso
    simp only [isPunctuation, punctuation, List.contains_eq_mem, List.mem_cons,
      List.not_mem_nil, or_false, decide_eq_true_eq] at hmark
    rcases hmark with rfl | rfl | rfl | rfl | rfl | rfl | rfl | rfl | rfl | rfl | rfl | rfl | rfl |
      rfl <;> exact absurd h (by decide)

theorem joins_cases {c d : Char} (h : joins c d = true) :
    (c = '(' ∧ d = '-') ∨ (c = '(' ∧ d = '+') ∨ (c = '-' ∧ d = ')') ∨ (c = '+' ∧ d = ')') := by
  simp only [joins, Bool.or_eq_true, Bool.and_eq_true, beq_iff_eq] at h
  tauto

theorem lookup_delimiters_of_not_joins {c d : Char} (h : joins c d = false) :
    delimiters.lookup [c, d] = none := by
  have hne (a b : Char) (hab : joins a b = true) : ([c, d] == [a, b]) = false := by
    rw [beq_eq_false_iff_ne]
    intro heq
    simp only [List.cons.injEq, and_true] at heq
    rw [heq.1, heq.2, hab] at h
    cases h
  simp only [delimiters, List.lookup_cons, List.lookup_nil, hne '(' '-' rfl, hne '(' '+' rfl,
    hne '-' ')' rfl, hne '+' ')' rfl]

/-- A mark makes a delimiter with the next codepoint, or stands alone. -/
theorem front_mark {c : Char} (hmark : isPunctuation c = true) (rest : Text) :
    (match delimiters.lookup ((c :: rest).take 2) with
      | some kind => [⟨(c :: rest).take 2, false, kind, 0⟩]
      | none => [⟨[c], false, markClass c, 0⟩]) =
      [Lexeme.ofSegment (c :: (rest.head?.filter (joins c)).toList)
        (classOf (c :: (rest.head?.filter (joins c)).toList))] := by
  have halone : Lexeme.ofSegment [c] (classOf [c]) = ⟨[c], false, markClass c, 0⟩ := by
    simp only [isPunctuation, punctuation, List.contains_eq_mem, List.mem_cons, List.not_mem_nil,
      or_false, decide_eq_true_eq] at hmark
    rcases hmark with rfl | rfl | rfl | rfl | rfl | rfl | rfl | rfl | rfl | rfl | rfl | rfl | rfl |
      rfl <;> rfl
  cases rest with
  | nil =>
    have hnone : delimiters.lookup [c] = none := by simp [delimiters, List.lookup_cons]
    simp [hnone, halone]
  | cons d rest =>
    cases hjoin : joins c d with
    | true =>
      rcases joins_cases hjoin with ⟨rfl, rfl⟩ | ⟨rfl, rfl⟩ | ⟨rfl, rfl⟩ | ⟨rfl, rfl⟩ <;> rfl
    | false =>
      simp [Option.filter, hjoin, lookup_delimiters_of_not_joins hjoin, halone]

/-- Where no quote comes first, the first token is the first segment. -/
theorem front_of_head_ne {text : Text} (htext : ∀ c ∈ text, c ≠ terminator) (hne : text ≠ [])
    (hquote : text.head? ≠ some '\x27') :
    front text = [.ofSegment (Segmentation.segment text) (classOf (Segmentation.segment text))] := by
  cases text with
  | nil => exact absurd rfl hne
  | cons c rest =>
    have hhead : lineBreak (c :: rest) ≠ [] ↔ c = '\r' ∨ c = '\n' := by
      rw [ne_eq, lineBreak_eq_nil_iff]
      simp only [List.head?_cons, Option.some.injEq, forall_eq', pairOf?]
      split_ifs with hn hr <;> simp [*]
    unfold front Segmentation.segment
    dsimp only
    by_cases hopening : lineBreak (c :: rest) ≠ []
    · rw [if_pos (hhead.1 hopening), if_pos hopening, lineToken_eq hopening]
    · have hpair : pairOf? c = none := lineBreak_eq_nil_iff.1 (not_not.1 hopening) c rfl
      rw [if_neg (mt hhead.2 hopening), if_neg hopening]
      by_cases hblank : isWhitespace c = true
      · have hall := all_takeWhile_isGap (c :: rest)
        rw [List.takeWhile_cons, if_pos (isGap_of_isWhitespace hpair hblank)] at hall ⊢
        rw [if_pos hblank, if_pos hblank,
          classOf_of_head hpair (not_isPunctuation_of_isWhitespace hblank), Lexeme.ofSegment, hall]
        rfl
      · rw [if_neg hblank, if_neg hblank]
        by_cases hletter : isLetter c = true
        · have hmark : isPunctuation c = false := by
            simp only [isLetter, Bool.and_eq_true, Bool.not_eq_true'] at hletter
            exact hletter.1.2
          rw [if_pos hletter, if_pos hletter, List.takeWhile_cons, if_pos hletter,
            classOf_of_head hpair hmark]
          simp [Lexeme.ofSegment, hblank, TokenClass.lines]
        · have hmark : isPunctuation c = true := by
            have hterminator : (c != terminator) = true := by simpa using htext c List.mem_cons_self
            simpa [isLetter, hblank, hterminator] using hletter
          have hthree : (c :: rest).take 3 ≠ ['\x27', '\x27', '\x27'] := by
            rw [List.take_succ_cons]
            intro h
            exact hquote (by rw [List.head?_cons, (List.cons.inj h).1])
          rw [if_neg hletter, if_neg hletter, if_neg hthree]
          exact front_mark hmark rest

/-! ### All tokens -/

theorem ne_nil_of_mem_front {text : Text} {token : Lexeme} (h : token ∈ front text) :
    token.text ≠ [] := by
  cases text with
  | nil => cases h
  | cons c rest =>
    unfold front at h
    dsimp only at h
    split_ifs at h with hbreak hblank hletter hthree
    · have hopening : lineBreak (c :: rest) ≠ [] := lineBreak_ne_nil_of_head rfl hbreak.symm
      rw [List.mem_singleton.1 h, lineToken_eq hopening]
      simp [Lexeme.ofSegment, hopening]
    · rw [List.mem_singleton.1 h]
      simp only [not_or] at hbreak
      simp [isGap, hblank, hbreak]
    · rw [List.mem_singleton.1 h]
      simp [hletter]
    · rcases List.mem_cons.1 h with rfl | h
      · simp
      · rcases List.mem_cons.1 h with rfl | h
        · simp
        · rw [List.mem_singleton.1 h]
          simp
    · split at h <;> rw [List.mem_singleton.1 h] <;> simp

theorem spelled_front_ne_nil {text : Text} (hne : text ≠ []) : spelled (front text) ≠ [] := by
  obtain ⟨token, htoken⟩ : ∃ token, token ∈ front text := by
    cases text with
    | nil => exact absurd rfl hne
    | cons c rest =>
      apply List.exists_mem_of_ne_nil
      unfold front
      dsimp only
      split_ifs
      · simp
      · simp
      · simp
      · simp
      · split <;> simp
  intro h
  rw [spelled, List.flatten_eq_nil_iff] at h
  exact ne_nil_of_mem_front htoken (h _ (List.mem_map_of_mem htoken))

/-- The tokens of a text. -/
def tokenize (text : Text) : List Lexeme :=
  match text with
  | [] => []
  | c :: rest =>
    front (c :: rest) ++ tokenize ((c :: rest).drop (spelled (front (c :: rest))).length)
termination_by text.length
decreasing_by
  have := List.length_pos_iff.2 (spelled_front_ne_nil (List.cons_ne_nil c rest))
  simp only [List.length_drop, List.length_cons]
  omega

theorem tokenize_append {first rest : Text} (hne : first ≠ [])
    (h : spelled (front (first ++ rest)) = first) :
    tokenize (first ++ rest) = front (first ++ rest) ++ tokenize rest := by
  cases first with
  | nil => exact absurd rfl hne
  | cons c first =>
    rw [List.cons_append] at h ⊢
    rw [tokenize, h]
    simp

/-- Three single quotes in a row, and one that begins no three. -/
theorem front_quote (rest : Text) :
    front ('\x27' :: rest) =
      if rest.take 2 = ['\x27', '\x27'] then
        [⟨quote, false, .singleQuote, 0⟩, ⟨quote, false, .plainText, 0⟩,
          ⟨quote, false, .singleQuote, 0⟩]
      else [⟨quote, false, .singleQuote, 0⟩] := by
  have hlookup : delimiters.lookup (('\x27' :: rest).take 2) = none := by
    cases rest with
    | nil => rfl
    | cons d rest => exact lookup_delimiters_of_not_joins rfl
  unfold front
  dsimp only
  rw [if_neg (by decide), if_neg (by decide), if_neg (by decide), hlookup, List.take_succ_cons]
  simp only [List.cons.injEq, true_and]
  rfl

/-- A quote that begins no three leaves the text behind it as it is. -/
theorem lexemes_quote {rest : Text} (h : rest.take 2 ≠ ['\x27', '\x27']) :
    lexemes ('\x27' :: rest) = ⟨quote, false, .singleQuote, 0⟩ :: lexemes rest := by
  have hfirst : Lexeme.ofSegment quote .singleQuote = ⟨quote, false, .singleQuote, 0⟩ := rfl
  by_cases hhead : rest.head? = some '\x27'
  · obtain ⟨more, rfl⟩ : ∃ more, rest = '\x27' :: more := by
      cases rest with
      | nil => cases hhead
      | cons d more => exact ⟨more, by rw [Option.some.inj hhead]⟩
    have hmore : more.head? ≠ some '\x27' := by
      cases more with
      | nil => simp
      | cons d more => simpa using h
    have hnext := head?_segments_ne_quote hmore
    have hone := classesFrom_of_head_ne hnext 1
    have htwo := classesFrom_of_head_ne hnext 2
    simp [lexemes, lexemesFrom, segments_quote, classesFrom, hone, htwo, hnext, hfirst]
  · have hone := classesFrom_of_head_ne (head?_segments_ne_quote hhead) 1
    simp [lexemes, lexemesFrom, segments_quote, classesFrom, hone, hfirst]

theorem lexemes_three_quotes (rest : Text) :
    lexemes ('\x27' :: '\x27' :: '\x27' :: rest) =
      [⟨quote, false, .singleQuote, 0⟩, ⟨quote, false, .plainText, 0⟩,
        ⟨quote, false, .singleQuote, 0⟩] ++ lexemes rest := by
  have hfirst : Lexeme.ofSegment quote .singleQuote = ⟨quote, false, .singleQuote, 0⟩ := rfl
  have hmiddle : Lexeme.ofSegment quote .plainText = ⟨quote, false, .plainText, 0⟩ := rfl
  have hthree := classesFrom_add_three (segments rest) 0
  simp [lexemes, lexemesFrom, segments_quote, classesFrom, hthree, hfirst, hmiddle]

/-- The tokens of a text are its segments with their classes. -/
theorem tokenize_eq_lexemes {text : Text} (htext : ∀ c ∈ text, c ≠ terminator) :
    tokenize text = lexemes text := by
  -- both take off a first token, which leaves a shorter text: the induction is on its length
  induction hn : text.length using Nat.strong_induction_on generalizing text with
  | _ n ih =>
    have hstep {first rest : Text} (heq : text = first ++ rest) (hne : first ≠ [])
        (hfront : spelled (front (first ++ rest)) = first)
        (hlexemes : lexemes text = front text ++ lexemes rest) : tokenize text = lexemes text := by
      subst heq
      have hlt : rest.length < n := by
        have := List.length_pos_iff.2 hne
        rw [← hn, List.length_append]
        omega
      have hrest : ∀ c ∈ rest, c ≠ terminator :=
        fun c hc => htext c (List.mem_append_right _ hc)
      rw [tokenize_append hne hfront, ih _ hlt hrest rfl, hlexemes]
    cases text with
    | nil => simp [tokenize, lexemes, lexemesFrom, classesFrom]
    | cons c rest =>
      by_cases hquote : c = '\x27'
      · subst hquote
        by_cases hthree : rest.take 2 = ['\x27', '\x27']
        · obtain ⟨more, rfl⟩ : ['\x27', '\x27'] <+: rest :=
            List.prefix_iff_eq_take.2 hthree.symm
          exact @hstep ['\x27', '\x27', '\x27'] more rfl (by simp)
            (by simp [front_quote, spelled, quote])
            (by rw [front_quote, if_pos hthree]; exact lexemes_three_quotes more)
        · exact @hstep ['\x27'] rest rfl (by simp)
            (by rw [List.singleton_append, front_quote, if_neg hthree]; rfl)
            (by rw [front_quote, if_neg hthree]; exact lexemes_quote hthree)
      · have hhead : (c :: rest).head? ≠ some '\x27' := by simpa using hquote
        have hfront := front_of_head_ne htext (List.cons_ne_nil c rest) hhead
        obtain ⟨more, hmore⟩ := prefix_segment (c :: rest)
        refine hstep hmore.symm (segment_ne_nil (List.cons_ne_nil c rest)) ?_ ?_
        · rw [hmore, hfront]
          simp [spelled, Lexeme.ofSegment]
        · rw [hfront, lexemes_of_head_ne hhead (List.cons_ne_nil c rest) hmore.symm]
          rfl

end Tokenizer

namespace Lexer

open Codepoint

/-- The lexer finds the tokens that a text is cut into by looking ahead. They spell the text, and
none of them is empty. -/
theorem lex_eq_tokenize (text : Text) (htext : ∀ c ∈ text, c ≠ terminator) :
    lex text = Tokenizer.tokenize text ∧ Tokenizer.spelled (lex text) = text ∧
      ∀ token ∈ lex text, token.text ≠ [] := by
  have hlex := lex_eq_lexemes htext
  have htexts : (lex text).map (·.text) = Segmentation.segments text := by
    rw [hlex, Segmentation.lexemes, Segmentation.map_text_lexemesFrom]
  refine ⟨hlex.trans (Tokenizer.tokenize_eq_lexemes htext).symm, ?_, fun token htoken => ?_⟩
  · rw [Tokenizer.spelled, htexts, Segmentation.flatten_segments]
  · exact Segmentation.ne_nil_of_mem_segments (htexts ▸ List.mem_map_of_mem htoken)

/-- A documentation break that fails at its last hyphen, behind four quotes and in front of one that
does not fail. -/
theorem lex_eq_tokenize_breaks :
    let text := "'''' \n---- DOCUMENTATION ---\r\n---- DOCUMENTATION ----\n\r\t(-a".toList
    (∀ c ∈ text, c ≠ terminator) ∧ lex text = Tokenizer.tokenize text ∧
      Tokenizer.spelled (lex text) = text ∧ ∀ token ∈ lex text, token.text ≠ [] := by
  have hfree : ∀ c ∈ "'''' \n---- DOCUMENTATION ---\r\n---- DOCUMENTATION ----\n\r\t(-a".toList,
      c ≠ terminator := by
    simp [terminator]
  exact ⟨hfree, lex_eq_tokenize _ hfree⟩

end Lexer

end LiveProse
