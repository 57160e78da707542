import LiveProse.Proofs.Lexical.Segments

/-! The lexer cuts text into its segments. It sees one codepoint at a time and has to take back a
documentation break that fails; looking ahead, every segment is known before it is taken. The two
agree on every text without the terminator (`lex_eq_lexemes`), and whenever the lexer says that it
began a token, what it flushed before is final (`lex_of_beganToken`). -/

namespace LiveProse

/-- The number of line breaks that a token of the class counts as. -/
def TokenClass.lines : TokenClass → Nat
  | indentation | bareNewline => 1
  | documentationBreak | documentationBreakFollowedByIndentation => 2
  | _ => 0

/-- The lexeme that a segment spells. -/
def Lexeme.ofSegment (text : Text) (kind : TokenClass) : Lexeme :=
  ⟨text, text.all Codepoint.isWhitespace, kind, kind.lines⟩

namespace Segmentation

open Codepoint

def quote : Text := ['\x27']

/-- The class of a segment by itself. -/
def classOf (text : Text) : TokenClass :=
  if lineBreak text ≠ [] then
    let after := text.drop (lineBreak text).length
    if after = [] then .bareNewline
    else if tabs after ≠ [] then .indentation
    else if text.getLast? = some '\t' then .documentationBreakFollowedByIndentation
    else .documentationBreak
  else if text = ['\x22'] then .doubleQuote
  else if text = ['['] then .leftBracket
  else if text = [']'] then .rightBracket
  else if text = ['!'] then .bang
  else if text = quote then .singleQuote
  else if text = ['(', '-'] then .leftCyclops
  else if text = ['(', '+'] then .leftCrosseyedCyclops
  else if text = ['-', ')'] then .rightCyclops
  else if text = ['+', ')'] then .rightCrosseyedCyclops
  else .plainText

/-- The classes of segments, the first of which stands behind some number of quotes. The middle one
of three quotes is plain. -/
def classesFrom (quotes : Nat) : List Text → List TokenClass
  | [] => []
  | text :: rest =>
    if text = quote then
      (if quotes % 3 = 1 ∧ rest.head? = some quote then .plainText else .singleQuote) ::
        classesFrom (quotes + 1) rest
    else classOf text :: classesFrom 0 rest

/-- The lexemes of segments. -/
def lexemesFrom (quotes : Nat) (texts : List Text) : List Lexeme :=
  List.zipWith Lexeme.ofSegment texts (classesFrom quotes texts)

@[simp] theorem length_classesFrom (quotes : Nat) (texts : List Text) :
    (classesFrom quotes texts).length = texts.length := by
  induction texts generalizing quotes with
  | nil => rfl
  | cons text rest ih =>
    rw [classesFrom]
    split_ifs <;> simp [ih]

theorem classesFrom_of_head_ne {texts : List Text} (h : texts.head? ≠ some quote) (quotes : Nat) :
    classesFrom quotes texts = classesFrom 0 texts := by
  cases texts with
  | nil => rfl
  | cons text rest =>
    have : text ≠ quote := fun ht => h (by rw [ht]; rfl)
    simp only [classesFrom, if_neg this]

theorem classesFrom_add_three (texts : List Text) (quotes : Nat) :
    classesFrom (quotes + 3) texts = classesFrom quotes texts := by
  induction texts generalizing quotes with
  | nil => rfl
  | cons text rest ih =>
    have hmod : (quotes + 3) % 3 = quotes % 3 := by omega
    have hnext : quotes + 3 + 1 = quotes + 1 + 3 := by omega
    rw [classesFrom, classesFrom, hmod, hnext, ih]

theorem map_zipWith_ofSegment {texts : List Text} {kinds : List TokenClass}
    (h : kinds.length = texts.length) :
    (List.zipWith Lexeme.ofSegment texts kinds).map (·.text) = texts ∧
      (List.zipWith Lexeme.ofSegment texts kinds).map (·.kind) = kinds := by
  induction texts generalizing kinds with
  | nil => simpa [eq_comm] using h
  | cons text rest ih =>
    cases kinds with
    | nil => simp at h
    | cons kind kinds =>
      obtain ⟨htexts, hkinds⟩ := ih (by simpa using h)
      simp only [List.zipWith_cons_cons, List.map_cons, htexts, hkinds]
      exact ⟨rfl, rfl⟩

@[simp] theorem map_text_lexemesFrom (quotes : Nat) (texts : List Text) :
    (lexemesFrom quotes texts).map (·.text) = texts := (map_zipWith_ofSegment (by simp)).1

@[simp] theorem map_kind_lexemesFrom (quotes : Nat) (texts : List Text) :
    (lexemesFrom quotes texts).map (·.kind) = classesFrom quotes texts :=
  (map_zipWith_ofSegment (by simp)).2

/-- The lexemes of a text, by looking ahead. -/
def lexemes (text : Text) : List Lexeme := lexemesFrom 0 (segments text)

end Segmentation

namespace Lexer

open Codepoint Segmentation

/-- A lexer between two tokens. -/
def between (flushed : Array Lexeme) : Lexer := { flushed }

/-- All lexemes after some more text. -/
def lexAll (lexer : Lexer) (text : Text) : List Lexeme := (lexer.pushAll text).finish

theorem lexAll_cons (lexer : Lexer) (c : Char) (text : Text) :
    lexer.lexAll (c :: text) = (lexer.push c).lexAll text := rfl

theorem lexAll_nil (lexer : Lexer) : lexer.lexAll [] = (lexer.push terminator).flushed.toList := rfl

@[simp] theorem lexAll_between_nil (flushed : Array Lexeme) :
    (between flushed).lexAll [] = flushed.toList := rfl

/-- What holds of the lexers made with a mode holds of the lexers in that mode. -/
@[elab_as_elim]
theorem of_mode {mode : LexerMode} {motive : Lexer → Prop} (lexer : Lexer) (hmode : lexer.mode = mode)
    (h : ∀ inhibited pending flushed, motive ⟨mode, inhibited, pending, flushed⟩) : motive lexer := by
  obtain ⟨_, inhibited, pending, flushed⟩ := lexer
  obtain rfl := hmode
  exact h inhibited pending flushed

/-- The codepoint that comes next, if only the terminator. -/
def nextOf (text : Text) : Char := text.head?.getD terminator

theorem start_eq_push (lexer : Lexer) (hpending : lexer.pending = [])
    (hinhibited : lexer.inhibited = false) {c : Char} (hc : c ≠ terminator) :
    lexer.start c = (between lexer.flushed).push c := by
  obtain ⟨mode, inhibited, pending, flushed⟩ := lexer
  obtain rfl : pending = [] := hpending
  obtain rfl : inhibited = false := hinhibited
  simp only [push, between, advance, start, if_neg hc, take, takeAndFlush, flush]

/-- A token ends where the next codepoint does not extend it, and lexing goes on as between two
tokens. -/
theorem lexAll_flush {lexer : Lexer} {text : Text} {onlyWhitespace : Bool} {kind : TokenClass}
    {lines : Nat} (hinhibited : lexer.inhibited = false)
    (htext : ∀ c ∈ text, c ≠ terminator)
    (hpush : lexer.push (nextOf text) =
      lexer.flushAndStart (nextOf text) onlyWhitespace kind lines) :
    lexer.lexAll text =
      (between (lexer.flushed.push ⟨lexer.pending.reverse, onlyWhitespace, kind, lines⟩)).lexAll
        text := by
  cases text with
  | nil =>
    simp only [nextOf, List.head?_nil, Option.getD_none] at hpush
    rw [lexAll_nil, hpush, lexAll_between_nil]
    rfl
  | cons c text =>
    simp only [nextOf, List.head?_cons, Option.getD_some] at hpush
    rw [lexAll_cons, hpush, flushAndStart,
      start_eq_push (lexer.flush _ _ _) rfl hinhibited (htext c List.mem_cons_self),
      lexAll_cons]
    rfl

/-- A token of a class of codepoints takes in all that come. -/
theorem lexAll_munch (mode : LexerMode) (p : Char → Bool) (onlyWhitespace : Bool)
    (kind : TokenClass) (lines : Nat)
    (hmode : ∀ (lexer : Lexer) (c : Char), lexer.mode = mode → lexer.push c =
      if p c then lexer.take c mode else lexer.flushAndStart c onlyWhitespace kind lines)
    (hterminator : p terminator = false) {text : Text} (htext : ∀ c ∈ text, c ≠ terminator)
    (lexer : Lexer) (hlexer : lexer.mode = mode) (hinhibited : lexer.inhibited = false) :
    lexer.lexAll text =
      (between (lexer.flushed.push
        ⟨lexer.pending.reverse ++ text.takeWhile p, onlyWhitespace, kind, lines⟩)).lexAll
        (text.dropWhile p) := by
  induction text generalizing lexer with
  | nil =>
    have hpush := hmode lexer terminator hlexer
    rw [hterminator] at hpush
    simpa using lexAll_flush hinhibited htext hpush
  | cons c text ih =>
    have hpush := hmode lexer c hlexer
    cases hc : p c with
    | true =>
      rw [hc, if_pos rfl] at hpush
      rw [lexAll_cons, hpush,
        ih (fun d hd => htext d (List.mem_cons_of_mem _ hd)) (lexer.take c mode) rfl hinhibited]
      simp [take, hc]
    | false =>
      rw [hc, if_neg Bool.false_ne_true] at hpush
      rw [lexAll_flush hinhibited htext hpush]
      simp [hc]

/-! ### Documentation breaks that fail -/

/-- Modes from which no documentation break begins with the next codepoint. -/
def Steady : LexerMode → Prop
  | .afterReturn | .afterFeed | .afterNewline | .inBreak _ => False
  | _ => True

theorem push_eq_advance {lexer : Lexer} (h : Steady lexer.mode) (c : Char) :
    lexer.push c = lexer.advance c := by
  unfold push
  split
  · rename_i hmode
    rw [hmode] at h
    exact h.elim
  · rfl

theorem steady_ite {p : Prop} [Decidable p] {lexer other : Lexer} (h : Steady lexer.mode)
    (hother : Steady other.mode) : Steady (if p then lexer else other).mode := by
  split_ifs
  exacts [h, hother]

theorem steady_start (lexer : Lexer) (h : Steady lexer.mode) {c : Char} (hc : pairOf? c = none) :
    Steady (lexer.start c).mode := by
  have hn : c ≠ '\n' := by rintro rfl; exact absurd hc (by decide)
  have hr : c ≠ '\r' := by rintro rfl; exact absurd hc (by decide)
  rw [start, if_neg hn, if_neg hr]
  repeat' apply steady_ite
  all_goals first | exact True.intro | exact h

theorem steady_advance {lexer : Lexer} (h : Steady lexer.mode) {c : Char} (hc : pairOf? c = none) :
    Steady (lexer.advance c).mode := by
  have hflush (onlyWhitespace : Bool) (kind : TokenClass) (lines : Nat) :
      Steady (lexer.flushAndStart c onlyWhitespace kind lines).mode :=
    steady_start (lexer.flush onlyWhitespace kind lines) h hc
  have hbreak (pair : Option Char) : Steady (lexer.afterBreak c pair).mode := by
    unfold afterBreak
    split_ifs
    · trivial
    · trivial
    · exact hflush _ _ _
  unfold advance
  split <;> rename_i hmode <;> try (rw [hmode] at h; exact h.elim)
  case h_1 => exact steady_start lexer h hc
  case h_14 => exact hbreak _
  case h_15 => exact hbreak _
  case h_16 => exact hbreak _
  all_goals
    split_ifs
    all_goals first | trivial | exact hflush _ _ _

theorem foldl_advance_eq_pushAll {text : Text} (htext : ∀ c ∈ text, pairOf? c = none)
    (lexer : Lexer) (h : Steady lexer.mode) :
    text.foldl advance lexer = lexer.pushAll text ∧ Steady (lexer.pushAll text).mode := by
  induction text generalizing lexer with
  | nil => exact ⟨rfl, h⟩
  | cons c text ih =>
    have hc := htext c List.mem_cons_self
    have hpush := push_eq_advance h c
    obtain ⟨heq, hsteady⟩ := ih (fun d hd => htext d (List.mem_cons_of_mem _ hd))
      (lexer.push c) (by rw [hpush]; exact steady_advance h hc)
    exact ⟨by rw [List.foldl_cons, ← hpush, heq]; rfl, hsteady⟩

/-- A line break that is complete in front of a hyphen. -/
def IsLineBreak (opening : Text) : Prop :=
  opening = ['\n'] ∨ opening = ['\r'] ∨ opening = ['\n', '\r'] ∨ opening = ['\r', '\n']

/-- The token in progress may be a documentation break: a line break, and of the break line what is
not expected any more. -/
def InBreak (opening consumed expected : Text) (flushed : Array Lexeme) : Lexer :=
  ⟨.inBreak expected, false, (opening ++ '-' :: consumed).reverse, flushed⟩

/-- A documentation break that fails leaves a line break, and its other codepoints are lexed as if
they came after a token. -/
theorem abandonBreak_eq {opening consumed expected : Text} (hopening : IsLineBreak opening)
    (hconsumed : ∀ c ∈ consumed, pairOf? c = none) (flushed : Array Lexeme) (c : Char) :
    (InBreak opening consumed expected flushed).abandonBreak c =
      ((between (flushed.push (.ofSegment opening .bareNewline))).pushAll ('-' :: consumed)).push c := by
  unfold abandonBreak InBreak
  simp only [List.reverse_reverse, List.foldl_append, List.foldl_cons]
  have hhyphen : (opening.foldl advance ⟨.undecided, true, [], flushed⟩).advance '-' =
      (between (flushed.push (.ofSegment opening .bareNewline))).push '-' := by
    rcases hopening with rfl | rfl | rfl | rfl <;> rfl
  obtain ⟨heq, hsteady⟩ := foldl_advance_eq_pushAll hconsumed
    ((between (flushed.push (.ofSegment opening .bareNewline))).push '-') trivial
  rw [hhyphen, heq, ← push_eq_advance hsteady]
  rfl

/-! ### Line breaks -/

theorem onLine_breakLine : ∀ c ∈ breakLine.tail, pairOf? c = none ∧ c ≠ terminator := by
  have hall : breakLine.tail.all (fun c => pairOf? c == none && c != terminator) = true := by decide
  intro c hc
  simpa using List.all_eq_true.1 hall c hc

/-- What the two classes of documentation breaks are told apart by. -/
def breakKind (indentation : Text) : TokenClass :=
  if indentation = [] then .documentationBreak else .documentationBreakFollowedByIndentation

/-- After a complete documentation break. -/
theorem lexAll_afterBreak (lexer : Lexer) (hinhibited : lexer.inhibited = false) {text : Text}
    (htext : ∀ c ∈ text, c ≠ terminator)
    (hpush : lexer.push (nextOf text) = lexer.afterBreak (nextOf text) none) :
    lexer.lexAll text = (between (lexer.flushed.push
      ⟨lexer.pending.reverse ++ tabs text, false, breakKind (tabs text), 2⟩)).lexAll
        (text.dropWhile (· == '\t')) := by
  unfold afterBreak at hpush
  by_cases htab : nextOf text = '\t'
  · cases text with
    | nil => exact absurd htab (by decide)
    | cons c text =>
      obtain rfl : c = '\t' := htab
      replace hpush : lexer.push '\t' = lexer.take '\t' .inIndentationAfterBreak := hpush
      have hmunch := lexAll_munch .inIndentationAfterBreak (· == '\t') false
        .documentationBreakFollowedByIndentation 2
        (fun lexer c hmode => by
          simp only [beq_iff_eq]
          exact of_mode lexer hmode fun _ _ _ => rfl) (by decide)
        (fun d hd => htext d (List.mem_cons_of_mem _ hd))
        (lexer.take '\t' .inIndentationAfterBreak) rfl hinhibited
      rw [lexAll_cons, hpush]
      refine hmunch.trans ?_
      simp [take, tabs, breakKind]
  · rw [if_neg htab, if_neg (by simp)] at hpush
    have hnil : tabs text = [] := by
      cases text with
      | nil => rfl
      | cons c text =>
        have : (c == '\t') = false := by simpa [nextOf] using htab
        simp [tabs, this]
    have hdrop : text.dropWhile (· == '\t') = text := by
      have := List.takeWhile_append_dropWhile (p := (· == '\t')) (l := text)
      rwa [← tabs, hnil] at this
    rw [lexAll_flush hinhibited htext hpush, hnil, hdrop]
    simp [breakKind]

/-- The line break that ends a documentation break is taken in whole. -/
theorem lexAll_closing {opening consumed : Text} (flushed : Array Lexeme) {text : Text}
    (htext : ∀ c ∈ text, c ≠ terminator) (hclosing : lineBreak text ≠ []) :
    (InBreak opening consumed [] flushed).lexAll text =
      (between (flushed.push
        ⟨opening ++ '-' :: consumed ++ lineBreak text ++ tabs (text.drop (lineBreak text).length),
          false, breakKind (tabs (text.drop (lineBreak text).length)), 2⟩)).lexAll
        ((text.drop (lineBreak text).length).dropWhile (· == '\t')) := by
  cases text with
  | nil => exact absurd rfl hclosing
  | cons c text =>
    have htail : ∀ d ∈ text, d ≠ terminator := fun d hd => htext d (List.mem_cons_of_mem _ hd)
    cases hpair : pairOf? c with
    | none => exact absurd (by simp [lineBreak, hpair]) hclosing
    | some d =>
      -- the mode behind the first codepoint of the line break waits for its pair
      obtain ⟨mode, hpush, hnext⟩ : ∃ mode, (InBreak opening consumed [] flushed).push c =
          (InBreak opening consumed [] flushed).take c mode ∧
          ∀ (lexer : Lexer) (e : Char), lexer.mode = mode →
            lexer.push e = lexer.afterBreak e (some d) := by
        rcases pairOf?_eq_some hpair with ⟨rfl, rfl⟩ | ⟨rfl, rfl⟩
        · exact ⟨.afterBreakAndFeed, rfl, fun lexer e h => of_mode lexer h fun _ _ _ => rfl⟩
        · exact ⟨.afterBreakAndReturn, rfl, fun lexer e h => of_mode lexer h fun _ _ _ => rfl⟩
      have hd : d ≠ '\t' := by
        rcases pairOf?_eq_some hpair with ⟨-, rfl⟩ | ⟨-, rfl⟩ <;> decide
      rw [lexAll_cons, hpush]
      simp only [lineBreak, hpair]
      split_ifs with hhead
      · cases text with
        | nil => simp at hhead
        | cons e text =>
          obtain rfl : e = d := by simpa using hhead
          rw [lexAll_cons, hnext _ _ rfl, Lexer.afterBreak, if_neg hd, if_pos rfl]
          refine (lexAll_afterBreak (Lexer.take _ _ _) rfl
            (fun d hd => htail d (List.mem_cons_of_mem _ hd)) rfl).trans ?_
          simp [take, InBreak]
      · refine (lexAll_afterBreak (Lexer.take _ _ _) rfl htail ?_).trans ?_
        · have hne : nextOf text ≠ d := by
            cases text with
            | nil =>
              rcases pairOf?_eq_some hpair with ⟨-, rfl⟩ | ⟨-, rfl⟩ <;> decide
            | cons e text => simpa [nextOf] using hhead
          rw [hnext _ _ rfl]
          simp [Lexer.afterBreak, Ne.symm hne]
        · simp [take, InBreak]

/-- A codepoint, or the end of the text, that the documentation break in progress does not expect. -/
theorem lexAll_abandon {opening consumed expected text : Text} (hopening : IsLineBreak opening)
    (hconsumed : ∀ c ∈ consumed, pairOf? c = none) (flushed : Array Lexeme)
    (hfail : (InBreak opening consumed expected flushed).continueBreak? (nextOf text) expected =
      none) :
    (InBreak opening consumed expected flushed).lexAll text =
      (between (flushed.push (.ofSegment opening .bareNewline))).lexAll ('-' :: consumed ++ text) := by
  have hpush : (InBreak opening consumed expected flushed).push (nextOf text) =
      (InBreak opening consumed expected flushed).abandonBreak (nextOf text) := by
    change ((InBreak opening consumed expected flushed).continueBreak? _ expected).getD _ = _
    rw [hfail]
    rfl
  rw [abandonBreak_eq hopening hconsumed] at hpush
  cases text with
  | nil =>
    rw [lexAll_nil, show terminator = nextOf [] from rfl, hpush, List.append_nil]
    rfl
  | cons c text =>
    rw [lexAll_cons, show c = nextOf (c :: text) from rfl, hpush]
    simp only [lexAll, pushAll_append]
    rfl

/-- A documentation break in progress succeeds or leaves its line break behind. -/
theorem lexAll_inBreak {opening : Text} (hopening : IsLineBreak opening) (flushed : Array Lexeme)
    {expected consumed text : Text} (hexpected : ∀ c ∈ expected, pairOf? c = none ∧ c ≠ terminator)
    (hconsumed : ∀ c ∈ consumed, pairOf? c = none) :
    (InBreak opening consumed expected flushed).lexAll text =
      if text.take expected.length = expected ∧ lineBreak (text.drop expected.length) ≠ [] then
        (InBreak opening (consumed ++ expected) [] flushed).lexAll (text.drop expected.length)
      else (between (flushed.push (.ofSegment opening .bareNewline))).lexAll
        ('-' :: consumed ++ text) := by
  -- on the hyphens that are still expected; at a mismatch those that were taken are given up
  induction expected generalizing consumed text with
  | nil =>
    split_ifs with hif
    · simp
    · have hclosing : lineBreak text = [] := by simpa using hif
      refine lexAll_abandon hopening hconsumed flushed ?_
      have hpair : pairOf? (nextOf text) = none := by
        cases text with
        | nil => decide
        | cons c text => exact lineBreak_eq_nil_iff.1 hclosing c rfl
      have hn : nextOf text ≠ '\n' := by intro h; rw [h] at hpair; exact absurd hpair (by decide)
      have hr : nextOf text ≠ '\r' := by intro h; rw [h] at hpair; exact absurd hpair (by decide)
      simp [continueBreak?, hn, hr]
  | cons next expected ih =>
    obtain ⟨hnext, hterminator⟩ := hexpected next List.mem_cons_self
    by_cases hc : nextOf text = next
    · cases text with
      | nil => exact absurd hc.symm hterminator
      | cons c text =>
        obtain rfl : c = next := hc
        have hpush : (InBreak opening consumed (c :: expected) flushed).push c =
            InBreak opening (consumed ++ [c]) expected flushed := by
          refine (congrArg (Option.getD · _) (if_pos rfl)).trans ?_
          simp [InBreak, take]
        have hconsumed' : ∀ d ∈ consumed ++ [c], pairOf? d = none := by
          intro d hd
          rcases List.mem_append.1 hd with hd | hd
          · exact hconsumed d hd
          · rwa [List.mem_singleton.1 hd]
        rw [lexAll_cons, hpush,
          ih (fun d hd => hexpected d (List.mem_cons_of_mem _ hd)) hconsumed']
        simp
    · rw [if_neg]
      · exact lexAll_abandon hopening hconsumed flushed (by simp [continueBreak?, hc])
      · rintro ⟨htake, -⟩
        cases text with
        | nil => simp at htake
        | cons c text =>
          rw [List.length_cons, List.take_succ_cons, List.cons.injEq] at htake
          exact hc htake.1

/-- A line break is taken in whole, and what it takes in after itself is up to what comes. -/
theorem lexAll_opening (flushed : Array Lexeme) {text : Text} (hopening : lineBreak text ≠ []) :
    IsLineBreak (lineBreak text) ∧ ∃ mode,
      (between flushed).lexAll text = (⟨mode, false, (lineBreak text).reverse, flushed⟩ : Lexer).lexAll
        (text.drop (lineBreak text).length) ∧
      (⟨mode, false, (lineBreak text).reverse, flushed⟩ : Lexer).push
          (nextOf (text.drop (lineBreak text).length)) =
        (⟨mode, false, (lineBreak text).reverse, flushed⟩ : Lexer).afterLineBreak
          (nextOf (text.drop (lineBreak text).length)) := by
  cases text with
  | nil => exact absurd rfl hopening
  | cons c text =>
    cases hpair : pairOf? c with
    | none => exact absurd (by simp [lineBreak, hpair]) hopening
    | some d =>
      obtain ⟨mode, hpush, hnext⟩ : ∃ mode, (between flushed).push c = ⟨mode, false, [c], flushed⟩ ∧
          ∀ (lexer : Lexer) (e : Char), lexer.mode = mode → lexer.push e =
            if e = d then lexer.take e .afterNewline else lexer.afterLineBreak e := by
        rcases pairOf?_eq_some hpair with ⟨rfl, rfl⟩ | ⟨rfl, rfl⟩
        · exact ⟨.afterFeed, rfl, fun lexer e h => of_mode lexer h fun _ _ _ => rfl⟩
        · exact ⟨.afterReturn, rfl, fun lexer e h => of_mode lexer h fun _ _ _ => rfl⟩
      simp only [lineBreak, hpair]
      split_ifs with hhead
      · cases text with
        | nil => simp at hhead
        | cons e text =>
          obtain rfl : e = d := by simpa using hhead
          refine ⟨?_, .afterNewline, ?_, rfl⟩
          · rcases pairOf?_eq_some hpair with ⟨rfl, rfl⟩ | ⟨rfl, rfl⟩ <;> simp [IsLineBreak]
          · rw [lexAll_cons, hpush, lexAll_cons, hnext _ _ rfl, if_pos rfl]
            rfl
      · refine ⟨?_, mode, ?_, ?_⟩
        · rcases pairOf?_eq_some hpair with ⟨rfl, -⟩ | ⟨rfl, -⟩ <;> simp [IsLineBreak]
        · rw [lexAll_cons, hpush]
          rfl
        · have hne : nextOf text ≠ d := by
            cases text with
            | nil =>
              rcases pairOf?_eq_some hpair with ⟨-, rfl⟩ | ⟨-, rfl⟩ <;> decide
            | cons e text => simpa [nextOf] using hhead
          rw [hnext _ _ rfl]
          exact if_neg hne

theorem classOf_lineBreak {opening after : Text} (hne : opening ≠ [])
    (h : lineBreak (opening ++ after) = opening) :
    classOf (opening ++ after) =
      if after = [] then .bareNewline
      else if tabs after ≠ [] then .indentation
      else if (opening ++ after).getLast? = some '\t' then .documentationBreakFollowedByIndentation
      else .documentationBreak := by
  unfold classOf
  simp only [h, List.drop_left]
  rw [if_pos hne]

theorem head?_of_tabs_eq_nil {text : Text} (h : tabs text = []) : nextOf text ≠ '\t' := by
  cases text with
  | nil => exact show terminator ≠ '\t' by decide
  | cons c text =>
    intro hc
    obtain rfl : c = '\t' := hc
    simp [tabs] at h

theorem dropWhile_of_tabs_append {text rest : Text} (h : tabs text ++ rest = text) :
    text.dropWhile (· == '\t') = rest := by
  have htext := List.takeWhile_append_dropWhile (p := (· == '\t')) (l := text)
  conv_rhs at htext => rw [← h]
  exact List.append_cancel_left htext

theorem eq_tab_of_mem_tabs {text : Text} {c : Char} (h : c ∈ tabs text) : c = '\t' := by
  simpa using List.all_eq_true.1 (List.all_takeWhile (p := (· == '\t')) (l := text)) c h

theorem all_tabs (text : Text) : (tabs text).all isWhitespace = true := by
  rw [List.all_eq_true]
  intro c hc
  rw [eq_tab_of_mem_tabs hc]
  rfl

theorem IsLineBreak.all_isWhitespace {opening : Text} (h : IsLineBreak opening) :
    opening.all isWhitespace = true := by
  rcases h with rfl | rfl | rfl | rfl <;> rfl

/-- A line break with tabs after it. -/
theorem lexAll_indentation {opening : Text} (hline : IsLineBreak opening) {mode : LexerMode}
    {flushed : Array Lexeme} {after rest : Text} (hafter : ∀ c ∈ after, c ≠ terminator)
    (hpush : (⟨mode, false, opening.reverse, flushed⟩ : Lexer).push (nextOf after) =
      (⟨mode, false, opening.reverse, flushed⟩ : Lexer).afterLineBreak (nextOf after))
    (htabs : tabs after ≠ []) (hrest : tabs after ++ rest = after) :
    (⟨mode, false, opening.reverse, flushed⟩ : Lexer).lexAll after =
      (between (flushed.push (.ofSegment (opening ++ tabs after) .indentation))).lexAll rest := by
  have hdrop := dropWhile_of_tabs_append hrest
  have hall := all_tabs after
  cases after with
  | nil => exact absurd rfl htabs
  | cons c after =>
    obtain rfl : c = '\t' := by
      by_contra hc
      have : (c == '\t') = false := by simpa using hc
      simp [tabs, this] at htabs
    replace hpush : (⟨mode, false, opening.reverse, flushed⟩ : Lexer).push '\t' =
        (⟨mode, false, opening.reverse, flushed⟩ : Lexer).take '\t' .inIndentation := hpush
    rw [lexAll_cons, hpush, lexAll_munch .inIndentation (· == '\t') true .indentation 1
      (fun lexer c hmode => by
        simp only [beq_iff_eq]
        exact of_mode lexer hmode fun _ _ _ => rfl) (by decide)
      (fun d hd => hafter d (List.mem_cons_of_mem _ hd)) (Lexer.take _ _ _) rfl rfl]
    have hdrop' : after.dropWhile (· == '\t') = rest := by simpa using hdrop
    rw [hdrop']
    simp only [Lexeme.ofSegment, List.all_append, hline.all_isWhitespace, hall]
    simp [take, tabs, TokenClass.lines]

theorem getLast?_lineBreak_append {closing : Text} (hclosing : IsLineBreak closing) {indentation : Text}
    (htabs : ∀ c ∈ indentation, c = '\t') (text : Text) :
    (text ++ (closing ++ indentation)).getLast? = some '\t' ↔ indentation ≠ [] := by
  rw [← List.append_assoc]
  cases indentation using List.reverseRecOn with
  | nil => rcases hclosing with rfl | rfl | rfl | rfl <;> simp
  | append_singleton rest c => simp [htabs c (by simp)]

theorem all_isWhitespace_breakLine : breakLine.all isWhitespace = false := by decide

/-- The lexeme of a documentation break. The last codepoint tells the two classes apart. -/
theorem ofSegment_break {closing indentation : Text} (hclosing : IsLineBreak closing)
    (htabs : ∀ c ∈ indentation, c = '\t') (opening : Text) :
    Lexeme.ofSegment (opening ++ (breakLine ++ (closing ++ indentation)))
        (if (opening ++ (breakLine ++ (closing ++ indentation))).getLast? = some '\t' then
          .documentationBreakFollowedByIndentation else .documentationBreak) =
      ⟨opening ++ (breakLine ++ (closing ++ indentation)), false, breakKind indentation, 2⟩ := by
  have hlast := getLast?_lineBreak_append hclosing htabs (opening ++ breakLine)
  rw [List.append_assoc] at hlast
  have hblank : (opening ++ (breakLine ++ (closing ++ indentation))).all isWhitespace = false := by
    simp only [List.all_append, all_isWhitespace_breakLine, Bool.false_and, Bool.and_false]
  rw [Lexeme.ofSegment, hblank, breakKind]
  by_cases hnil : indentation = []
  · rw [if_neg (by rw [hlast]; exact not_not.2 hnil), if_pos hnil]
    rfl
  · rw [if_pos (hlast.2 hnil), if_neg hnil]
    rfl

/-- A line break with a hyphen after it. -/
theorem lexAll_hyphen {opening : Text} (hline : IsLineBreak opening) (hopening : opening ≠ [])
    {mode : LexerMode} {flushed : Array Lexeme} {after rest : Text}
    (hafter : ∀ c ∈ '-' :: after, c ≠ terminator)
    (hpush : (⟨mode, false, opening.reverse, flushed⟩ : Lexer).push '-' =
      (⟨mode, false, opening.reverse, flushed⟩ : Lexer).afterLineBreak '-')
    (hbreak : lineBreak (opening ++ breakBody ('-' :: after)) = opening)
    (hrest : breakBody ('-' :: after) ++ rest = '-' :: after) :
    (⟨mode, false, opening.reverse, flushed⟩ : Lexer).lexAll ('-' :: after) =
      (between (flushed.push (.ofSegment (opening ++ breakBody ('-' :: after))
        (classOf (opening ++ breakBody ('-' :: after)))))).lexAll rest := by
  have hcond : ('-' :: after).take breakLine.length = breakLine ∧
      lineBreak (('-' :: after).drop breakLine.length) ≠ [] ↔
      after.take breakLine.tail.length = breakLine.tail ∧
      lineBreak (after.drop breakLine.tail.length) ≠ [] := by
    simp [breakLine]
  replace hpush : (⟨mode, false, opening.reverse, flushed⟩ : Lexer).push '-' =
      InBreak opening [] breakLine.tail flushed :=
    hpush.trans (by simp [Lexer.afterLineBreak, InBreak, take])
  rw [lexAll_cons, hpush, lexAll_inBreak hline flushed onLine_breakLine (by simp),
    classOf_lineBreak hopening hbreak]
  by_cases hbody : after.take breakLine.tail.length = breakLine.tail ∧
      lineBreak (after.drop breakLine.tail.length) ≠ []
  · have hdrop : ('-' :: after).drop breakLine.length = after.drop breakLine.tail.length := by
      simp [breakLine]
    have heq : breakBody ('-' :: after) = breakLine ++ (lineBreak (after.drop breakLine.tail.length) ++
        tabs ((after.drop breakLine.tail.length).drop
          (lineBreak (after.drop breakLine.tail.length)).length)) := by
      rw [breakBody, if_pos (hcond.2 hbody)]
      simp only [hdrop]
    have htabs : tabs (breakBody ('-' :: after)) = [] := by rw [heq]; rfl
    have hne : breakBody ('-' :: after) ≠ [] := by rw [heq]; simp [breakLine]
    rw [if_pos hbody, lexAll_closing flushed
      (fun d hd => hafter d (List.mem_cons_of_mem _ (List.mem_of_mem_drop hd))) hbody.2,
      if_neg hne, htabs, if_neg (by simp)]
    obtain ⟨hclosing, -⟩ := lexAll_opening flushed hbody.2
    have hparts := List.prefix_iff_eq_append.1 (prefix_lineBreak (after.drop breakLine.tail.length))
    have hrest' : ((after.drop breakLine.tail.length).drop
        (lineBreak (after.drop breakLine.tail.length)).length).dropWhile (· == '\t') = rest := by
      refine dropWhile_of_tabs_append ?_
      have hall : '-' :: after = breakLine ++ after.drop breakLine.tail.length := by
        conv_lhs => rw [← List.take_append_drop breakLine.tail.length after, hbody.1]
        rfl
      rw [heq, hall, List.append_assoc, List.append_cancel_left_eq, List.append_assoc] at hrest
      conv_rhs at hrest => rw [← hparts]
      exact List.append_cancel_left hrest
    rw [hrest', heq]
    generalize lineBreak (after.drop breakLine.tail.length) = closing at *
    generalize hindentation : tabs ((after.drop breakLine.tail.length).drop closing.length) =
      indentation at *
    have htab : ∀ c ∈ indentation, c = '\t' := fun c hc => eq_tab_of_mem_tabs (hindentation ▸ hc)
    have htext : opening ++ '-' :: ([] ++ breakLine.tail) ++ closing ++ indentation =
        opening ++ (breakLine ++ (closing ++ indentation)) := by
      simp only [List.append_assoc]
      rfl
    rw [ofSegment_break hclosing htab, htext]
  · -- the hyphens make no break, so the lexer goes back to the first of them
    have hnil : breakBody ('-' :: after) = [] := by rw [breakBody, if_neg (mt hcond.1 hbody)]
    rw [hnil, List.nil_append] at hrest
    rw [if_neg hbody, hnil, hrest]
    simp

/-- The token that begins with a line break. -/
theorem lexAll_lineBreak (flushed : Array Lexeme) {text : Text} (htext : ∀ c ∈ text, c ≠ terminator)
    (hopening : lineBreak text ≠ []) :
    ∃ rest, text = (lineBreak text ++ breakTail (text.drop (lineBreak text).length)) ++ rest ∧
      (between flushed).lexAll text =
        (between (flushed.push (.ofSegment
          (lineBreak text ++ breakTail (text.drop (lineBreak text).length))
          (classOf (lineBreak text ++ breakTail (text.drop (lineBreak text).length)))))).lexAll
          rest := by
  obtain ⟨hline, mode, hlex, hpush⟩ := lexAll_opening flushed hopening
  have hparts := List.prefix_iff_eq_append.1 (prefix_lineBreak text)
  obtain ⟨rest, hrest⟩ := prefix_breakTail (text.drop (lineBreak text).length)
  refine ⟨rest, by rw [List.append_assoc, hrest, hparts], ?_⟩
  have hafter : ∀ c ∈ text.drop (lineBreak text).length, c ≠ terminator :=
    fun c hc => htext c (List.mem_of_mem_drop hc)
  have hbreak : lineBreak (lineBreak text ++ breakTail (text.drop (lineBreak text).length)) =
      lineBreak text := by
    refine lineBreak_follows
      (?_ : Follows (breakTail (text.drop (lineBreak text).length) ++ rest) _)
      (by rw [hrest, hparts])
    cases breakTail (text.drop (lineBreak text).length) with
    | nil => exact .inr (by simp)
    | cons c tail => exact .inl rfl
  rw [hlex]
  clear hparts hlex
  generalize lineBreak text = opening at *
  generalize text.drop opening.length = after at *
  have hkind := classOf_lineBreak hopening hbreak
  by_cases htabs : tabs after = []
  · have htail : breakTail after = breakBody after := by rw [breakTail, if_pos htabs]
    rw [htail] at hrest hbreak ⊢
    by_cases hhyphen : nextOf after = '-'
    · cases after with
      | nil => exact absurd hhyphen (by decide)
      | cons c after =>
        obtain rfl : c = '-' := hhyphen
        exact lexAll_hyphen hline hopening hafter hpush hbreak hrest
    · -- without a hyphen the line break is bare
      have hbody : breakBody after = [] := by
        apply breakBody_of_head_ne
        cases after with
        | nil => simp
        | cons c after => simpa [nextOf] using hhyphen
      unfold Lexer.afterLineBreak at hpush
      rw [if_neg (head?_of_tabs_eq_nil htabs), if_neg hhyphen] at hpush
      rw [htail, hbody] at hkind
      rw [hbody] at hrest ⊢
      rw [hkind, lexAll_flush rfl hafter hpush, ← hrest]
      simp [Lexeme.ofSegment, hline.all_isWhitespace, TokenClass.lines]
  · have htail : breakTail after = tabs after := by rw [breakTail, if_neg htabs]
    rw [htail] at hrest hkind ⊢
    have htwice : tabs (tabs after) = tabs after := by
      have hend : Follows rest [] := .inr (by simp)
      have := tabs_follows hend (show tabs (tabs after ++ rest) = tabs after by rw [hrest])
      rwa [List.append_nil] at this
    rw [hkind, if_neg htabs, htwice, if_pos htabs]
    exact lexAll_indentation hline hafter hpush htabs hrest

/-! ### Other tokens -/

theorem push_blank (flushed : Array Lexeme) {c : Char} (hterminator : c ≠ terminator)
    (hpair : pairOf? c = none) (hblank : isWhitespace c = true) :
    (between flushed).push c = ⟨.inWhitespace, false, [c], flushed⟩ := by
  have hmark (d : Char) (hd : isWhitespace d = false) : c ≠ d := by
    rintro rfl
    exact absurd hblank (by simp [hd])
  have hbreak (d : Char) (hd : pairOf? d ≠ none) : c ≠ d := by
    rintro rfl
    exact hd hpair
  simp only [push, between, advance, start]
  rw [if_neg hterminator, if_neg (hbreak _ (by decide)), if_neg (hbreak _ (by decide)),
    if_neg (hmark _ rfl), if_neg (hmark _ rfl), if_neg (hmark _ rfl), if_neg (hmark _ rfl),
    if_neg (hmark _ rfl), if_neg (hmark _ rfl), if_neg (hmark _ rfl), if_neg (hmark _ rfl),
    if_pos hblank]
  rfl

theorem push_letter (flushed : Array Lexeme) {c : Char} (hletter : isLetter c = true) :
    (between flushed).push c = ⟨.inWord, false, [c], flushed⟩ := by
  have hother (d : Char) (hd : isLetter d = false) : c ≠ d := by
    rintro rfl
    exact absurd hletter (by simp [hd])
  have hclass : isWhitespace c = false ∧ isPunctuation c = false := by
    simp only [isLetter, Bool.and_eq_true, Bool.not_eq_true'] at hletter
    exact hletter.1
  simp only [push, between, advance, start]
  rw [if_neg (hother _ rfl), if_neg (hother _ rfl), if_neg (hother _ rfl),
    if_neg (hother _ rfl), if_neg (hother _ rfl), if_neg (hother _ rfl), if_neg (hother _ rfl),
    if_neg (hother _ rfl), if_neg (hother _ rfl), if_neg (hother _ rfl), if_neg (hother _ rfl),
    if_neg (by simp [hclass.1]), if_neg (by simp [hclass.2])]
  rfl

theorem classOf_of_head {c : Char} {text : Text} (hpair : pairOf? c = none)
    (hmark : isPunctuation c = false) : classOf (c :: text) = .plainText := by
  have hne (d : Char) (more : Text) (hd : isPunctuation d = true) : c :: text ≠ d :: more := by
    intro h
    rw [List.cons.injEq] at h
    rw [h.1, hd] at hmark
    exact absurd hmark (by decide)
  unfold classOf
  rw [if_neg (by simp [lineBreak, hpair]), if_neg (show c :: text ≠ quote from hne _ _ rfl),
    if_neg (hne _ _ rfl), if_neg (hne _ _ rfl), if_neg (hne _ _ rfl), if_neg (hne _ _ rfl),
    if_neg (hne _ _ rfl), if_neg (hne _ _ rfl), if_neg (hne _ _ rfl), if_neg (hne _ _ rfl)]

theorem isGap_of_isWhitespace {c : Char} (hpair : pairOf? c = none)
    (hblank : isWhitespace c = true) : isGap c = true := by
  have hr : c ≠ '\r' := by rintro rfl; exact absurd hpair (by decide)
  have hn : c ≠ '\n' := by rintro rfl; exact absurd hpair (by decide)
  simp [isGap, hblank, hr, hn]

theorem lexAll_blanks (flushed : Array Lexeme) {c : Char} {text : Text}
    (htext : ∀ d ∈ c :: text, d ≠ terminator) (hpair : pairOf? c = none)
    (hblank : isWhitespace c = true) :
    (between flushed).lexAll (c :: text) = (between (flushed.push
      (.ofSegment ((c :: text).takeWhile isGap) .plainText))).lexAll
        ((c :: text).dropWhile isGap) := by
  have hc := isGap_of_isWhitespace hpair hblank
  have hall : (text.takeWhile isGap).all isWhitespace = true := by
    rw [List.all_eq_true]
    intro d hd
    have := List.all_eq_true.1 (List.all_takeWhile (p := isGap) (l := text)) d hd
    simp only [isGap, Bool.and_eq_true] at this
    exact this.1.1
  rw [lexAll_cons, push_blank flushed (htext c List.mem_cons_self) hpair hblank,
    lexAll_munch .inWhitespace isGap true .plainText 0
      (fun lexer c hmode => of_mode lexer hmode fun _ _ _ => rfl) (by decide)
      (fun d hd => htext d (List.mem_cons_of_mem _ hd)) _ rfl rfl]
  simp [hc, Lexeme.ofSegment, hblank, hall, TokenClass.lines]

theorem lexAll_word (flushed : Array Lexeme) {c : Char} {text : Text}
    (htext : ∀ d ∈ c :: text, d ≠ terminator) (hletter : isLetter c = true) :
    (between flushed).lexAll (c :: text) = (between (flushed.push
      (.ofSegment ((c :: text).takeWhile isLetter) .plainText))).lexAll
        ((c :: text).dropWhile isLetter) := by
  have hblank : isWhitespace c = false := by
    simp only [isLetter, Bool.and_eq_true, Bool.not_eq_true'] at hletter
    exact hletter.1.1
  rw [lexAll_cons, push_letter flushed hletter,
    lexAll_munch .inWord isLetter false .plainText 0
      (fun lexer c hmode => of_mode lexer hmode fun _ _ _ => rfl) (by decide)
      (fun d hd => htext d (List.mem_cons_of_mem _ hd)) _ rfl rfl]
  simp [hletter, Lexeme.ofSegment, hblank, TokenClass.lines]

/-- A mark that can be the first half of a delimiter. -/
theorem lexAll_delimiter (flushed : Array Lexeme) {c : Char} {text : Text}
    (htext : ∀ d ∈ text, d ≠ terminator) (hc : c = '(' ∨ c = '-' ∨ c = '+') :
    (between flushed).lexAll (c :: text) =
      (between (flushed.push (.ofSegment (c :: (text.head?.filter (joins c)).toList)
        (classOf (c :: (text.head?.filter (joins c)).toList))))).lexAll
        (text.drop (text.head?.filter (joins c)).toList.length) := by
  obtain ⟨mode, hpush, hnext⟩ : ∃ mode, (between flushed).push c = ⟨mode, false, [c], flushed⟩ ∧
      ∀ d, (⟨mode, false, [c], flushed⟩ : Lexer).push d =
        if joins c d then between (flushed.push (.ofSegment [c, d] (classOf [c, d])))
        else (⟨mode, false, [c], flushed⟩ : Lexer).flushAndStart d false .plainText 0 := by
    rcases hc with rfl | rfl | rfl
    · refine ⟨.afterParenthesis, rfl, fun d => ?_⟩
      by_cases h1 : d = '-'
      · subst h1; rfl
      · by_cases h2 : d = '+'
        · subst h2; rfl
        · change (if d = '-' then _ else if d = '+' then _ else _) = _
          rw [if_neg h1, if_neg h2, if_neg (by simp [joins, h1, h2])]
    · refine ⟨.afterHyphen, rfl, fun d => ?_⟩
      by_cases h1 : d = ')'
      · subst h1; rfl
      · change (if d = ')' then _ else _) = _
        rw [if_neg h1, if_neg (by simp [joins, h1])]
    · refine ⟨.afterPlus, rfl, fun d => ?_⟩
      by_cases h1 : d = ')'
      · subst h1; rfl
      · change (if d = ')' then _ else _) = _
        rw [if_neg h1, if_neg (by simp [joins, h1])]
  have hterminator : joins c terminator = false := by rcases hc with rfl | rfl | rfl <;> rfl
  have halone : Lexeme.ofSegment [c] (classOf [c]) = ⟨[c], false, .plainText, 0⟩ := by
    rcases hc with rfl | rfl | rfl <;> rfl
  rw [lexAll_cons, hpush]
  have hfail (hjoin : joins c (nextOf text) = false) :
      (⟨mode, false, [c], flushed⟩ : Lexer).lexAll text =
        (between (flushed.push ⟨[c], false, .plainText, 0⟩)).lexAll text := by
    refine lexAll_flush rfl htext ?_
    rw [hnext, hjoin]
    rfl
  cases text with
  | nil => simpa [halone] using hfail hterminator
  | cons d text =>
    cases hjoin : joins c d with
    | true =>
      rw [lexAll_cons, hnext, hjoin]
      simp [Option.filter, hjoin]
    | false =>
      rw [hfail hjoin]
      simp [Option.filter, hjoin, halone]

/-- A mark that is a token by itself. -/
theorem push_mark (flushed : Array Lexeme) {c : Char} (hmark : isPunctuation c = true)
    (hc : c ≠ '(' ∧ c ≠ '-' ∧ c ≠ '+' ∧ c ≠ '\x27') :
    (between flushed).push c = between (flushed.push (.ofSegment [c] (classOf [c]))) ∧
      ∀ d, joins c d = false := by
  obtain ⟨h1, h2, h3, h4⟩ := hc
  refine ⟨?_, fun d => by simp [joins, h1, h2, h3]⟩
  simp only [isPunctuation, punctuation, List.contains_eq_mem, List.mem_cons, List.not_mem_nil,
    or_false, decide_eq_true_eq] at hmark
  rcases hmark with rfl | rfl | rfl | rfl | rfl | rfl | rfl | rfl | rfl | rfl | rfl | rfl | rfl | rfl
  all_goals first | rfl | exact absurd rfl h1 | exact absurd rfl h2 | exact absurd rfl h3 |
    exact absurd rfl h4

/-- Whatever begins with no quote: the lexer takes the first segment as a token. -/
theorem lexAll_segment (flushed : Array Lexeme) {text : Text} (hne : text ≠ [])
    (htext : ∀ c ∈ text, c ≠ terminator) (hquote : text.head? ≠ some '\x27') :
    ∃ rest, text = Segmentation.segment text ++ rest ∧ (between flushed).lexAll text =
      (between (flushed.push (.ofSegment (segment text) (classOf (segment text))))).lexAll rest := by
  cases text with
  | nil => exact absurd rfl hne
  | cons c text =>
    by_cases hopening : lineBreak (c :: text) ≠ []
    · obtain ⟨rest, hrest, hlex⟩ := lexAll_lineBreak flushed htext hopening
      rw [Segmentation.segment, if_pos hopening]
      exact ⟨rest, hrest, hlex⟩
    · have hpair : pairOf? c = none := lineBreak_eq_nil_iff.1 (not_not.1 hopening) c rfl
      rw [Segmentation.segment, if_neg hopening]
      by_cases hblank : isWhitespace c = true
      · have hmark : isPunctuation c = false := by
          cases h : isPunctuation c
          · rfl
          · exfalso
            simp only [isPunctuation, punctuation, List.contains_eq_mem, List.mem_cons,
              List.not_mem_nil, or_false, decide_eq_true_eq] at h
            rcases h with rfl | rfl | rfl | rfl | rfl | rfl | rfl | rfl | rfl | rfl | rfl | rfl |
              rfl | rfl <;> exact absurd hblank (by decide)
        rw [if_pos hblank]
        refine ⟨(c :: text).dropWhile isGap, List.takeWhile_append_dropWhile.symm, ?_⟩
        have hclass : classOf ((c :: text).takeWhile isGap) = .plainText := by
          rw [List.takeWhile_cons, if_pos (isGap_of_isWhitespace hpair hblank)]
          exact classOf_of_head hpair hmark
        rw [lexAll_blanks flushed htext hpair hblank, hclass]
      · rw [if_neg hblank]
        by_cases hletter : isLetter c = true
        · have hmark : isPunctuation c = false := by
            simp only [isLetter, Bool.and_eq_true, Bool.not_eq_true'] at hletter
            exact hletter.1.2
          rw [if_pos hletter]
          refine ⟨(c :: text).dropWhile isLetter, List.takeWhile_append_dropWhile.symm, ?_⟩
          have hclass : classOf ((c :: text).takeWhile isLetter) = .plainText := by
            rw [List.takeWhile_cons, if_pos hletter]
            exact classOf_of_head hpair hmark
          rw [lexAll_word flushed htext hletter, hclass]
        · rw [if_neg hletter]
          have htail : ∀ d ∈ text, d ≠ terminator := fun d hd => htext d (List.mem_cons_of_mem _ hd)
          have hmark : isPunctuation c = true := by
            have := htext c List.mem_cons_self
            simp only [isLetter, Bool.not_eq_true] at hblank hletter
            simpa [hblank, this] using hletter
          by_cases hdelimiter : c = '(' ∨ c = '-' ∨ c = '+'
          · refine ⟨text.drop (text.head?.filter (joins c)).toList.length, ?_,
              lexAll_delimiter flushed htail hdelimiter⟩
            cases text with
            | nil => rfl
            | cons d text => cases hjoin : joins c d <;> simp [Option.filter, hjoin]
          · simp only [not_or] at hdelimiter
            obtain ⟨h1, h2, h3⟩ := hdelimiter
            obtain ⟨hpush, hjoin⟩ := push_mark flushed hmark
              ⟨h1, h2, h3, by simpa using hquote⟩
            have hnone : (text.head?.filter (joins c)).toList = [] := by
              cases text with
              | nil => rfl
              | cons d text => simp [Option.filter, hjoin]
            exact ⟨text, by simp [hnone], by rw [lexAll_cons, hpush, hnone]⟩

theorem segment_quote (text : Text) : Segmentation.segment ('\x27' :: text) = quote := by
  have hjoin (d : Char) : joins '\x27' d = false := by simp [joins]
  have hbreak : lineBreak ('\x27' :: text) = [] := by simp [lineBreak, pairOf?]
  have hblank : isWhitespace '\x27' = false := rfl
  have hletter : isLetter '\x27' = false := rfl
  cases text with
  | nil => rfl
  | cons c text =>
    simp only [Segmentation.segment, hbreak, hblank, hletter]
    simp [Option.filter, hjoin, quote]

theorem segments_quote (text : Text) : segments ('\x27' :: text) = quote :: segments text :=
  segments_append (show quote ≠ [] by simp [quote]) (segment_quote text)

theorem head?_segments_ne_quote {text : Text} (h : text.head? ≠ some '\x27') :
    (segments text).head? ≠ some quote := by
  by_cases hne : text = []
  · simp [hne]
  · obtain ⟨rest, htext, hsegments⟩ := segments_of_ne_nil hne
    rw [hsegments, List.head?_cons]
    intro hquote
    rw [htext, Option.some.inj hquote] at h
    exact h rfl

/-- One or two quotes at the end of a run, and three anywhere: the middle one is plain. -/
theorem lexAll_quotes (flushed : Array Lexeme) {text : Text} (htext : ∀ c ∈ text, c ≠ terminator) :
    ∃ (more : List Lexeme) (rest : Text), rest <:+ text ∧
      (between flushed).lexAll ('\x27' :: text) = (between (flushed ++ more.toArray)).lexAll rest ∧
      lexemes ('\x27' :: text) = more ++ lexemes rest := by
  have hnot {rest : Text} (h : rest.head? ≠ some '\x27') : nextOf rest ≠ '\x27' := by
    cases rest with
    | nil => decide
    | cons c rest => simpa [nextOf] using h
  -- three quotes make a group, two a pair, and one is alone: behind each the classes start over
  by_cases hone : text.head? = some '\x27'
  · obtain ⟨text, rfl⟩ : ∃ rest, text = '\x27' :: rest := by
      cases text with
      | nil => simp at hone
      | cons c text => exact ⟨text, by simpa using hone⟩
    by_cases htwo : text.head? = some '\x27'
    · obtain ⟨text, rfl⟩ : ∃ rest, text = '\x27' :: rest := by
        cases text with
        | nil => simp at htwo
        | cons c text => exact ⟨text, by simpa using htwo⟩
      refine ⟨[.ofSegment quote .singleQuote, .ofSegment quote .plainText,
        .ofSegment quote .singleQuote], text, ⟨['\x27', '\x27'], rfl⟩, ?_, ?_⟩
      · rw [lexAll_cons, lexAll_cons, lexAll_cons]
        rfl
      · have hthree := classesFrom_add_three (segments text) 0
        simp only [lexemes, lexemesFrom, segments_quote, classesFrom, Nat.zero_add,
          Nat.reduceAdd] at hthree ⊢
        rw [hthree]
        rfl
    · refine ⟨[.ofSegment quote .singleQuote, .ofSegment quote .singleQuote], text,
        ⟨['\x27'], rfl⟩, ?_, ?_⟩
      · have hpush : (⟨.afterTwoQuotes, false, ['\x27'],
            flushed.push (.ofSegment quote .singleQuote)⟩ : Lexer).push (nextOf text) =
            (⟨.afterTwoQuotes, false, ['\x27'],
              flushed.push (.ofSegment quote .singleQuote)⟩ : Lexer).flushAndStart (nextOf text)
              false .singleQuote 0 := if_neg (hnot htwo)
        rw [lexAll_cons, lexAll_cons]
        refine (lexAll_flush rfl (fun c hc => htext c (List.mem_cons_of_mem _ hc)) hpush).trans ?_
        rfl
      · have hhead := head?_segments_ne_quote htwo
        have hlast := classesFrom_of_head_ne hhead 2
        simp only [lexemes, lexemesFrom, segments_quote, classesFrom, Nat.zero_add,
          Nat.reduceAdd, hhead, and_false, if_false, if_true, List.head?_cons] at hlast ⊢
        rw [hlast]
        rfl
  · refine ⟨[.ofSegment quote .singleQuote], text, List.suffix_rfl, ?_, ?_⟩
    · have hpush : (⟨.afterQuote, false, ['\x27'], flushed⟩ : Lexer).push (nextOf text) =
          (⟨.afterQuote, false, ['\x27'], flushed⟩ : Lexer).flushAndStart (nextOf text)
            false .singleQuote 0 := if_neg (hnot hone)
      rw [lexAll_cons]
      refine (lexAll_flush rfl htext hpush).trans ?_
      rfl
    · have hlast := classesFrom_of_head_ne (head?_segments_ne_quote hone) 1
      simp only [lexemes, lexemesFrom, segments_quote, classesFrom, Nat.zero_add,
        Nat.zero_mod, zero_ne_one, false_and, if_false, if_true] at hlast ⊢
      rw [hlast]
      rfl

theorem lexemes_of_head_ne {text : Text} (hquote : text.head? ≠ some '\x27') {rest : Text}
    (hne : text ≠ []) (hrest : text = Segmentation.segment text ++ rest) :
    lexemes text = .ofSegment (Segmentation.segment text) (classOf (Segmentation.segment text)) ::
      lexemes rest := by
  obtain ⟨rest', hrest', hsegments⟩ := segments_of_ne_nil hne
  obtain rfl : rest = rest' := List.append_cancel_left (hrest.symm.trans hrest')
  have hfirst : Segmentation.segment text ≠ quote := by
    have := head?_segments_ne_quote hquote
    rw [hsegments, List.head?_cons] at this
    exact fun h => this (by rw [h])
  simp only [lexemes, lexemesFrom, hsegments, classesFrom, if_neg hfirst, List.zipWith_cons_cons]

/-- Between two tokens, the lexer goes on with the lexemes of what is left. -/
theorem lexAll_between (flushed : Array Lexeme) {text : Text} (htext : ∀ c ∈ text, c ≠ terminator) :
    (between flushed).lexAll text = flushed.toList ++ lexemes text := by
  induction hn : text.length using Nat.strong_induction_on generalizing text flushed with
  | _ n ih =>
    cases text with
    | nil => simp [lexemes, lexemesFrom, classesFrom]
    | cons c text =>
      by_cases hquote : c = '\x27'
      · subst hquote
        obtain ⟨more, rest, hsuffix, hlex, hlexemes⟩ :=
          lexAll_quotes flushed (fun d hd => htext d (List.mem_cons_of_mem _ hd))
        have hlt : rest.length < n := by
          have := hsuffix.length_le
          rw [← hn, List.length_cons]
          omega
        have hrest := fun d hd => htext d (List.mem_cons_of_mem _ (hsuffix.mem hd))
        rw [hlex, ih _ hlt _ hrest rfl, hlexemes]
        simp
      · have hhead : (c :: text).head? ≠ some '\x27' := by simpa using hquote
        obtain ⟨rest, hrest, hlex⟩ := lexAll_segment flushed (List.cons_ne_nil c text) htext hhead
        have hpos := List.length_pos_iff.2 (segment_ne_nil (List.cons_ne_nil c text))
        have hlength := congrArg List.length hrest
        rw [List.length_append] at hlength
        have hsub : ∀ d ∈ rest, d ≠ terminator :=
          fun d hd => htext d (by rw [hrest]; exact List.mem_append_right _ hd)
        rw [hlex, ih _ (by omega) _ hsub rfl,
          lexemes_of_head_ne hhead (List.cons_ne_nil c text) hrest]
        simp

/-- The lexer cuts a text into its segments. -/
theorem lex_eq_lexemes {text : Text} (htext : ∀ c ∈ text, c ≠ terminator) :
    lex text = lexemes text := lexAll_between #[] htext

end Lexer

end LiveProse
