import LiveProse.Proofs.Lexical.Boundaries

/-! What the lexer takes in comes out again: the lexemes spell out whatever text it is given, but for the
terminators (`flatten_lex`). A terminator in the middle of a text ends a token early, so what is in progress
may be less than the mode lets one expect (`InProgress`). A documentation break that fails is the only case
in which codepoints are taken twice; that this is done with breaks inhibited keeps another one from failing
meanwhile (`Quiet`). -/

namespace LiveProse

open Codepoint

namespace Text

/-- The text without the terminators that it holds. -/
def plain (text : Text) : Text := text.filter (· ≠ terminator)

theorem plain_append (first next : Text) : plain (first ++ next) = plain first ++ plain next :=
  List.filter_append ..

theorem plain_singleton {c : Char} (hc : c ≠ terminator) : plain [c] = [c] := by
  simp [plain, hc]

theorem plain_of_ne {text : Text} (h : ∀ c ∈ text, c ≠ terminator) : plain text = text :=
  List.filter_eq_self.2 fun c hc => decide_eq_true (h c hc)

theorem ne_terminator_plain (text : Text) : ∀ c ∈ text.plain, c ≠ terminator :=
  fun _ hc => of_decide_eq_true (List.mem_filter.1 hc).2

end Text

namespace Lexer

open Segmentation

variable {lexer before after : Lexer} {c : Char}

/-- Everything that was taken: the texts of the lexemes and what is in progress. -/
def spelled (lexer : Lexer) : Text :=
  (lexer.flushed.toList.map (·.text)).flatten ++ lexer.pending.reverse

@[simp] theorem spelled_take (lexer : Lexer) (c : Char) (mode : LexerMode) :
    (lexer.take c mode).spelled = lexer.spelled ++ [c] := by
  simp [spelled, take]

@[simp] theorem spelled_flush (lexer : Lexer) (onlyWhitespace : Bool) (kind : TokenClass)
    (lines : Nat) : (lexer.flush onlyWhitespace kind lines).spelled = lexer.spelled := by
  simp [spelled, flush]

@[simp] theorem spelled_takeAndFlush (lexer : Lexer) (c : Char) (kind : TokenClass) :
    (lexer.takeAndFlush c kind).spelled = lexer.spelled ++ [c] := by
  simp [takeAndFlush]

/-- What can be in progress in each mode, last codepoint first. It may be less than a token, because a
terminator leaves the mode as it is. -/
def InProgress : LexerMode → List Char → Prop
  | .undecided, pending => pending = []
  | .afterReturn, pending | .afterFeed, pending | .afterNewline, pending =>
    ∀ c ∈ pending, pairOf? c ≠ none
  | .inBreak expected, pending => OnLine expected ∧ ∃ opening consumed,
      (∀ c ∈ opening, pairOf? c ≠ none) ∧ OnLine consumed ∧ pending = (opening ++ consumed).reverse
  | _, _ => True

def Tidy (lexer : Lexer) : Prop := InProgress lexer.mode lexer.pending

/-- No documentation break is in progress. -/
def Unbroken (lexer : Lexer) : Prop := ∀ expected, lexer.mode ≠ .inBreak expected

/-- What a codepoint does when no documentation break is in progress. A terminator leaves nothing in
progress; any other codepoint comes to be in progress, or ends a token. -/
inductive Moves (lexer : Lexer) (c : Char) : Lexer → Prop
  | rests {after : Lexer} (hc : c = terminator) (hspelled : after.spelled = lexer.spelled)
      (hmode : after.mode = lexer.mode) (hpending : after.pending = [])
      (hinhibited : after.inhibited = lexer.inhibited) : Moves lexer c after
  | grows {before : Lexer} {mode : LexerMode} (hc : c ≠ terminator)
      (hspelled : before.spelled = lexer.spelled) (hprogress : InProgress mode (c :: before.pending))
      (hmode : c ≠ '-' → ∀ expected, mode ≠ .inBreak expected)
      (hinhibited : c ≠ '-' → before.inhibited = lexer.inhibited) : Moves lexer c (before.take c mode)
  | ends {before : Lexer} {kind : TokenClass} (hc : c ≠ terminator)
      (hspelled : before.spelled = lexer.spelled)
      (hinhibited : c ≠ '-' → before.inhibited = lexer.inhibited) :
      Moves lexer c (before.takeAndFlush c kind)

theorem moves_start (hspelled : before.spelled = lexer.spelled) (hmode : before.mode = lexer.mode)
    (hpending : before.pending = []) (hinhibited : c ≠ '-' → before.inhibited = lexer.inhibited) :
    Moves lexer c (before.start c) := by
  have hgrows (hc : c ≠ terminator) {mode : LexerMode} (hprogress : InProgress mode [c])
      (hunbroken : ∀ expected, mode ≠ .inBreak expected) : Moves lexer c (before.take c mode) :=
    .grows hc hspelled (by rwa [hpending]) (fun _ => hunbroken) hinhibited
  have hends (hc : c ≠ terminator) (kind : TokenClass) : Moves lexer c (before.takeAndFlush c kind) :=
    .ends hc hspelled hinhibited
  unfold start
  refine iteInduction (fun hc => ?_) fun hc => ?_
  · exact .rests hc hspelled hmode hpending (hinhibited (by rw [hc]; decide))
  refine iteInduction (fun hfeed => hgrows hc (by simp [InProgress, hfeed]; decide) nofun) fun _ => ?_
  refine iteInduction (fun hreturn => hgrows hc (by simp [InProgress, hreturn]; decide) nofun) fun _ => ?_
  repeat' refine iteInduction (fun _ => ?_) fun _ => ?_
  all_goals first | exact hends hc _ | exact hgrows hc trivial nofun

theorem moves_flushAndStart (lexer : Lexer) (c : Char) (onlyWhitespace : Bool) (kind : TokenClass)
    (lines : Nat) : Moves lexer c (lexer.flushAndStart c onlyWhitespace kind lines) :=
  moves_start (spelled_flush ..) rfl rfl fun _ => rfl

theorem moves_afterLineBreak (hopening : ∀ d ∈ lexer.pending, pairOf? d ≠ none) (c : Char) :
    Moves lexer c (lexer.afterLineBreak c) := by
  unfold afterLineBreak
  split_ifs with htab hhyphen hinhibited
  · exact .grows (by rw [htab]; decide) rfl trivial (fun _ => nofun) fun _ => rfl
  · exact moves_start (spelled_flush ..) rfl rfl fun hne => absurd hhyphen hne
  · refine .grows (by rw [hhyphen]; decide) rfl ⟨onLine_breakLine, lexer.pending.reverse, ['-'], ?_, ?_, ?_⟩
      (fun hne => absurd hhyphen hne) fun _ => rfl
    · simpa using hopening
    · exact onLine_cons.2 ⟨by decide, by simp [OnLine]⟩
    · simp [hhyphen]
  · exact moves_flushAndStart ..

theorem moves_afterBreak (lexer : Lexer) (c : Char) {pair : Option Char} (hpair : pair ≠ some terminator) :
    Moves lexer c (lexer.afterBreak c pair) := by
  unfold afterBreak
  split_ifs with htab hsecond
  · exact .grows (by rw [htab]; decide) rfl trivial (fun _ => nofun) fun _ => rfl
  · exact .grows (by rintro rfl; exact hpair hsecond) rfl trivial (fun _ => nofun) fun _ => rfl
  · exact moves_flushAndStart ..

/-- Unless a documentation break is in progress, a codepoint begins a token, or grows or ends the one in
progress. -/
theorem moves_advance (htidy : lexer.Tidy) (hunbroken : lexer.Unbroken) (c : Char) :
    Moves lexer c (lexer.advance c) := by
  have hgrows (hc : c ≠ terminator) {mode : LexerMode} (hprogress : InProgress mode (c :: lexer.pending))
      (hmode : ∀ expected, mode ≠ .inBreak expected) : Moves lexer c (lexer.take c mode) :=
    .grows hc rfl hprogress (fun _ => hmode) fun _ => rfl
  have hends (hc : c ≠ terminator) (kind : TokenClass) : Moves lexer c (lexer.takeAndFlush c kind) :=
    .ends hc rfl fun _ => rfl
  have hflush := moves_flushAndStart lexer c
  unfold Tidy at htidy
  unfold advance
  split <;> rename_i hmode <;> rw [hmode] at htidy
  case h_1 => exact moves_start rfl rfl htidy fun _ => rfl
  case h_2 =>
    refine iteInduction (fun hquote => ?_) fun _ => hflush ..
    exact .grows (by rw [hquote]; decide) (spelled_flush ..) trivial (fun _ => nofun) fun _ => rfl
  case h_3 =>
    refine iteInduction (fun hquote => ?_) fun _ => hflush ..
    exact .ends (by rw [hquote]; decide) (spelled_flush ..) fun _ => rfl
  case h_4 =>
    refine iteInduction (fun hgap => hgrows ?_ trivial nofun) fun _ => hflush ..
    rintro rfl
    exact absurd hgap (by decide)
  case h_5 | h_6 =>
    refine iteInduction (fun hsecond => hgrows (by rw [hsecond]; decide) ?_ nofun) fun _ =>
      moves_afterLineBreak htidy c
    exact List.forall_mem_cons.2 ⟨by rw [hsecond]; decide, htidy⟩
  case h_7 => exact moves_afterLineBreak htidy c
  case h_9 =>
    refine iteInduction (fun hletter => hgrows ?_ trivial nofun) fun _ => hflush ..
    rintro rfl
    exact absurd hletter (by decide)
  case h_10 =>
    refine iteInduction (fun hhyphen => hends (by rw [hhyphen]; decide) _) fun _ => ?_
    exact iteInduction (fun hplus => hends (by rw [hplus]; decide) _) fun _ => hflush ..
  case h_11 | h_12 =>
    exact iteInduction (fun hclose => hends (by rw [hclose]; decide) _) fun _ => hflush ..
  case h_13 => exact absurd hmode (hunbroken _)
  case h_14 | h_15 | h_16 => exact moves_afterBreak _ _ (by decide)
  all_goals
    exact iteInduction (fun htab => hgrows (by rw [htab]; decide) trivial nofun) fun _ => hflush ..

namespace Moves

theorem spelled (h : Moves lexer c after) : after.spelled = lexer.spelled ++ Text.plain [c] := by
  cases h with
  | rests hc hspelled => simp [hspelled, hc, Text.plain]
  | grows hc hspelled | ends hc hspelled => simp [hspelled, Text.plain_singleton hc]

theorem tidy (h : Moves lexer c after) (hunbroken : lexer.Unbroken) : after.Tidy := by
  cases h with
  | rests hc hspelled hmode hpending =>
    rw [Tidy, hpending, hmode]
    cases hmode : lexer.mode with
    | inBreak expected => exact absurd hmode (hunbroken expected)
    | undecided => rfl
    | afterReturn | afterFeed | afterNewline => exact List.forall_mem_nil _
    | _ => trivial
  | grows hc hspelled hprogress => exact hprogress
  | ends => rfl

theorem pending_of_terminator (h : Moves lexer terminator after) : after.pending = [] := by
  cases h with
  | rests hc hspelled hmode hpending => exact hpending
  | grows hc | ends hc => exact absurd rfl hc

/-- Only a hyphen can bring a documentation break into progress or lift the inhibition of breaks. -/
theorem of_ne_hyphen (h : Moves lexer c after) (hc : c ≠ '-') (hunbroken : lexer.Unbroken) :
    after.Unbroken ∧ after.inhibited = lexer.inhibited := by
  cases h with
  | rests _ _ hmode _ hinhibited => exact ⟨fun expected => hmode ▸ hunbroken expected, hinhibited⟩
  | grows _ _ _ hmode hinhibited => exact ⟨hmode hc, hinhibited hc⟩
  | ends _ _ hinhibited => exact ⟨nofun, hinhibited hc⟩

end Moves

/-! ### Documentation breaks that fail -/

/-- No documentation break begins with the next codepoint of the line. -/
def Quiet (lexer : Lexer) : Prop :=
  Steady lexer.mode ∨ (lexer.inhibited = true ∧ lexer.Unbroken)

theorem Quiet.unbroken (h : lexer.Quiet) : lexer.Unbroken := by
  rcases h with hsteady | ⟨-, hunbroken⟩
  · intro expected hmode
    rw [hmode] at hsteady
    exact hsteady
  · exact hunbroken

theorem Quiet.advance (h : lexer.Quiet) (htidy : lexer.Tidy) (hc : pairOf? c = none) :
    (lexer.advance c).Quiet := by
  rcases h with hsteady | ⟨hinhibited, hunbroken⟩
  · exact .inl (steady_advance hsteady hc)
  by_cases hhyphen : c = '-'
  · subst hhyphen
    cases hmode : lexer.mode with
    | inBreak expected => exact absurd hmode (hunbroken expected)
    | afterReturn | afterFeed | afterNewline =>
      -- the inhibition turns the hyphen into a token of its own
      have hadvance : lexer.advance '-' =
          { lexer with inhibited := false }.flushAndStart '-' true .bareNewline 1 := by
        simp [Lexer.advance, hmode, afterLineBreak, hinhibited]
      exact .inl (hadvance ▸ trivial)
    | _ => exact .inl (steady_advance (by rw [hmode]; trivial) hc)
  · have hafter := (moves_advance htidy hunbroken c).of_ne_hyphen hhyphen hunbroken
    exact .inr ⟨hafter.2.trans hinhibited, hafter.1⟩

/-- Codepoints are taken one after another as long as no documentation break comes into progress. -/
theorem spelled_foldl_advance (P : Lexer → Prop) (text : Text)
    (hunbroken : ∀ lexer, P lexer → lexer.Unbroken)
    (hstep : ∀ c ∈ text, ∀ lexer : Lexer, lexer.Tidy → P lexer → P (lexer.advance c))
    (htidy : lexer.Tidy) (h : P lexer) :
    (text.foldl advance lexer).Tidy ∧ P (text.foldl advance lexer) ∧
      (text.foldl advance lexer).spelled = lexer.spelled ++ text.plain := by
  induction text generalizing lexer with
  | nil => exact ⟨htidy, h, (List.append_nil _).symm⟩
  | cons c text ih =>
    have hmoves := moves_advance htidy (hunbroken lexer h) c
    obtain ⟨hdone, hkept, hspelled⟩ := ih (fun d hd => hstep d (List.mem_cons_of_mem _ hd))
      (hmoves.tidy (hunbroken lexer h)) (hstep c List.mem_cons_self lexer htidy h)
    refine ⟨hdone, hkept, ?_⟩
    rw [List.foldl_cons, hspelled, hmoves.spelled, List.append_assoc, ← Text.plain_append]
    rfl

/-- What taking a codepoint comes to. -/
structure Takes (lexer : Lexer) (c : Char) (after : Lexer) : Prop where
  tidy : after.Tidy
  spelled : after.spelled = lexer.spelled ++ Text.plain [c]
  ended : c = terminator → after.pending = []

theorem Moves.takes (h : Moves lexer c after) (hunbroken : lexer.Unbroken) : Takes lexer c after :=
  ⟨h.tidy hunbroken, h.spelled, by rintro rfl; exact h.pending_of_terminator⟩

/-- The codepoints of a break that fails are taken again as they were. -/
theorem takes_abandonBreak (htidy : lexer.Tidy) {expected : Text} (hmode : lexer.mode = .inBreak expected)
    (c : Char) : Takes lexer c (lexer.abandonBreak c) := by
  unfold Tidy at htidy
  rw [hmode] at htidy
  obtain ⟨-, opening, consumed, hopening, hconsumed, hpending⟩ := htidy
  have hplain : Text.plain (opening ++ consumed) = opening ++ consumed := by
    refine Text.plain_of_ne (List.forall_mem_append.2 ⟨?_, fun d hd => (hconsumed d hd).2⟩)
    rintro d hd rfl
    exact hopening _ hd (by decide)
  -- the line break leaves the breaks inhibited, and nothing on the line begins one
  obtain ⟨hopened, hinhibited, hspelled⟩ := spelled_foldl_advance
    (fun lexer => lexer.inhibited = true ∧ lexer.Unbroken) opening (fun _ h => h.2)
    (fun d hd lexer htidy h => by
      have hhyphen : d ≠ '-' := by
        rintro rfl
        exact hopening _ hd (by decide)
      have hafter := (moves_advance htidy h.2 d).of_ne_hyphen hhyphen h.2
      exact ⟨hafter.2.trans h.1, hafter.1⟩)
    (show Tidy { lexer with mode := .undecided, inhibited := true, pending := [] } from rfl)
    ⟨rfl, nofun⟩
  obtain ⟨hdone, hquiet, hspelled'⟩ := spelled_foldl_advance Quiet consumed (fun _ => Quiet.unbroken)
    (fun d hd lexer htidy h => h.advance htidy (hconsumed d hd).1) hopened (.inr hinhibited)
  have htakes := (moves_advance hdone hquiet.unbroken c).takes hquiet.unbroken
  rw [← List.foldl_append] at htakes hspelled'
  have hsame : (List.foldl advance { lexer with mode := .undecided, inhibited := true, pending := [] }
      (opening ++ consumed)).spelled = lexer.spelled := by
    rw [hspelled', hspelled, List.append_assoc, ← Text.plain_append, hplain]
    simp [Lexer.spelled, hpending]
  unfold abandonBreak
  rw [hpending, List.reverse_reverse]
  exact ⟨htakes.tidy, htakes.spelled.trans (by rw [hsame]), htakes.ended⟩

theorem takes_continueBreak? {expected : Text} (htidy : lexer.Tidy)
    (hmode : lexer.mode = .inBreak expected) (h : lexer.continueBreak? c expected = some after) :
    Takes lexer c after := by
  unfold Tidy at htidy
  rw [hmode] at htidy
  obtain ⟨hexpected, opening, consumed, hopening, hconsumed, hpending⟩ := htidy
  have htake (hc : c ≠ terminator) {mode : LexerMode} (hprogress : InProgress mode (c :: lexer.pending)) :
      Takes lexer c (lexer.take c mode) :=
    ⟨hprogress, by rw [spelled_take, Text.plain_singleton hc], fun heq => absurd heq hc⟩
  cases expected with
  | nil =>
    rw [continueBreak?] at h
    split_ifs at h with hfeed hreturn <;> obtain rfl := Option.some.inj h
    · exact htake (by rw [hfeed]; decide) trivial
    · exact htake (by rw [hreturn]; decide) trivial
  | cons next rest =>
    obtain ⟨hnext, hrest⟩ := onLine_cons.1 hexpected
    rw [continueBreak?] at h
    split_ifs at h with heq
    obtain rfl := Option.some.inj h
    subst heq
    refine htake hnext.2 ⟨hrest, opening, consumed ++ [c], hopening, hconsumed.append_singleton hnext, ?_⟩
    simp [hpending]

/-- Whatever codepoint is taken, it comes to stand behind those taken before, unless it is the terminator. -/
theorem takes_push (htidy : lexer.Tidy) (c : Char) : Takes lexer c (lexer.push c) := by
  unfold push
  split
  · rename_i expected hmode
    cases hcontinue : lexer.continueBreak? c expected with
    | some after => exact takes_continueBreak? htidy hmode hcontinue
    | none => exact takes_abandonBreak htidy hmode c
  · rename_i hunbroken
    exact (moves_advance htidy hunbroken c).takes hunbroken

/-! ### Texts -/

theorem spelled_pushAll (htidy : lexer.Tidy) (text : Text) :
    (lexer.pushAll text).Tidy ∧ (lexer.pushAll text).spelled = lexer.spelled ++ text.plain := by
  induction text generalizing lexer with
  | nil => exact ⟨htidy, (List.append_nil _).symm⟩
  | cons c text ih =>
    have htakes := takes_push htidy c
    obtain ⟨hdone, hspelled⟩ := ih htakes.tidy
    refine ⟨hdone, ?_⟩
    rw [show lexer.pushAll (c :: text) = (lexer.push c).pushAll text from rfl, hspelled, htakes.spelled,
      List.append_assoc, ← Text.plain_append]
    rfl

/-- The terminator ends the token in progress. -/
theorem flatten_push_terminator (htidy : lexer.Tidy) :
    ((lexer.push terminator).flushed.toList.map (·.text)).flatten = lexer.spelled := by
  have htakes := takes_push htidy terminator
  have hspelled := htakes.spelled
  rw [spelled, htakes.ended rfl] at hspelled
  simpa [Text.plain] using hspelled

/-- Where a codepoint begins a token, the lexemes spell out what came before it. -/
theorem flatten_of_beganToken (htidy : lexer.Tidy) (hc : c ≠ terminator)
    (hbegan : (lexer.push c).beganToken = true) :
    ((lexer.push c).flushed.toList.map (·.text)).flatten = lexer.spelled := by
  have hspelled := (takes_push htidy c).spelled
  have hlength : (lexer.push c).pending.length = 1 := by
    simp only [beganToken, Bool.and_eq_true, beq_iff_eq] at hbegan
    exact hbegan.1.1
  obtain ⟨d, hpending⟩ := List.length_eq_one_iff.1 hlength
  rw [Text.plain_singleton hc, spelled, hpending] at hspelled
  exact (List.append_inj' hspelled rfl).1

/-- The lexemes of a text make up the text, but for the terminators in it. -/
theorem flatten_lex (text : Text) : ((lex text).map (·.text)).flatten = text.plain := by
  obtain ⟨htidy, hspelled⟩ := spelled_pushAll (show Tidy {} from rfl) text
  rw [lex, finish, flatten_push_terminator htidy, hspelled]
  rfl

end Lexer

end LiveProse
