import LiveProse.Proofs.Relex.Cut

/-! Relexing against lexing. After any history of edits that fit, the tokens are cut as lexing the
whole text would cut it (`editAll_segments`). Their classes are those of a full lexing up to the first
edit that strands a quote, and not after it (`editAll_kinds_iff`). -/

namespace LiveProse

namespace Relex

open Codepoint Segmentation

/-- Carries an edit out on the tokens of a text. -/
def edit (tokens : TokenSequence) (vocabulary : Vocabulary) (edit : Edit) :
    Except EditOutOfRange (TokenSequence × Vocabulary) :=
  (RelexPlan.make tokens vocabulary edit).map fun
    | none => (tokens, vocabulary)
    | some plan =>
      let (tokens, vocabulary, _) := plan.apply tokens vocabulary
      (tokens, vocabulary)

/-- Carries edits out one after another. -/
def editAll (tokens : TokenSequence) (vocabulary : Vocabulary) (edits : List Edit) :
    Except EditOutOfRange (TokenSequence × Vocabulary) :=
  edits.foldlM (fun (tokens, vocabulary) => Relex.edit tokens vocabulary) (tokens, vocabulary)

/-- The text that edits make of a text. -/
def spliceAll (text : Text) (edits : List Edit) : Text :=
  edits.foldl (fun text edit => edit.splice text) text

/-- Edits whose ranges lie in the text and that put no terminator into it. -/
def Fit : Text → List Edit → Prop
  | _, [] => True
  | text, edit :: edits =>
    (edit.lo ≤ edit.hi ∧ edit.hi ≤ text.length ∧ terminator ∉ edit.text) ∧
      Fit (edit.splice text) edits

/-- The lexeme is one that lexing can cut out, whatever class it is given. -/
def Cuttable (lexeme : Lexeme) : Prop :=
  lexeme.onlyWhitespace = lexeme.text.all isWhitespace ∧ lexeme.lines = (classOf lexeme.text).lines

theorem cuttable_lexemesFrom (quotes : Nat) (texts : List Text) :
    ∀ lexeme ∈ lexemesFrom quotes texts, Cuttable lexeme := by
  induction texts generalizing quotes with
  | nil => simp [lexemesFrom]
  | cons text texts ih =>
    intro lexeme hlexeme
    rw [lexemesFrom, classesFrom_cons, List.zipWith_cons_cons] at hlexeme
    rcases List.mem_cons.1 hlexeme with rfl | hlexeme
    · refine ⟨rfl, ?_⟩
      change TokenClass.lines _ = TokenClass.lines (classOf text)
      split_ifs with hquote
      · rw [hquote]; rfl
      · rw [hquote]; rfl
      · rfl
    · exact ih _ lexeme hlexeme

/-- The tokens are those of lexemes that cut the text into its segments. Their classes are left
open. -/
structure Reads (tokens : TokenSequence) (vocabulary : Vocabulary) (lexemes : List Lexeme)
    (text : Text) : Prop where
  sound : ∀ S, tokens.Sound S
  spells : List.Forall₂ (Token.Spells vocabulary) tokens.toList lexemes
  cuttable : ∀ lexeme ∈ lexemes, Cuttable lexeme
  segments : lexemes.map (·.text) = segments text

theorem reads_empty (vocabulary : Vocabulary) : Reads Sequence.empty vocabulary [] [] :=
  ⟨fun _ => .empty, .nil, by simp, by simp⟩

variable {tokens : TokenSequence} {vocabulary : Vocabulary} {lexemes : List Lexeme} {text : Text}

/-- What tokens and lexemes share, in a row. -/
theorem Reads.map_eq (h : Reads tokens vocabulary lexemes text) {β : Type} {f : Token → β}
    {g : Lexeme → β} (hfg : ∀ token lexeme, Token.Spells vocabulary token lexeme →
      f token = g lexeme) : tokens.toList.map f = lexemes.map g :=
  Token.Spells.map_eq h.spells hfg

theorem Reads.spellings_eq (h : Reads tokens vocabulary lexemes text) :
    TokenSequence.spellings tokens vocabulary = Segmentation.segments text := by
  rw [← h.segments]
  exact h.map_eq fun _ _ hspells => hspells.spelling_eq

theorem Reads.lengths_eq (h : Reads tokens vocabulary lexemes text) :
    TokenSequence.lengths tokens = (Segmentation.segments text).map List.length := by
  rw [← h.segments, List.map_map]
  exact h.map_eq fun _ _ hspells => hspells.codepoints_eq

theorem Reads.total_eq (h : Reads tokens vocabulary lexemes text) :
    tokens.total.codepoints = text.length := by
  have htotal : tokens.total.codepoints = (TokenSequence.lengths tokens).sum :=
    (h.sound Token.codepointSummary).total
  rw [htotal, h.lengths_eq, ← List.length_flatten, flatten_segments]

/-- The plan for an edit that fits: the region of its cut, by ranks. -/
theorem Reads.make_eq (h : Reads tokens vocabulary lexemes text) {edit : Edit}
    (hlo : edit.lo ≤ edit.hi) (hhi : edit.hi ≤ text.length) (hne : edit.isEmpty = false) :
    let region := region (Segmentation.segments text) (cutOf (Segmentation.segments text) edit)
    ∃ plan, RelexPlan.make tokens vocabulary edit = .ok (some plan) ∧
      plan.start = tokens.nth region.start ∧ plan.replaced = region.replaced ∧
      plan.lexemes = region.lexemes := by
  have hlengths := h.lengths_eq
  have hcut : cut tokens vocabulary edit = cutOf (TokenSequence.spellings tokens vocabulary) edit :=
    cut_eq_cutOf (h.sound _) (by rw [h.spellings_eq, hlengths])
      (by rwa [hlengths, ← List.length_flatten, flatten_segments]) hlo
  rw [h.spellings_eq] at hcut
  unfold RelexPlan.make
  rw [h.total_eq, if_neg (by omega), hne]
  simp only [h.spellings_eq, hcut]
  exact ⟨_, rfl, rfl, rfl, rfl⟩

theorem isEmpty_splice {edit : Edit} (h : edit.isEmpty = true) (text : Text) :
    edit.splice text = text := by
  simp only [Edit.isEmpty, Bool.and_eq_true, beq_iff_eq, List.isEmpty_iff] at h
  rw [Edit.splice, h.1, h.2, List.append_nil, List.take_append_drop]

theorem not_strandsQuote_of_isEmpty {edit : Edit} (h : edit.isEmpty = true) (text : Text) :
    ¬StrandsQuote edit text := by
  rintro ⟨-, hquote, c, hc, hloose⟩
  rw [isEmpty_splice h, hquote, Option.some.injEq] at hc
  exact hloose.2.2.2.2 hc.symm

/-- One edit: the tokens come to cut the new text, and classes that were right stay right exactly if
the edit strands no quote. -/
theorem Reads.edit (h : Reads tokens vocabulary lexemes text) (htext : ∀ c ∈ text, c ≠ terminator)
    {edit : Edit} (hlo : edit.lo ≤ edit.hi) (hhi : edit.hi ≤ text.length)
    (hedit : ∀ c ∈ edit.text, c ≠ terminator) :
    ∃ tokens' vocabulary' lexemes', Relex.edit tokens vocabulary edit = .ok (tokens', vocabulary') ∧
      Reads tokens' vocabulary' lexemes' (edit.splice text) ∧
      (lexemes.map (·.kind) = classesFrom 0 (Segmentation.segments text) →
        (lexemes'.map (·.kind) = classesFrom 0 (Segmentation.segments (edit.splice text)) ↔
          ¬StrandsQuote edit text)) := by
  cases hne : edit.isEmpty with
  | true =>
    refine ⟨tokens, vocabulary, lexemes, ?_, by rwa [isEmpty_splice hne], fun hkinds => ?_⟩
    · rw [Relex.edit, RelexPlan.make, h.total_eq, if_neg (by omega), hne]
      rfl
    · rw [isEmpty_splice hne]
      exact iff_of_true hkinds (not_strandsQuote_of_isEmpty hne text)
  | false =>
    obtain ⟨plan, hplan, hstart, hreplaced, hmore⟩ := h.make_eq hlo hhi hne
    -- one region is lexed again, counted in tokens by the plan and in segments by the cut
    have hcut : (cutOf (Segmentation.segments text) edit).Fits (Segmentation.segments text) :=
      cutOf_fits hlo (by rwa [flatten_segments]) (by rwa [flatten_segments]) hedit
    obtain ⟨start, replaced, more, hregion⟩ : ∃ start replaced more,
      region (Segmentation.segments text) (cutOf (Segmentation.segments text) edit) =
        ⟨start, replaced, more⟩ := ⟨_, _, _, rfl⟩
    rw [hregion] at hstart hreplaced hmore
    dsimp only at hstart hreplaced hmore
    obtain ⟨-, -, hstop, hlexemes, -⟩ := region_lexemes htext hcut hregion
    have hsegments := segments_region htext hcut hregion
    have hkinds := classes_region_iff htext hcut hregion
    rw [cutOf_spliced _ hlo (by rwa [flatten_segments]), flatten_segments] at hsegments hkinds
    rw [strandsQuote_cutOf_iff hlo hhi] at hkinds
    have hcount : (Segmentation.segments text).length = tokens.entries.length := by
      rw [← h.spellings_eq]
      simp [TokenSequence.spellings]
    obtain ⟨after, vocabulary', outcome, happly⟩ : ∃ after vocabulary' outcome,
      plan.apply tokens vocabulary = (after, vocabulary', outcome) := ⟨_, _, _, rfl⟩
    obtain ⟨⟨inserted, hcarried⟩, -⟩ :=
      RelexPlan.carried_apply h.sound hstart (by omega) vocabulary happly
    refine ⟨after, vocabulary', lexemes.take start ++ (more ++ lexemes.drop (start + replaced)),
      ?_, ⟨hcarried.sound, ?_, ?_, ?_⟩, fun hold => ?_⟩
    · rw [Relex.edit, hplan]
      simp only [Except.map, happly]
    · have htokens : after.toList = tokens.toList.take start ++
          (inserted ++ tokens.toList.drop (start + replaced)) := by
        have hzip : (outcome.inserted.zip inserted).map (·.2) = inserted :=
          List.map_snd_zip hcarried.length_inserted.ge
        rw [Sequence.toList, hcarried.entries, hreplaced, List.map_append, List.map_append, hzip,
          List.map_take, List.map_drop]
        rfl
      have hold := h.spells.imp fun _ _ hspells => Token.Spells.mono hcarried.grows hspells
      rw [htokens, ← hmore]
      exact List.rel_append (List.forall₂_take _ hold)
        (List.rel_append hcarried.spells (List.forall₂_drop _ hold))
    · intro lexeme hlexeme
      rcases List.mem_append.1 hlexeme with hlexeme | hlexeme
      · exact h.cuttable lexeme (List.mem_of_mem_take hlexeme)
      · rcases List.mem_append.1 hlexeme with hlexeme | hlexeme
        · exact cuttable_lexemesFrom 0 _ lexeme (hlexemes ▸ List.mem_append_left _ hlexeme)
        · exact h.cuttable lexeme (List.mem_of_mem_drop hlexeme)
    · rw [hsegments, ← h.segments]
      simp
    · rw [← hkinds, ← hold]
      simp

/-! ### Histories -/

theorem ne_terminator_splice (htext : ∀ c ∈ text, c ≠ terminator) {edit : Edit}
    (hedit : terminator ∉ edit.text) : ∀ c ∈ edit.splice text, c ≠ terminator := by
  intro c hc
  rcases List.mem_append.1 hc with hc | hc
  · rcases List.mem_append.1 hc with hc | hc
    · exact htext c (List.mem_of_mem_take hc)
    · rintro rfl
      exact hedit hc
  · exact htext c (List.mem_of_mem_drop hc)

theorem editAll_cons {edit : Edit} {edits : List Edit} {after : TokenSequence × Vocabulary}
    (h : Relex.edit tokens vocabulary edit = .ok after) :
    editAll tokens vocabulary (edit :: edits) = editAll after.1 after.2 edits := by
  rw [editAll, List.foldlM_cons]
  simp only [h]
  rfl

/-- A history of edits that fit can be carried out, and the tokens come to cut the text. -/
theorem Reads.editAll (h : Reads tokens vocabulary lexemes text)
    (htext : ∀ c ∈ text, c ≠ terminator) {edits : List Edit} (hfit : Fit text edits) :
    ∃ tokens' vocabulary' lexemes', Relex.editAll tokens vocabulary edits = .ok (tokens', vocabulary') ∧
      Reads tokens' vocabulary' lexemes' (spliceAll text edits) ∧
      ∀ c ∈ spliceAll text edits, c ≠ terminator := by
  induction edits generalizing tokens vocabulary lexemes text with
  | nil => exact ⟨tokens, vocabulary, lexemes, rfl, h, htext⟩
  | cons edit edits ih =>
    obtain ⟨⟨hlo, hhi, hedit⟩, hrest⟩ := hfit
    obtain ⟨tokens', vocabulary', lexemes', hstep, hreads, -⟩ :=
      h.edit htext hlo hhi fun c hc => by rintro rfl; exact hedit hc
    obtain ⟨last, words, final, hall, hfinal⟩ := ih hreads (ne_terminator_splice htext hedit) hrest
    exact ⟨last, words, final, by rw [editAll_cons hstep, hall], hfinal⟩

/-- After any history of edits that fit, the tokens' texts, whether they are only whitespace, and
their line counts are those of lexing the whole text. -/
theorem editAll_segments (vocabulary : Vocabulary) {edits : List Edit} (hfit : Fit [] edits) :
    ∃ tokens vocabulary', editAll Sequence.empty vocabulary edits = .ok (tokens, vocabulary') ∧
      tokens.toList.map (fun token =>
          (token.spelling vocabulary', token.onlyWhitespace, token.lines)) =
        (Lexer.lex (spliceAll [] edits)).map fun lexeme =>
          (lexeme.text, lexeme.onlyWhitespace, lexeme.lines) := by
  obtain ⟨tokens, vocabulary', lexemes, hall, hreads, htext⟩ :=
    (reads_empty vocabulary).editAll (by simp) hfit
  refine ⟨tokens, vocabulary', hall, ?_⟩
  have hspells : ∀ token lexeme, Token.Spells vocabulary' token lexeme →
      (token.spelling vocabulary', token.onlyWhitespace, token.lines) =
        (lexeme.text, lexeme.onlyWhitespace, lexeme.lines) := by
    intro token lexeme hspells
    rw [hspells.spelling_eq]
    obtain ⟨word, -, rfl⟩ := hspells
    rfl
  -- what can be cut out is told by its text
  have hcut (all : List Lexeme) (hall : ∀ lexeme ∈ all, Cuttable lexeme) :
      all.map (fun lexeme => (lexeme.text, lexeme.onlyWhitespace, lexeme.lines)) =
        (all.map (·.text)).map fun text => (text, text.all isWhitespace, (classOf text).lines) := by
    rw [List.map_map]
    refine List.map_congr_left fun lexeme hlexeme => ?_
    obtain ⟨hblank, hlines⟩ := hall lexeme hlexeme
    simp only [Function.comp, hblank, hlines]
  rw [hreads.map_eq hspells, Lexer.lex_eq_lexemes htext, Segmentation.lexemes,
    hcut _ hreads.cuttable, hcut _ (cuttable_lexemesFrom 0 _), hreads.segments, map_text_lexemesFrom]

/-- Three quotes typed one by two, and a word put in front. -/
theorem editAll_segments_quotes :
    Fit [] [.insertion 0 ['\x27'], .insertion 1 ['\x27', '\x27'], .insertion 0 ['a']] ∧
    ∃ tokens vocabulary', editAll Sequence.empty {}
        [.insertion 0 ['\x27'], .insertion 1 ['\x27', '\x27'], .insertion 0 ['a']] =
          .ok (tokens, vocabulary') ∧
      tokens.toList.map (fun token =>
          (token.spelling vocabulary', token.onlyWhitespace, token.lines)) =
        [(['a'], false, 0), (['\x27'], false, 0), (['\x27'], false, 0), (['\x27'], false, 0)] := by
  have hfit : Fit [] [.insertion 0 ['\x27'], .insertion 1 ['\x27', '\x27'], .insertion 0 ['a']] := by
    simp [Fit, Edit.insertion, Edit.splice, terminator]
  exact ⟨hfit, editAll_segments {} hfit⟩

/-! ### Classes -/

/-- The classes of tokens, as their effects tell them. -/
theorem Reads.effects_iff (h : Reads tokens vocabulary lexemes text)
    (htext : ∀ c ∈ text, c ≠ terminator) :
    tokens.toList.map (·.effect) = (Lexer.lex text).map (fun lexeme => .single lexeme.kind) ↔
      lexemes.map (·.kind) = classesFrom 0 (Segmentation.segments text) := by
  have hsingle (all : List Lexeme) : all.map (fun lexeme => TokenEffect.single lexeme.kind) =
      (all.map (·.kind)).map .single := by
    rw [List.map_map]
    rfl
  rw [h.map_eq fun _ _ hspells => hspells.effect_eq, hsingle, hsingle, Lexer.lex_eq_lexemes htext,
    Segmentation.lexemes, map_kind_lexemesFrom]
  exact (List.map_injective_iff.2 fun _ _ => TokenEffect.single.inj).eq_iff

/-- The classes of the tokens are those of lexing the whole text, after every edit of a history. -/
def KeepsKinds (tokens : TokenSequence) (vocabulary : Vocabulary) (text : Text) (edits : List Edit) :
    Prop :=
  ∀ front, front <+: edits → ∃ tokens' vocabulary',
    Relex.editAll tokens vocabulary front = .ok (tokens', vocabulary') ∧
      tokens'.toList.map (·.effect) =
        (Lexer.lex (spliceAll text front)).map fun lexeme => .single lexeme.kind

theorem Reads.keepsKinds_iff (h : Reads tokens vocabulary lexemes text)
    (htext : ∀ c ∈ text, c ≠ terminator) {edits : List Edit} (hfit : Fit text edits)
    (hkinds : lexemes.map (·.kind) = classesFrom 0 (Segmentation.segments text)) :
    KeepsKinds tokens vocabulary text edits ↔
      ∀ front edit, front ++ [edit] <+: edits → ¬StrandsQuote edit (spliceAll text front) := by
  induction edits generalizing tokens vocabulary lexemes text with
  | nil =>
    refine iff_of_true (fun front hfront => ?_) fun front edit hfront => ?_
    · obtain rfl := List.prefix_nil.1 hfront
      exact ⟨tokens, vocabulary, rfl, (h.effects_iff htext).2 hkinds⟩
    · exact absurd (List.prefix_nil.1 hfront) (by simp)
  | cons edit edits ih =>
    obtain ⟨⟨hlo, hhi, hedit⟩, hrest⟩ := hfit
    obtain ⟨tokens', vocabulary', lexemes', hstep, hreads, hiff⟩ :=
      h.edit htext hlo hhi fun c hc => by rintro rfl; exact hedit hc
    have htext' := ne_terminator_splice htext hedit
    replace hiff := hiff hkinds
    constructor
    · intro hkeeps
      have hfirst : ¬StrandsQuote edit text := by
        obtain ⟨last, words, hlast, heffects⟩ := hkeeps [edit] (by simp)
        rw [editAll_cons hstep] at hlast
        obtain ⟨rfl, rfl⟩ := Prod.mk.inj (Except.ok.inj hlast)
        exact hiff.1 ((hreads.effects_iff htext').1 heffects)
      have hothers := (ih hreads htext' hrest (hiff.2 hfirst)).1 fun front hfront => by
        have := hkeeps (edit :: front) (List.cons_prefix_cons.2 ⟨rfl, hfront⟩)
        rwa [editAll_cons hstep] at this
      intro front other hfront
      cases front with
      | nil =>
        obtain ⟨rfl, -⟩ := List.cons_prefix_cons.1 hfront
        exact hfirst
      | cons first front =>
        obtain ⟨rfl, hothersFront⟩ := List.cons_prefix_cons.1 hfront
        exact hothers front other hothersFront
    · intro hnone front hfront
      cases front with
      | nil => exact ⟨tokens, vocabulary, rfl, (h.effects_iff htext).2 hkinds⟩
      | cons first front =>
        obtain ⟨rfl, hothersFront⟩ := List.cons_prefix_cons.1 hfront
        have hfirst := hnone [] first (by simp)
        rw [editAll_cons hstep]
        refine (ih hreads htext' hrest (hiff.2 hfirst)).2 (fun before other hbefore => ?_) front
          hothersFront
        exact hnone (first :: before) other (List.cons_prefix_cons.2 ⟨rfl, hbefore⟩)

/-- The classes of the tokens stay those of lexing the whole text exactly as long as no edit strands
a quote. -/
theorem editAll_kinds_iff (vocabulary : Vocabulary) {edits : List Edit} (hfit : Fit [] edits) :
    KeepsKinds Sequence.empty vocabulary [] edits ↔
      ∀ front edit, front ++ [edit] <+: edits → ¬StrandsQuote edit (spliceAll [] front) :=
  (reads_empty vocabulary).keepsKinds_iff (by simp) hfit (by simp [classesFrom])

/-- A history that strands a quote: a bracket in place of the last of three. -/
def stranding : List Edit := [.insertion 0 ['\x27', '\x27', '\x27'], ⟨2, 3, ['[']⟩]

theorem fit_stranding : Fit [] stranding := by
  simp [stranding, Fit, Edit.insertion, Edit.splice, terminator]

theorem editAll_kinds_iff_stranding :
    Fit [] stranding ∧ ¬KeepsKinds Sequence.empty {} [] stranding := by
  refine ⟨fit_stranding, fun h => ?_⟩
  refine (editAll_kinds_iff {} fit_stranding).1 h [.insertion 0 ['\x27', '\x27', '\x27']] _
    List.prefix_rfl ⟨rfl, rfl, '[', rfl, by simp [LooseMark, isPunctuation, punctuation]⟩

/-- The second quote keeps the class that it had before the third one went. -/
theorem stranding_diverges :
    ¬∀ edits, Fit [] edits → KeepsKinds Sequence.empty {} [] edits := by
  intro h
  obtain ⟨tokens, vocabulary', hall, heffects⟩ := h stranding fit_stranding stranding List.prefix_rfl
  have hrun : (editAll Sequence.empty {} stranding).map (fun after => after.1.toList.map (·.effect)) =
      .ok [.single .singleQuote, .single .plainText, .single .leftBracket] := by
    rfl
  rw [hall] at hrun
  have hlex : (Lexer.lex (spliceAll [] stranding)).map (fun lexeme => TokenEffect.single lexeme.kind) =
      [.single .singleQuote, .single .singleQuote, .single .leftBracket] := by
    rfl
  rw [hlex] at heffects
  rw [Except.map, heffects] at hrun
  exact absurd hrun (by decide)

end Relex

end LiveProse
