import LiveProse.Relex
import LiveProse.Proofs.Sequence.Positions

/-! Carrying a plan out. A range of tokens makes way for the tokens of some lexemes (`Carried`), every
other token keeps its handle, and no name of an old token is given to a new one. The vocabulary only
grows, so the tokens that stay are spelled as they were. -/

namespace LiveProse

/-- A sum of tokens counts their codepoints. -/
def Token.codepointSummary : Summary Token where
  Holds sum tokens := sum.codepoints = (tokens.map (·.codepoints)).sum
  neutral := rfl
  single value := by simp
  combine h h' := by
    rw [List.map_append, List.sum_append, ← h, ← h']
    rfl
  insert _ h := Bool.noConfusion h

/-- The token was made of the lexeme. -/
def Token.Spells (vocabulary : Vocabulary) (token : Token) (lexeme : Lexeme) : Prop :=
  ∃ word, vocabulary.texts[word.index]? = some lexeme.text ∧ token =
    ⟨lexeme.text.length, lexeme.lines, some word, lexeme.onlyWhitespace, .single lexeme.kind⟩

namespace Vocabulary

theorem texts_intern_grow (vocabulary : Vocabulary) (text : Text) :
    vocabulary.texts <+: (vocabulary.intern text).1.texts := by
  unfold intern
  split
  · exact List.prefix_rfl
  · exact List.prefix_append _ _

theorem getElem?_intern (vocabulary : Vocabulary) (text : Text) :
    (vocabulary.intern text).1.texts[(vocabulary.intern text).2.index]? = some text := by
  unfold intern
  split
  · rename_i word hword
    obtain ⟨index, hindex, rfl⟩ := Option.map_eq_some_iff.1 hword
    rw [List.idxOf?, List.findIdx?_eq_some_iff_getElem] at hindex
    obtain ⟨hlt, heq, -⟩ := hindex
    rw [List.getElem?_eq_getElem hlt, beq_iff_eq.1 heq]
  · simp

end Vocabulary

namespace Token.Spells

variable {vocabulary vocabulary' : Vocabulary} {token : Token} {lexeme : Lexeme}

theorem mono (hgrows : vocabulary.texts <+: vocabulary'.texts) (h : Spells vocabulary token lexeme) :
    Spells vocabulary' token lexeme := by
  obtain ⟨word, hword, rfl⟩ := h
  obtain ⟨hlt, -⟩ := List.getElem?_eq_some_iff.1 hword
  refine ⟨word, ?_, rfl⟩
  obtain ⟨more, hmore⟩ := hgrows
  rw [← hmore, List.getElem?_append_left hlt, hword]

theorem ofLexeme (vocabulary : Vocabulary) (lexeme : Lexeme) :
    Spells (Token.ofLexeme vocabulary lexeme).1 (Token.ofLexeme vocabulary lexeme).2 lexeme :=
  ⟨_, vocabulary.getElem?_intern lexeme.text, rfl⟩

theorem spelling_eq (h : Spells vocabulary token lexeme) : token.spelling vocabulary = lexeme.text := by
  obtain ⟨word, hword, rfl⟩ := h
  simp [spelling, Vocabulary.lookup, hword]

theorem codepoints_eq (h : Spells vocabulary token lexeme) : token.codepoints = lexeme.text.length := by
  obtain ⟨word, -, rfl⟩ := h
  rfl

theorem effect_eq (h : Spells vocabulary token lexeme) : token.effect = .single lexeme.kind := by
  obtain ⟨word, -, rfl⟩ := h
  rfl

/-- Tokens and lexemes in a row share whatever each token shares with its lexeme. -/
theorem map_eq {tokens : List Token} {lexemes : List Lexeme}
    (h : List.Forall₂ (Spells vocabulary) tokens lexemes) {β : Type} {f : Token → β} {g : Lexeme → β}
    (hfg : ∀ token lexeme, Spells vocabulary token lexeme → f token = g lexeme) :
    tokens.map f = lexemes.map g := by
  have hall : List.Forall₂ (· = ·) (tokens.map f) (lexemes.map g) :=
    List.forall₂_map_left_iff.2 (List.forall₂_map_right_iff.2 (h.imp hfg))
  rwa [List.forall₂_eq_eq_eq] at hall

end Token.Spells

namespace RelexPlan

variable {tokens : TokenSequence}

/-! ### Removal -/

/-- Removals take out as many tokens from a rank on and leave the position there. While tokens are
only taken out, no name of an old one comes back. -/
theorem eraseFrom_nth (h : ∀ S, tokens.Sound S) {rank count : Nat}
    (hcount : rank + count ≤ tokens.entries.length) {after : TokenSequence} {stop : Cursor}
    (hafter : eraseFrom tokens (tokens.nth rank) count = (after, stop)) :
    (∀ S, after.Sound S) ∧
      after.entries = tokens.entries.take rank ++ tokens.entries.drop (rank + count) ∧
      stop = after.nth rank ∧ ∀ old, tokens.Shrinks old → after.Shrinks old := by
  induction count generalizing tokens with
  | zero =>
    obtain ⟨rfl, rfl⟩ := Prod.mk.inj hafter
    exact ⟨h, by simp, rfl, fun _ hold => hold⟩
  | succ count ih =>
    have hsound := h Token.codepointSummary
    have hrank : rank < tokens.entries.length := by omega
    obtain ⟨hentries, hnext⟩ := hsound.erase_nth hrank
    have hsound' (S : Summary Token) : (tokens.erase (tokens.nth rank)).1.Sound S :=
      (h S).erase hrank
    have hcursor : (tokens.erase (tokens.nth rank)).2 =
        (tokens.erase (tokens.nth rank)).1.nth rank := by
      rw [hnext, hsound.nth_eq, (hsound' Token.codepointSummary).nth_eq, hsound.handles_erase hrank,
        List.getElem?_eraseIdx_of_ge le_rfl]
    have hlength : (tokens.erase (tokens.nth rank)).1.entries.length = tokens.entries.length - 1 := by
      rw [hentries, List.length_eraseIdx_of_lt hrank]
    rw [eraseFrom] at hafter
    dsimp only at hafter
    rw [hcursor] at hafter
    obtain ⟨hdone, hdrop, hstop, hshrinks⟩ := ih hsound' (by omega) hafter
    refine ⟨hdone, ?_, hstop, fun old hold => hshrinks old (hold.erase hsound hrank)⟩
    have htake : ((tokens.entries.eraseIdx rank).take rank) = tokens.entries.take rank := by
      rw [List.eraseIdx_eq_take_drop_succ, List.take_append_of_le_length (by simp; omega),
        List.take_take, Nat.min_self]
    have hrest : (tokens.entries.eraseIdx rank).drop (rank + count) =
        tokens.entries.drop (rank + (count + 1)) := by
      rw [List.eraseIdx_eq_take_drop_succ, List.drop_append, List.length_take,
        List.drop_eq_nil_of_le (by simp), List.drop_drop, List.nil_append]
      congr 1
      omega
    rw [hdrop, hentries, htake, hrest]

/-! ### Insertion -/

/-- Insertions put the tokens of the lexemes before a rank, under names that are not old. -/
theorem insertAll_nth (h : ∀ S, tokens.Sound S) {rank : Nat} (hrank : rank ≤ tokens.entries.length)
    {vocabulary vocabulary' : Vocabulary} {lexemes : List Lexeme} {after : TokenSequence}
    {handles : List Handle}
    (hafter : insertAll tokens vocabulary (tokens.nth rank) lexemes = (after, vocabulary', handles)) :
    (∀ S, after.Sound S) ∧ vocabulary.texts <+: vocabulary'.texts ∧
      (∃ more : List Token, handles.length = more.length ∧
        List.Forall₂ (Token.Spells vocabulary') more lexemes ∧
        after.entries = tokens.entries.take rank ++ (handles.zip more ++ tokens.entries.drop rank)) ∧
      tokens.nth rank = after.nth (rank + handles.length) ∧
      ∀ old, tokens.Retires old → after.Retires old ∧ ∀ handle ∈ handles, handle ∉ old := by
  induction lexemes generalizing tokens vocabulary rank handles with
  | nil =>
    obtain ⟨rfl, rfl, rfl⟩ := by simpa [insertAll] using hafter
    exact ⟨h, List.prefix_rfl, ⟨[], rfl, .nil, by simp⟩, rfl, fun _ hold => ⟨hold, by simp⟩⟩
  | cons lexeme lexemes ih =>
    obtain ⟨middle, token, htoken⟩ : ∃ middle token,
      Token.ofLexeme vocabulary lexeme = (middle, token) := ⟨_, _, rfl⟩
    obtain ⟨inserted, handle, hinsert⟩ : ∃ inserted handle,
      tokens.insert (tokens.nth rank) token = (inserted, handle) := ⟨_, _, rfl⟩
    obtain ⟨last, words, rest, hrest⟩ : ∃ last words rest,
      insertAll inserted middle (tokens.nth rank) lexemes = (last, words, rest) := ⟨_, _, _, rfl⟩
    obtain ⟨rfl, rfl, rfl⟩ : last = after ∧ words = vocabulary' ∧ handle :: rest = handles := by
      simpa [insertAll, htoken, hinsert, hrest] using hafter
    have hspells : Token.Spells middle token lexeme := by
      simpa [htoken] using Token.Spells.ofLexeme vocabulary lexeme
    have hgrows : vocabulary.texts <+: middle.texts := by
      obtain rfl : (vocabulary.intern lexeme.text).1 = middle := congrArg Prod.fst htoken
      exact vocabulary.texts_intern_grow lexeme.text
    have hsound := h Token.codepointSummary
    have hinserted : (tokens.insert (tokens.nth rank) token).1 = inserted := congrArg Prod.fst hinsert
    obtain rfl : tokens.nextName = handle :=
      (Sequence.insert_snd tokens (tokens.nth rank) token).symm.trans (congrArg Prod.snd hinsert)
    have hcursor := hsound.nth_insert hrank token
    have htake := Sequence.take_insert hsound hrank token
    have hdrop := Sequence.drop_insert hsound hrank token
    have hlength := Sequence.length_insert hsound hrank token
    have hsound' (S : Summary Token) := (h S).insert hrank token
    have hretires (old : List Handle) (hold : tokens.Retires old) := hold.insert (tokens.nth rank) token
    rw [hinserted] at hcursor htake hdrop hlength hsound' hretires
    rw [← hcursor] at hrest
    obtain ⟨hdone, hwords, ⟨more, hmore, hspelled, hall⟩, hstop, hold⟩ :=
      ih hsound' (by omega) hrest
    refine ⟨hdone, hgrows.trans hwords, ⟨token :: more, by simp [hmore],
      .cons (hspells.mono hwords) hspelled, ?_⟩, ?_, fun old hretired => ⟨?_, ?_⟩⟩
    · rw [hall, htake, hdrop]
      simp
    · rw [← hcursor, hstop, List.length_cons]
      congr 1
      omega
    · exact (hold old (hretires old hretired)).1
    · intro name hmem
      rcases List.mem_cons.1 hmem with rfl | hmem
      · exact hretired.nextName_not_mem
      · exact (hold old (hretires old hretired)).2 name hmem

/-! ### Both -/

/-- What carrying a plan out does: `count` tokens from the rank `start` on make way for the tokens of
the lexemes. -/
structure Carried (tokens : TokenSequence) (vocabulary : Vocabulary) (start count : Nat)
    (lexemes : List Lexeme) (after : TokenSequence) (vocabulary' : Vocabulary)
    (outcome : RelexOutcome) (more : List Token) : Prop where
  sound : ∀ S, after.Sound S
  grows : vocabulary.texts <+: vocabulary'.texts
  length_inserted : outcome.inserted.length = more.length
  spells : List.Forall₂ (Token.Spells vocabulary') more lexemes
  entries : after.entries = tokens.entries.take start ++
    (outcome.inserted.zip more ++ tokens.entries.drop (start + count))
  start_eq : outcome.start = after.nth start
  stop_eq : outcome.stop = after.nth (start + more.length)
  fresh : ∀ handle ∈ outcome.inserted, handle ∉ tokens.handles

theorem carried_apply (h : ∀ S, tokens.Sound S) {plan : RelexPlan} {start : Nat}
    (hstart : plan.start = tokens.nth start) (hcount : start + plan.replaced ≤ tokens.entries.length)
    (vocabulary : Vocabulary) {after : TokenSequence} {vocabulary' : Vocabulary}
    {outcome : RelexOutcome} (hafter : plan.apply tokens vocabulary = (after, vocabulary', outcome)) :
    (∃ more, Carried tokens vocabulary start plan.replaced plan.lexemes after vocabulary' outcome
      more) ∧ outcome.before = plan.before ∧ outcome.oldAfter = plan.oldAfter := by
  obtain ⟨erased, stop, herased⟩ : ∃ erased stop,
    eraseFrom tokens plan.start plan.replaced = (erased, stop) := ⟨_, _, rfl⟩
  obtain ⟨done, words, inserted, hdone⟩ : ∃ done words inserted,
    insertAll erased vocabulary stop plan.lexemes = (done, words, inserted) := ⟨_, _, _, rfl⟩
  simp only [apply, herased, hdone, Prod.mk.injEq] at hafter
  obtain ⟨rfl, rfl, rfl⟩ := hafter
  rw [hstart] at herased
  obtain ⟨hsound, hentries, rfl, hshrinks⟩ := eraseFrom_nth h hcount herased
  have hlength : erased.entries.length = tokens.entries.length - plan.replaced := by
    rw [hentries]
    simp
    omega
  have hfront : (tokens.entries.take start).length = start := by
    rw [List.length_take]
    omega
  have htake : erased.entries.take start = tokens.entries.take start := by
    rw [hentries, List.take_append_of_le_length hfront.ge, List.take_of_length_le hfront.le]
  have hdrop : erased.entries.drop start = tokens.entries.drop (start + plan.replaced) := by
    rw [hentries, List.drop_append, hfront, Nat.sub_self, List.drop_eq_nil_of_le hfront.le]
    rfl
  obtain ⟨hsound', hgrows, ⟨more, hmore, hspells, hall⟩, hstop, hold⟩ :=
    insertAll_nth hsound (by omega) hdone
  rw [htake, hdrop] at hall
  refine ⟨⟨more, hsound', hgrows, hmore, hspells, hall, ?_, by rw [← hmore]; exact hstop, ?_⟩, rfl, rfl⟩
  · cases inserted with
    | nil =>
      dsimp only
      rw [List.head?_nil, Option.none_or, hstop]
      rfl
    | cons handle inserted =>
      obtain ⟨token, more, rfl⟩ : ∃ token rest, more = token :: rest :=
        List.exists_cons_of_ne_nil (by rintro rfl; simp at hmore)
      have hkeys : ((tokens.entries.take start).map (·.1)).length = start := by
        rw [List.length_map, hfront]
      rw [(hsound' Token.codepointSummary).nth_eq, Sequence.handles, hall, List.map_append,
        List.getElem?_append_right hkeys.le, hkeys, Nat.sub_self]
      rfl
  · have hnamed := (h Token.codepointSummary).named
    exact (hold tokens.handles (hshrinks _ hnamed.shrinks).toRetires).2

end RelexPlan

end LiveProse
