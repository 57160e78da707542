import LiveProse.Proofs.Highlight.Runs
import LiveProse.Proofs.Relex.Bounds
import LiveProse.Proofs.Relex.Convergence

/-! What an edit tells a client about its colours. The client has spliced them along with the text. Where
the sums of the tokens tell the states that the tokens lead to, the walk begins in the right state and
stops where the old states and the new ones meet, so that the colours on both sides are right already; in
between it gives every codepoint its code. -/

namespace LiveProse

open TokenSequence

/-! ### Widths -/

/-- The number of codepoints in a row of tokens. -/
def width (row : List (Handle × Token)) : ℕ := ((row.map (·.2)).map (·.codepoints)).sum

@[simp] theorem width_nil : width [] = 0 := rfl

@[simp] theorem width_cons (entry : Handle × Token) (row : List (Handle × Token)) :
    width (entry :: row) = entry.2.codepoints + width row := rfl

@[simp] theorem width_append (row more : List (Handle × Token)) :
    width (row ++ more) = width row + width more := by simp [width]

theorem HighlightSupport.length_codes_row (support : HighlightSupport) (before : LexicalState)
    (row : List (Handle × Token)) : (support.codes before (row.map (·.2))).length = width row :=
  support.length_codes before _

namespace TokenSequence

variable {tokens : TokenSequence} {front row back : List (Handle × Token)} {handle : Handle}
variable {token : Token} {index : ℕ}

/-- The token of a handle holds the codepoint at an index. -/
def Spans (tokens : TokenSequence) (handle : Handle) (index : ℕ) : Prop :=
  ∃ token, tokens.get? handle = some token ∧ offset tokens (some handle) ≤ index ∧
    index < offset tokens (some handle) + token.codepoints

theorem offset_nth (h : tokens.Sound Token.codepointSummary) (hentries : tokens.entries = front ++ back) :
    offset tokens (tokens.nth front.length) = width front := by
  have hsum : (tokens.sumBefore (tokens.nth front.length)).codepoints = _ :=
    h.sumBefore (by simp [hentries])
  rw [offset, hsum, toList_eq hentries, List.take_left' (List.length_map _)]
  rfl

theorem spans_iff (h : tokens.Sound Token.codepointSummary)
    (hentries : tokens.entries = front ++ (handle, token) :: back) :
    tokens.Spans handle index ↔ width front ≤ index ∧ index < width front + token.codepoints := by
  have hget : tokens.get? handle = some token := by
    rw [Sequence.get?_eq_lookup]
    exact (lookup_eq_some_iff_mem h.named.nodup_handles).2 (by simp [hentries])
  have hnth : tokens.nth front.length = some handle := by
    rw [h.nth_eq, Sequence.handles, hentries]
    simp
  simp only [Spans, hget, ← hnth, offset_nth h hentries, Option.some.injEq, exists_eq_left']

/-- Some token of a row holds a codepoint exactly if it lies between the two ends of the row. -/
theorem exists_spans_iff (h : tokens.Sound Token.codepointSummary)
    (hentries : tokens.entries = front ++ (row ++ back)) :
    (∃ handle ∈ row.map (·.1), tokens.Spans handle index) ↔
      width front ≤ index ∧ index < width front + width row := by
  induction row generalizing front with
  | nil => simp
  | cons entry row ih =>
    obtain ⟨handle, token⟩ := entry
    have hhead : tokens.Spans handle index ↔ _ := spans_iff h hentries
    have hrest := @ih (front ++ [(handle, token)]) (by simp [hentries])
    rw [width_append, width_cons, width_nil] at hrest
    rw [List.map_cons, List.exists_mem_cons_iff, hhead, hrest, width_cons]
    dsimp only
    omega

end TokenSequence

/-! ### The walk after an edit -/

/-- The last state beside some tokens is the one that they lead to. -/
theorem getLast?_withStates (before : LexicalState) (tokens : List Token) :
    ((withStates before tokens).getLast?.map (·.2.2)).getD before = walk before tokens := by
  induction tokens generalizing before with
  | nil => rfl
  | cons token rest ih =>
    have hwalk : walk before (token :: rest) = walk (token.stateAfter before) rest := rfl
    rw [withStates, List.getLast?_cons, hwalk, ← ih]
    cases (withStates (token.stateAfter before) rest).getLast? <;> rfl

/-- The client comes to show the new text: its spliced colours, changed as the events say, are those of
the new text, and the range that it clears is the one of the inserted tokens and the restated ones. -/
structure RelexOutcome.Recolours (outcome : RelexOutcome) (edit : Edit) (tokens after : TokenSequence)
    (support : HighlightSupport) : Prop where
  patches : (rehighlight after outcome support).foldl Colours.patch
    ((colours tokens support).splice edit) = colours after support
  removes : rehighlight after outcome support = [] ∨ ∃ lo hi, ∃ runs : List HighlightRun, lo < hi ∧
    rehighlight after outcome support = .remove lo hi :: runs.map .add ∧
      ∀ index, (lo ≤ index ∧ index < hi) ↔ ∃ handle,
        (handle ∈ outcome.inserted ∨ handle ∈ (outcome.restated after).map (·.1)) ∧
          after.Spans handle index

/-- The rows of tokens on which an edit works: those in front of it, the ones that make way, the ones that
come, and those behind. It takes place between the two ends of the ones that make way, and the states are
those that the tokens lead to. -/
structure Edit.Reworks (edit : Edit) (tokens after : TokenSequence) (outcome : RelexOutcome)
    (front doomed inserted kept : List (Handle × Token)) : Prop where
  sound : tokens.Sound Token.codepointSummary
  sound_after : after.Sound Token.codepointSummary
  entries : tokens.entries = front ++ (doomed ++ kept)
  entries_after : after.entries = front ++ (inserted ++ kept)
  handles : outcome.inserted = inserted.map (·.1)
  start_eq : outcome.start = after.nth front.length
  stop_eq : outcome.stop = after.nth (front.length + inserted.length)
  before_eq : outcome.before = walk .initial (front.map (·.2))
  oldAfter_eq : outcome.oldAfter = walk outcome.before (doomed.map (·.2))
  newAfter_eq : stateBefore after outcome.stop = walk outcome.before (inserted.map (·.2))
  lo_le : width front ≤ edit.lo
  le : edit.lo ≤ edit.hi
  le_hi : edit.hi ≤ width front + width doomed
  width_eq : width inserted + (edit.hi - edit.lo) = width doomed + edit.text.length

namespace Edit.Reworks

variable {edit : Edit} {tokens after : TokenSequence} {outcome : RelexOutcome}
variable {front doomed inserted kept : List (Handle × Token)}
variable (W : edit.Reworks tokens after outcome front doomed inserted kept)
include W

/-- The tokens behind the edit that are in another state now. -/
theorem restated_eq : outcome.restated after =
    differingTokens outcome.oldAfter (walk outcome.before (inserted.map (·.2))) kept := by
  have hentries : after.entries = (front ++ inserted) ++ kept := by
    rw [W.entries_after, List.append_assoc]
  have hrank : after.rank outcome.stop = (front ++ inserted).length := by
    rw [W.stop_eq, W.sound_after.rank_nth (by simp [hentries]), List.length_append]
  rw [RelexOutcome.restated, W.newAfter_eq, hrank, hentries, List.drop_left]

/-- The events of an edit give the inserted and the restated tokens their codes. -/
theorem rehighlight_eq (support : HighlightSupport) :
    let codes := support.codes outcome.before ((inserted ++ outcome.restated after).map (·.2))
    ∃ runs, Tiles (width front) runs codes ∧ rehighlight after outcome support =
      if codes = [] then []
      else .remove (width front) (width front + codes.length) :: runs.map .add := by
  have hrank : after.rank outcome.start = front.length := by
    rw [W.start_eq, W.sound_after.rank_nth (by simp [W.entries_after])]
  have hstop : after.rank outcome.stop = front.length + inserted.length := by
    rw [W.stop_eq, W.sound_after.rank_nth (by simp [W.entries_after])]
  have hlist : after.toList.drop front.length = inserted.map (·.2) ++ kept.map (·.2) := by
    rw [toList_eq W.entries_after, List.drop_left' (List.length_map _), List.map_append]
  have htake : (inserted.map (·.2) ++ kept.map (·.2)).take inserted.length = inserted.map (·.2) :=
    List.take_left' (List.length_map _)
  have hdrop : (inserted.map (·.2) ++ kept.map (·.2)).drop inserted.length = kept.map (·.2) :=
    List.drop_left' (List.length_map _)
  have hoffset : offset after outcome.start = width front := by
    rw [W.start_eq, offset_nth W.sound_after W.entries_after]
  -- the runs of the relexed tokens, and then of the restated ones
  have hshows := (((RunBuilder.shows_start (width front)).pushTokens support outcome.before
    (inserted.map (·.2))).pushTokens support (walk outcome.before (inserted.map (·.2)))
      ((outcome.restated after).map (·.2)))
  rw [List.nil_append, ← support.codes_append, ← List.map_append] at hshows
  rw [W.restated_eq, ← pushRestated_eq, ← W.restated_eq] at hshows
  refine ⟨_, hshows.tiles_close, ?_⟩
  unfold rehighlight
  by_cases hnone : outcome.start.isNone
  · -- at the end of the text there is nothing to colour
    rw [if_pos hnone]
    rw [W.start_eq, W.sound_after.nth_eq, Option.isNone_iff_eq_none, List.getElem?_eq_none_iff,
      Sequence.length_handles, W.entries_after, List.length_append, List.length_append] at hnone
    obtain rfl : inserted = [] := List.length_eq_zero_iff.1 (by omega)
    obtain rfl : kept = [] := List.length_eq_zero_iff.1 (by omega)
    rw [if_pos (by rw [W.restated_eq]; rfl)]
  · have hposition := hshows.1
    simp only [hnone, hoffset, hrank, hstop, Nat.add_sub_cancel_left, hlist, htake, hdrop,
      getLast?_withStates, Bool.false_eq_true, if_false]
    rw [hposition]
    simp only [Nat.add_eq_left, List.length_eq_zero_iff]
    rfl

/-- The range that is cleared is the one that the inserted and the restated tokens take up. -/
theorem removed_iff (index : ℕ) :
    (∃ handle, (handle ∈ outcome.inserted ∨ handle ∈ (outcome.restated after).map (·.1)) ∧
      after.Spans handle index) ↔
        width front ≤ index ∧
          index < width front + width (inserted ++ outcome.restated after) := by
  obtain ⟨back, hback⟩ := differingTokens_append outcome.oldAfter
    (walk outcome.before (inserted.map (·.2))) kept
  rw [← W.restated_eq] at hback
  have hentries : after.entries = front ++ ((inserted ++ outcome.restated after) ++ back) := by
    rw [W.entries_after, List.append_assoc, ← hback]
  rw [← exists_spans_iff W.sound_after hentries, List.map_append, W.handles]
  simp only [List.mem_append]

/-- The events of an edit turn the spliced colours of the old text into those of the new one. -/
theorem patches (support : HighlightSupport) :
    (rehighlight after outcome support).foldl Colours.patch ((colours tokens support).splice edit) =
      colours after support := by
  obtain ⟨back, hback⟩ := differingTokens_append outcome.oldAfter
    (walk outcome.before (inserted.map (·.2))) kept
  have hmet := walk_differingTokens outcome.oldAfter (walk outcome.before (inserted.map (·.2))) kept
    hback
  obtain ⟨runs, hruns, hevents⟩ := W.rehighlight_eq support
  rw [← W.restated_eq] at hback hmet
  generalize outcome.restated after = moved at hback hmet hruns hevents
  have hentries : tokens.entries = front ++ ((doomed ++ moved) ++ back) := by
    rw [W.entries, List.append_assoc, ← hback]
  have hentries' : after.entries = front ++ ((inserted ++ moved) ++ back) := by
    rw [W.entries_after, List.append_assoc, ← hback]
  -- behind the restated tokens the old states are the new ones
  have hsame : support.codes (walk outcome.before ((doomed ++ moved).map (·.2))) (back.map (·.2)) =
      support.codes (walk outcome.before ((inserted ++ moved).map (·.2))) (back.map (·.2)) := by
    cases back with
    | nil => rfl
    | cons entry back =>
      rw [List.map_append, walk_append, ← W.oldAfter_eq, hmet (List.cons_ne_nil entry back),
        ← walk_append, ← List.map_append]
  rw [colours_rows W.sound hentries, colours_rows W.sound_after hentries', ← W.before_eq, hsame]
  have hlength (before : LexicalState) (row : List (Handle × Token)) :
      ((support.codes before (row.map (·.2))).map some).length = width row := by
    rw [List.length_map, support.length_codes_row]
  obtain ⟨middle, hsplice, hmiddle⟩ := Colours.splice_append
    ((support.codes .initial (front.map (·.2))).map some)
    ((support.codes outcome.before ((doomed ++ moved).map (·.2))).map some)
    ((support.codes (walk outcome.before ((inserted ++ moved).map (·.2))) (back.map (·.2))).map some)
    (by rw [hlength]; exact W.lo_le) W.le (by
      rw [hlength, hlength, width_append]
      exact W.le_hi.trans (by omega))
  rw [hlength, width_append] at hmiddle
  have hwidth := W.width_eq
  rw [hsplice, hevents]
  refine Colours.patch_events hruns (hlength _ _) ?_
  rw [support.length_codes_row, width_append]
  omega

theorem recolours (support : HighlightSupport) : outcome.Recolours edit tokens after support := by
  obtain ⟨runs, hruns, hevents⟩ := W.rehighlight_eq support
  refine ⟨W.patches support, ?_⟩
  rw [hevents]
  split_ifs with hempty
  · exact .inl rfl
  · refine .inr ⟨_, _, runs, ?_, rfl, fun index => ?_⟩
    · exact Nat.lt_add_of_pos_right (List.length_pos_iff.2 hempty)
    · rw [W.removed_iff index, support.length_codes_row]

end Edit.Reworks

/-! ### Edits of a text -/

namespace Relex

open Codepoint Segmentation

variable {tokens : TokenSequence} {vocabulary : Vocabulary} {lexemes : List Lexeme} {text : Text}

theorem Reads.isSingle (h : Reads tokens vocabulary lexemes text) :
    ∀ token ∈ tokens.toList, token.IsSingle := by
  intro token htoken
  obtain ⟨index, hindex, rfl⟩ := List.getElem_of_mem htoken
  exact (h.spells.get hindex (h.spells.length_eq ▸ hindex)).isSingle

theorem Reads.stateBefore_nth (h : Reads tokens vocabulary lexemes text)
    (hrange : InRange tokens.toList) {front back : List (Handle × Token)}
    (hentries : tokens.entries = front ++ back) :
    stateBefore tokens (tokens.nth front.length) = walk .initial (front.map (·.2)) := by
  rw [TokenSequence.stateBefore_nth (h.sound _)
    (fun token htoken => h.isSingle token (List.mem_of_mem_take htoken)) (by simp [hentries])
    (hrange.take _), toList_eq hentries, List.take_left' (List.length_map _)]

theorem Reads.width_take (h : Reads tokens vocabulary lexemes text) (rank : ℕ) :
    width (tokens.entries.take rank) = (((Segmentation.segments text).map List.length).take rank).sum := by
  rw [← h.lengths_eq, lengths, Sequence.toList, width, List.map_take, List.map_take]

theorem Reads.width_entries (h : Reads tokens vocabulary lexemes text) :
    width tokens.entries = text.length := by
  have hwidth := h.width_take tokens.entries.length
  have hlengths := congrArg List.length h.lengths_eq
  rw [lengths, List.length_map, Sequence.length_toList] at hlengths
  rwa [List.take_length, hlengths, List.take_length, ← List.length_flatten, flatten_segments]
    at hwidth

theorem length_splice {edit : Edit} (hlo : edit.lo ≤ edit.hi) (hhi : edit.hi ≤ text.length) :
    (edit.splice text).length + (edit.hi - edit.lo) = text.length + edit.text.length := by
  rw [Edit.splice, List.length_append, List.length_append, List.length_take, List.length_drop]
  omega

/-- An edit that fits takes place between the two ends of the tokens that are lexed again. -/
theorem Reads.region_between (h : Reads tokens vocabulary lexemes text)
    (htext : ∀ c ∈ text, c ≠ terminator) {edit : Edit} (hlo : edit.lo ≤ edit.hi)
    (hhi : edit.hi ≤ text.length) (hedit : ∀ c ∈ edit.text, c ≠ terminator) :
    let region := region (Segmentation.segments text) (cutOf (Segmentation.segments text) edit)
    region.start + region.replaced ≤ tokens.entries.length ∧
      width (tokens.entries.take region.start) ≤ edit.lo ∧
        edit.hi ≤ width (tokens.entries.take (region.start + region.replaced)) := by
  have hcut : (cutOf (Segmentation.segments text) edit).Fits (Segmentation.segments text) :=
    cutOf_fits hlo (by rwa [flatten_segments]) (by rwa [flatten_segments]) hedit
  obtain ⟨hfirst, hresume, hcount, -⟩ := region_lexemes htext hcut rfl
  have hinside : edit.hi ≤ (Segmentation.segments text).flatten.length := by rwa [flatten_segments]
  obtain ⟨hbefore, hbehind⟩ := cutOf_between hlo hinside
  have hmono := List.monotone_sum_take ((Segmentation.segments text).map List.length)
  have hlength : (Segmentation.segments text).length = tokens.entries.length := by
    rw [← h.spellings_eq, spellings, List.length_map, Sequence.length_toList]
  intro region
  rw [h.width_take, h.width_take, ← hlength]
  exact ⟨hcount, (hmono (hfirst.trans_le (Cut.start_le _ _))).trans hbefore, hbehind.trans (hmono hresume)⟩

/-- An edit that fits can be planned and carried out, and where the sums tell the states that the tokens
lead to, it works on rows of tokens as it should. -/
theorem Reads.reworks (h : Reads tokens vocabulary lexemes text) (htext : ∀ c ∈ text, c ≠ terminator)
    {edit : Edit} (hlo : edit.lo ≤ edit.hi) (hhi : edit.hi ≤ text.length)
    (hedit : ∀ c ∈ edit.text, c ≠ terminator) (hne : edit.isEmpty = false) :
    ∃ plan after vocabulary' outcome, RelexPlan.make tokens vocabulary edit = .ok (some plan) ∧
      plan.apply tokens vocabulary = (after, vocabulary', outcome) ∧
      (InRange tokens.toList → InRange after.toList →
        ∃ front doomed inserted kept, edit.Reworks tokens after outcome front doomed inserted kept) := by
  obtain ⟨plan, hplan, hstart, hreplaced, -⟩ := h.make_eq hlo hhi hne
  obtain ⟨after, vocabulary', outcome, happly⟩ : ∃ after vocabulary' outcome,
    plan.apply tokens vocabulary = (after, vocabulary', outcome) := ⟨_, _, _, rfl⟩
  refine ⟨plan, after, vocabulary', outcome, hplan, happly, fun hrange hrange' => ?_⟩
  obtain ⟨tokens', words, lexemes', hstep, hreads, -⟩ := h.edit htext hlo hhi hedit
  rw [Relex.edit, hplan] at hstep
  simp only [Except.map, happly, Except.ok.injEq, Prod.mk.injEq] at hstep
  obtain ⟨rfl, rfl⟩ := hstep
  obtain ⟨hcount, hbefore, hbehind⟩ := h.region_between htext hlo hhi hedit
  generalize region (Segmentation.segments text) (cutOf (Segmentation.segments text) edit) = region
    at hstart hreplaced hcount hbefore hbehind
  obtain ⟨rank, hrank, hnth, hplanBefore, hplanOld⟩ := RelexPlan.make_eq_some h.sound hplan
  obtain ⟨front, doomed, inserted, kept, rfl, R⟩ := RelexPlan.rows_apply h.sound hnth hrank happly
  have hentries : tokens.entries = (front ++ doomed) ++ kept := by rw [R.entries, List.append_assoc]
  have hentries' : after.entries = (front ++ inserted) ++ kept := by
    rw [R.entries_after, List.append_assoc]
  -- the states of the plan are those that the tokens lead to
  have hbeforeEq : outcome.before = walk .initial (front.map (·.2)) := by
    rw [R.before_eq, hplanBefore, h.stateBefore_nth hrange R.entries]
  have holdEq : outcome.oldAfter = walk outcome.before (doomed.map (·.2)) := by
    rw [R.oldAfter_eq, hplanOld, ← R.length_doomed, ← List.length_append,
      h.stateBefore_nth hrange hentries, List.map_append, walk_append, ← hbeforeEq]
  have hnewEq : stateBefore after outcome.stop = walk outcome.before (inserted.map (·.2)) := by
    rw [R.stop_eq, ← List.length_append, hreads.stateBefore_nth hrange' hentries', List.map_append,
      walk_append, ← hbeforeEq]
  -- the tokens that make way are those of the region
  have hstartEq : region.start = front.length := by
    have hranks := congrArg tokens.rank (hstart.symm.trans hnth)
    rwa [(h.sound Token.codepointSummary).rank_nth (by omega),
      (h.sound Token.codepointSummary).rank_nth (by omega)] at hranks
  rw [hstartEq, R.entries, List.take_left] at hbefore
  rw [hstartEq, ← hreplaced, ← R.length_doomed, ← List.length_append, hentries, List.take_left,
    width_append] at hbehind
  have hwidth := h.width_entries
  have hwidth' := hreads.width_entries
  rw [R.entries, width_append, width_append] at hwidth
  rw [R.entries_after, width_append, width_append] at hwidth'
  have hsplice := length_splice hlo hhi
  exact ⟨front, doomed, inserted, kept, h.sound _, R.sound _, R.entries, R.entries_after, R.handles,
    R.start_eq, R.stop_eq, hbeforeEq, holdEq, hnewEq, hbefore, hlo, hbehind, by omega⟩

/-! ### Histories -/

theorem fit_concat_iff {edits : List Edit} {edit : Edit} : Fit text (edits ++ [edit]) ↔
    Fit text edits ∧ edit.lo ≤ edit.hi ∧ edit.hi ≤ (spliceAll text edits).length ∧
      terminator ∉ edit.text := by
  induction edits generalizing text with
  | nil => simp [Fit, spliceAll]
  | cons first edits ih =>
    rw [List.cons_append, Fit, Fit, ih]
    exact and_assoc.symm

/-- After the edits, the depths of comments can be counted. -/
def EndsInRange (vocabulary : Vocabulary) (edits : List Edit) : Prop :=
  ∀ tokens words, editAll Sequence.empty vocabulary edits = .ok (tokens, words) →
    InRange tokens.toList

instance (vocabulary : Vocabulary) (edits : List Edit) : Decidable (EndsInRange vocabulary edits) :=
  match h : editAll Sequence.empty vocabulary edits with
  | .ok (tokens, words) => decidable_of_iff (InRange tokens.toList)
    ⟨fun hrange other others heq => by
      obtain ⟨rfl, rfl⟩ := Prod.mk.inj (Except.ok.inj (h.symm.trans heq))
      exact hrange, fun hall => hall tokens words h⟩
  | .error _ => .isTrue fun tokens words heq => nomatch h.symm.trans heq

/-- After any history of edits that fit, one more edit that fits can be planned, and carried out if it
changes anything. As long as the depths of comments can be counted before it and after it, what a client
is told about it brings the client's colours up to date, whatever codes it can display. -/
theorem editAll_recolours (vocabulary : Vocabulary) {edits : List Edit} {edit : Edit}
    (hfit : Fit [] (edits ++ [edit])) (hbefore : EndsInRange vocabulary edits)
    (hafter : EndsInRange vocabulary (edits ++ [edit])) :
    ∃ tokens words, editAll Sequence.empty vocabulary edits = .ok (tokens, words) ∧
      ((RelexPlan.make tokens words edit = .ok none ∧
          ∀ support, (colours tokens support).splice edit = colours tokens support) ∨
        ∃ plan after grown outcome, RelexPlan.make tokens words edit = .ok (some plan) ∧
          plan.apply tokens words = (after, grown, outcome) ∧
            ∀ support, outcome.Recolours edit tokens after support) := by
  obtain ⟨hedits, hlo, hhi, hedit⟩ := fit_concat_iff.1 hfit
  obtain ⟨tokens, words, lexemes, hall, hreads, htext⟩ :=
    (reads_empty vocabulary).editAll (by simp) hedits
  refine ⟨tokens, words, hall, ?_⟩
  cases hne : edit.isEmpty with
  | true =>
    refine .inl ⟨?_, fun support => ?_⟩
    · rw [RelexPlan.make, hreads.total_eq, if_neg (by omega), hne]
      rfl
    · rw [Edit.isEmpty, Bool.and_eq_true, beq_iff_eq, List.isEmpty_iff] at hne
      rw [Colours.splice, hne.1, hne.2, List.length_nil, List.replicate_zero, List.append_nil,
        List.take_append_drop]
  | false =>
    obtain ⟨plan, after, grown, outcome, hplan, happly, hworks⟩ :=
      hreads.reworks htext hlo hhi (fun c hc => by rintro rfl; exact hedit hc) hne
    have hlast : editAll Sequence.empty vocabulary (edits ++ [edit]) = .ok (after, grown) := by
      have hstep : Relex.edit tokens words edit = .ok (after, grown) := by
        rw [Relex.edit, hplan]
        simp only [Except.map, happly]
      rw [editAll] at hall ⊢
      rw [List.foldlM_append, hall]
      exact editAll_cons hstep
    obtain ⟨front, doomed, inserted, kept, W⟩ := hworks (hbefore _ _ hall) (hafter _ _ hlast)
    exact .inr ⟨plan, after, grown, outcome, hplan, happly, W.recolours⟩

/-- A quote put in front of a word and another quote turns all of them into a string. -/
theorem editAll_recolours_openedString :
    EndsInRange {} [.insertion 0 ['a', '"']] ∧
      EndsInRange {} [.insertion 0 ['a', '"'], .insertion 0 ['"']] ∧
      ∃ tokens words, editAll Sequence.empty {} [.insertion 0 ['a', '"']] = .ok (tokens, words) ∧
        ((RelexPlan.make tokens words (.insertion 0 ['"']) = .ok none ∧ ∀ support,
            (colours tokens support).splice (.insertion 0 ['"']) = colours tokens support) ∨
          ∃ plan after grown outcome,
            RelexPlan.make tokens words (.insertion 0 ['"']) = .ok (some plan) ∧
              plan.apply tokens words = (after, grown, outcome) ∧
                ∀ support, outcome.Recolours (.insertion 0 ['"']) tokens after support) := by
  have hfit : Fit [] ([.insertion 0 ['a', '"']] ++ [.insertion 0 ['"']]) := by
    simp [Fit, Edit.insertion, Edit.splice, terminator]
  have hbefore : EndsInRange {} [.insertion 0 ['a', '"']] := by decide +kernel
  have hafter : EndsInRange {} ([.insertion 0 ['a', '"']] ++ [.insertion 0 ['"']]) := by
    decide +kernel
  exact ⟨hbefore, hafter, editAll_recolours {} hfit hbefore hafter⟩

end Relex

end LiveProse
