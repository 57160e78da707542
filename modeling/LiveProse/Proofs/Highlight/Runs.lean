import LiveProse.Highlight.Runs
import LiveProse.Proofs.Relex.Rows

/-! What runs show. Runs in the making lie side by side and give every codepoint behind them the code of
its token, however many tokens a run takes in; so a client that paints the finished runs shows the codes
of the tokens, and one that paints them over a part of its colours changes nothing around it. -/

namespace LiveProse

open TokenSequence

/-! ### Tilings -/

/-- Runs side by side from a codepoint on, none of them empty, that give the codepoints these codes. -/
inductive Tiles : ℕ → List HighlightRun → List HighlightCode → Prop
  | nil (lo : ℕ) : Tiles lo [] []
  | cons {lo hi : ℕ} {code : HighlightCode} {runs : List HighlightRun} {codes : List HighlightCode}
      (hlt : lo < hi) (rest : Tiles hi runs codes) :
      Tiles lo (⟨lo, hi, code⟩ :: runs) (List.replicate (hi - lo) code ++ codes)

theorem Tiles.concat {lo hi : ℕ} {runs : List HighlightRun} {codes : List HighlightCode}
    (h : Tiles lo runs codes) (code : HighlightCode) (hlt : lo + codes.length < hi) :
    Tiles lo (runs ++ [⟨lo + codes.length, hi, code⟩])
      (codes ++ List.replicate (hi - (lo + codes.length)) code) := by
  induction h with
  | nil lo => simpa using Tiles.cons hlt (.nil hi)
  | @cons lo middle other runs codes hhead rest ih =>
    have hlength : lo + (List.replicate (middle - lo) other ++ codes).length =
        middle + codes.length := by
      rw [List.length_append, List.length_replicate]
      omega
    rw [hlength] at hlt ⊢
    rw [List.cons_append, List.append_assoc]
    exact .cons hhead (ih hlt)

namespace RunBuilder

variable {runs : RunBuilder} {lo width : ℕ} {codes : List HighlightCode} {code : HighlightCode}

/-- The codes of the codepoints in the open run. -/
def pending (runs : RunBuilder) : List HighlightCode :=
  match runs.opened with
  | some (start, code) => List.replicate (runs.position - start) code
  | none => []

/-- Runs in the making that give the codepoints from `lo` up to their position these codes: those that
are closed the front ones, and the open run, which begins behind them, the others. -/
def Shows (runs : RunBuilder) (lo : ℕ) (codes : List HighlightCode) : Prop :=
  runs.position = lo + codes.length ∧ ∃ front, Tiles lo runs.closed.reverse front ∧
    codes = front ++ runs.pending ∧
    ∀ start code, runs.opened = some (start, code) → start = lo + front.length

theorem shows_start (lo : ℕ) : Shows ⟨lo, none, []⟩ lo [] :=
  ⟨rfl, [], .nil lo, rfl, by simp⟩

@[simp] theorem position_close (runs : RunBuilder) : runs.close.position = runs.position := by
  unfold close
  split <;> rfl

/-- Closing the open run leaves all codes to the closed runs. -/
theorem Shows.tiles_close (h : runs.Shows lo codes) : Tiles lo runs.close.closed.reverse codes := by
  obtain ⟨hposition, front, hfront, rfl, hstart⟩ := h
  unfold close pending at *
  cases hopened : runs.opened with
  | none => simpa [hopened] using hfront
  | some opened =>
    obtain ⟨start, code⟩ := opened
    obtain rfl := hstart start code hopened
    simp only [hopened] at hposition ⊢
    split_ifs with hlt
    · rw [List.reverse_cons]
      exact hfront.concat code hlt
    · rw [Nat.sub_eq_zero_of_le (Nat.le_of_not_lt hlt), List.replicate_zero, List.append_nil]
      exact hfront

theorem Shows.push (h : runs.Shows lo codes) (width : ℕ) (code : HighlightCode) :
    (runs.push width code).Shows lo (codes ++ List.replicate width code) := by
  have htiles := h.tiles_close
  obtain ⟨hposition, front, hfront, hcodes, hstart⟩ := h
  have hafter : (runs.push width code).position =
      lo + (codes ++ List.replicate width code).length := by
    rw [List.length_append, List.length_replicate, ← Nat.add_assoc, ← hposition, RunBuilder.push]
    dsimp only
    split_ifs <;> simp
  refine ⟨hafter, ?_⟩
  by_cases hsame : runs.opened.any (·.2 == code)
  · have hpush : runs.push width code = { runs with position := runs.position + width } := by
      rw [RunBuilder.push, if_pos hsame]
    obtain ⟨⟨start, other⟩, hopened, hother⟩ := (Option.any_eq_true _ _).1 hsame
    obtain rfl : other = code := by simpa using hother
    have hbehind : start ≤ runs.position := by
      rw [hstart start other hopened, hposition, hcodes, List.length_append]
      omega
    have hpending : (runs.push width other).pending = runs.pending ++ List.replicate width other := by
      simp only [pending, hpush, hopened]
      rw [← List.replicate_add, Nat.sub_add_comm hbehind]
    rw [hpush] at hpending ⊢
    exact ⟨front, hfront, by rw [hpending, hcodes, List.append_assoc], hstart⟩
  · have hpush : runs.push width code =
        ⟨runs.position + width, some (runs.position, code), runs.close.closed⟩ := by
      rw [RunBuilder.push, if_neg hsame]
      simp
    rw [hpush]
    refine ⟨codes, htiles, by simp [pending], ?_⟩
    intro start other hopened
    obtain ⟨rfl, -⟩ := Prod.mk.inj (Option.some.inj hopened)
    exact hposition

end RunBuilder

/-! ### Tokens -/

namespace HighlightSupport

variable (support : HighlightSupport) (before : LexicalState)

/-- The codes of the codepoints of some tokens, read from a state on. -/
def codes (tokens : List Token) : List HighlightCode :=
  (withStates before tokens).flatMap fun (token, old, new) =>
    List.replicate token.codepoints (support.codeOf old new)

@[simp] theorem codes_nil : support.codes before [] = [] := rfl

theorem codes_cons (token : Token) (rest : List Token) : support.codes before (token :: rest) =
    List.replicate token.codepoints (support.codeOf before (token.stateAfter before)) ++
      support.codes (token.stateAfter before) rest := rfl

theorem codes_append (tokens more : List Token) : support.codes before (tokens ++ more) =
    support.codes before tokens ++ support.codes (walk before tokens) more := by
  induction tokens generalizing before with
  | nil => rfl
  | cons token rest ih =>
    rw [List.cons_append, codes_cons, codes_cons, ih, List.append_assoc]
    rfl

@[simp] theorem length_codes (tokens : List Token) :
    (support.codes before tokens).length = (tokens.map (·.codepoints)).sum := by
  induction tokens generalizing before with
  | nil => rfl
  | cons token rest ih =>
    rw [codes_cons, List.length_append, List.length_replicate, ih, List.map_cons, List.sum_cons]

end HighlightSupport

/-- Putting tokens into runs puts in the codes of their codepoints. -/
theorem RunBuilder.Shows.pushTokens {runs : RunBuilder} {lo : ℕ} {codes : List HighlightCode}
    (h : runs.Shows lo codes) (support : HighlightSupport) (before : LexicalState)
    (tokens : List Token) :
    ((withStates before tokens).foldl (RunBuilder.pushToken support) runs).Shows lo
      (codes ++ support.codes before tokens) := by
  induction tokens generalizing runs codes before with
  | nil => simpa [withStates] using h
  | cons token rest ih =>
    rw [withStates, List.foldl_cons, support.codes_cons, ← List.append_assoc]
    exact ih (h.push _ _) _

/-- The tokens that are put into runs after the inserted ones are those over which the states differ. -/
theorem pushRestated_eq (support : HighlightSupport) (runs : RunBuilder) (old new : LexicalState)
    (tokens : List (Handle × Token)) :
    pushRestated support runs old new (tokens.map (·.2)) =
      (withStates new ((differingTokens old new tokens).map (·.2))).foldl
        (RunBuilder.pushToken support) runs := by
  induction tokens generalizing runs old new with
  | nil => rfl
  | cons entry rest ih =>
    rw [List.map_cons, pushRestated, differingTokens]
    split_ifs
    · rfl
    · exact ih _ _ _

/-! ### Colours -/

/-- What a client shows: the code of each codepoint, if it has one. -/
abbrev Colours := List (Option HighlightCode)

namespace Colours

/-- Gives the codepoints `lo` to `hi`, the last one excluded, a code or none. -/
def paint (colours : Colours) (lo hi : ℕ) (code : Option HighlightCode) : Colours :=
  colours.mapIdx fun index old => if lo ≤ index ∧ index < hi then code else old

/-- Does what an event says. -/
def patch (colours : Colours) : HighlightEvent → Colours
  | .remove lo hi => colours.paint lo hi none
  | .add run => colours.paint run.lo run.hi (some run.code)

/-- Changes the colours along with a text: what is put in has none. -/
def splice (colours : Colours) (edit : Edit) : Colours :=
  colours.take edit.lo ++ List.replicate edit.text.length none ++ colours.drop edit.hi

variable {front part back : Colours} {lo hi : ℕ}

theorem paint_append (hlo : front.length = lo) (hhi : lo + part.length = hi)
    (code : Option HighlightCode) :
    paint (front ++ (part ++ back)) lo hi code =
      front ++ (List.replicate part.length code ++ back) := by
  have hfront : front.mapIdx (fun index old => if lo ≤ index ∧ index < hi then code else old) =
      front := by
    refine List.ext_getElem (by simp) fun index hlt _ => ?_
    rw [List.length_mapIdx] at hlt
    rw [List.getElem_mapIdx, if_neg (by omega)]
  have hpart : part.mapIdx (fun index old =>
      if lo ≤ index + front.length ∧ index + front.length < hi then code else old) =
        List.replicate part.length code := by
    refine List.ext_getElem (by simp) fun index hlt _ => ?_
    rw [List.length_mapIdx] at hlt
    rw [List.getElem_mapIdx, if_pos (by omega), List.getElem_replicate]
  have hback : back.mapIdx (fun index old =>
      if lo ≤ index + part.length + front.length ∧ index + part.length + front.length < hi then code
        else old) = back := by
    refine List.ext_getElem (by simp) fun index hlt _ => ?_
    rw [List.getElem_mapIdx, if_neg (by omega)]
  rw [paint, List.mapIdx_append, hfront, List.mapIdx_append, hpart, hback]

/-- A splice between the two ends of a part changes nothing around it. -/
theorem splice_append (front part back : Colours) {edit : Edit} (hlo : front.length ≤ edit.lo) (hle : edit.lo ≤ edit.hi)
    (hhi : edit.hi ≤ front.length + part.length) :
    ∃ middle, splice (front ++ (part ++ back)) edit = front ++ (middle ++ back) ∧
      middle.length + (edit.hi - edit.lo) = part.length + edit.text.length := by
  refine ⟨part.take (edit.lo - front.length) ++
    (List.replicate edit.text.length none ++ part.drop (edit.hi - front.length)), ?_, ?_⟩
  · rw [splice, List.take_append, List.take_of_length_le hlo, List.take_append_of_le_length (by omega),
      List.drop_append, List.drop_eq_nil_of_le (hlo.trans hle), List.nil_append,
      List.drop_append_of_le_length (by omega)]
    simp only [List.append_assoc]
  · simp only [List.length_append, List.length_take, List.length_replicate, List.length_drop]
    omega

/-- Runs that are painted over a part of the colours show their codes there and nowhere else. -/
theorem patch_tiles {runs : List HighlightRun} {codes : List HighlightCode} (h : Tiles lo runs codes)
    (hlo : front.length = lo) (hpart : part.length = codes.length) :
    (runs.map .add).foldl patch (front ++ (part ++ back)) =
      front ++ (codes.map some ++ back) := by
  induction h generalizing front part with
  | nil lo =>
    obtain rfl := List.length_eq_zero_iff.1 hpart
    rfl
  | @cons lo hi code runs codes hlt rest ih =>
    rw [List.length_append, List.length_replicate] at hpart
    have hsplit : part = part.take (hi - lo) ++ part.drop (hi - lo) := (part.take_append_drop _).symm
    have htake : (part.take (hi - lo)).length = hi - lo := by
      rw [List.length_take]
      omega
    have hstep : paint (front ++ (part ++ back)) lo hi (some code) =
        (front ++ List.replicate (hi - lo) (some code)) ++ (part.drop (hi - lo) ++ back) := by
      rw [hsplit, List.append_assoc, paint_append hlo (by omega), htake, List.append_assoc,
        ← hsplit]
    rw [List.map_cons, List.foldl_cons]
    change List.foldl patch (paint (front ++ (part ++ back)) lo hi (some code)) _ = _
    rw [hstep, ih (by rw [List.length_append, List.length_replicate]; omega)
      (by rw [List.length_drop]; omega), List.append_assoc, List.map_append, List.map_replicate,
      List.append_assoc]

/-- So do they when the part is cleared first. Where there is nothing to clear, nothing is done. -/
theorem patch_events {runs : List HighlightRun} {codes : List HighlightCode} (h : Tiles lo runs codes)
    (hlo : front.length = lo) (hpart : part.length = codes.length) :
    (if codes = [] then [] else .remove lo (lo + codes.length) :: runs.map .add).foldl patch
      (front ++ (part ++ back)) = front ++ (codes.map some ++ back) := by
  split_ifs with hempty
  · subst hempty
    obtain rfl := List.length_eq_zero_iff.1 hpart
    rfl
  · rw [List.foldl_cons, patch, paint_append hlo (by rw [hpart])]
    exact patch_tiles h hlo (by rw [List.length_replicate, hpart])

end Colours

/-- What a client shows that is given all runs of a text. -/
def colours (tokens : TokenSequence) (support : HighlightSupport) : Colours :=
  ((highlightAll tokens support).map .add).foldl Colours.patch
    (List.replicate tokens.total.codepoints none)

/-- A client that is given all runs shows every codepoint in the code of its token. -/
theorem colours_eq {tokens : TokenSequence} (h : tokens.Sound Token.codepointSummary)
    (support : HighlightSupport) :
    colours tokens support = (support.codes .initial tokens.toList).map some := by
  have htotal : tokens.total.codepoints = (tokens.toList.map (·.codepoints)).sum := h.total
  have hshows := (RunBuilder.shows_start 0).pushTokens support .initial tokens.toList
  have hpaint : ((highlightAll tokens support).map .add).foldl Colours.patch
      ([] ++ (List.replicate tokens.total.codepoints none ++ [])) =
        [] ++ ((support.codes .initial tokens.toList).map some ++ []) :=
    Colours.patch_tiles hshows.tiles_close rfl (by simp [htotal])
  simpa [colours] using hpaint

/-- The colours of a text whose tokens are three rows. -/
theorem colours_rows {tokens : TokenSequence} (h : tokens.Sound Token.codepointSummary)
    {front row back : List (Handle × Token)} (hentries : tokens.entries = front ++ (row ++ back))
    (support : HighlightSupport) :
    let before := walk .initial (front.map (·.2))
    colours tokens support = (support.codes .initial (front.map (·.2))).map some ++
      ((support.codes before (row.map (·.2))).map some ++
        (support.codes (walk before (row.map (·.2))) (back.map (·.2))).map some) := by
  intro before
  rw [colours_eq h, toList_eq hentries, List.map_append, support.codes_append, support.codes_append,
    List.map_append, List.map_append]

end LiveProse
