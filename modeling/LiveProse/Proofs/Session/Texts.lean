import LiveProse.Proofs.Relex.Contents
import LiveProse.Proofs.Session.Spelling

/-! The texts of buffers. A buffer has no text of its own but that of its tokens, whose lengths the
offsets of edits are measured by. Under every history both stay what they would be if the buffer were a
plain text, edited in place (`performAll_texts`), except that no terminator gets in. -/

namespace LiveProse

open Codepoint

/-- What an operation makes of the text of a buffer, if there is one. Ranges that do not fit are refused,
and so are buffers of a number that is in use. -/
def Command.retype (id : BufferId) (text? : Option Text) : Command → Option Text
  | .introduceBuffer other _ => if other = id then text?.or (some []) else text?
  | .discardBuffer other => if other = id then none else text?
  | .edit other lo hi inserted =>
    if other = id then
      text?.map fun text =>
        if lo ≤ hi ∧ hi ≤ text.length then text.take lo ++ inserted.normalize.plain ++ text.drop hi
        else text
    else text?
  | _ => text?

/-- The buffer whose text an operation may change. -/
def Command.target? : Command → Option BufferId
  | .introduceBuffer id _ | .discardBuffer id | .edit id _ _ _ => some id
  | _ => none

theorem Command.retype_of_ne {command : Command} {id : BufferId} (h : command.target? ≠ some id)
    (text? : Option Text) : command.retype id text? = text? := by
  cases command with
  | introduceBuffer other | discardBuffer other | edit other =>
    exact if_neg fun heq => h (congrArg some heq)
  | _ => rfl

/-- The text of a buffer after a history, if there is a buffer of the number. -/
def typed (id : BufferId) (history : List Command) : Option Text :=
  history.foldl (fun text? command => command.retype id text?) none

namespace Chart

variable {chart framed s t : Chart} {id : BufferId} {command : Command}

def text? (chart : Chart) (id : BufferId) : Option Text :=
  (chart.buffer? id).map (·.text chart.vocabulary)

/-- The tokens of the buffer are made of lexemes without terminators. -/
abbrev Worded (chart : Chart) (id : BufferId) : Prop :=
  chart.About (fun vocabulary buffer => buffer.tokens.Worded vocabulary) id

theorem text?_of_some {buffer : Buffer} (h : chart.buffer? id = some buffer) :
    chart.text? id = some (buffer.text chart.vocabulary) := by
  rw [text?, h, Option.map_some]

theorem text?_of_none (h : chart.buffer? id = none) : chart.text? id = none := by
  rw [text?, h, Option.map_none]

theorem text?_congr (h : s.skeleton = t.skeleton) : s.text? id = t.text? id := by
  have hsome {s t : Chart} (h : s.skeleton = t.skeleton) {buffer : Buffer}
      (hbuffer : t.buffer? id = some buffer) : s.text? id = t.text? id := by
    obtain ⟨old, hold, heq⟩ := exists_buffer?_of_skeleton (congrArg (·.2.2) h) hbuffer
    have htokens : buffer.tokens = old.tokens := congrArg (·.2.2.1) heq
    have hvocabulary : s.vocabulary = t.vocabulary := congrArg (·.2.1) h
    rw [text?_of_some hold, text?_of_some hbuffer, Buffer.text, Buffer.text, htokens, hvocabulary]
  cases ht : t.buffer? id with
  | some buffer => exact hsome h ht
  | none =>
    cases hs : s.buffer? id with
    | some buffer => exact (hsome h.symm hs).symm
    | none => rw [text?_of_none hs, text?_of_none ht]

/-- Growing the vocabulary leaves texts as they are. -/
theorem text?_grown (h : chart.Worded id) {grown : Vocabulary}
    (hgrows : chart.vocabulary.texts <+: grown.texts) :
    (chart.buffer? id).map (·.text grown) = chart.text? id := by
  cases hbuffer : chart.buffer? id with
  | none => rw [text?_of_none hbuffer, Option.map_none]
  | some buffer =>
    rw [text?_of_some hbuffer, Option.map_some, Buffer.text, Buffer.text, TokenSequence.text,
      TokenSequence.text, (h buffer hbuffer).spellings_mono hgrows]

/-- An operation on another buffer, or on none, leaves the text of a buffer as it is. -/
theorem Reframes.text? (h : chart.Reframes command framed) (hworded : chart.Worded id)
    (htarget : command.target? ≠ some id) : framed.text? id = chart.text? id := by
  cases h with
  | stays | defined | removed => rfl
  | interned text => exact text?_grown hworded (chart.vocabulary.texts_intern_grow text)
  | @begun other kind hnone =>
    rw [Chart.text?, Chart.text?, buffer?_append hnone, if_neg fun heq => htarget (congrArg some heq.symm)]
  | discarded other =>
    rw [Chart.text?, Chart.text?, buffer?_filter, if_neg fun heq => htarget (congrArg some heq.symm)]
  | @kept other buffer hbuffer kind =>
    rw [Chart.text?, Chart.text?, buffer?_setBuffer]
    cases hold : chart.buffer? id with
    | none => rfl
    | some old =>
      simp only [Option.map_some]
      split_ifs with hid
      · have hsame : other = id := by
          rw [← (buffer?_eq_some hbuffer).2, ← (buffer?_eq_some hold).2]
          exact hid.symm
        obtain rfl := Option.some.inj (hold.symm.trans (hsame ▸ hbuffer))
        rfl
      · rfl
  | @edited buffer after grown lo hi text hbuffer hedits =>
    have hne : id ≠ after.id := by
      rw [hedits.id_eq]
      exact fun heq => htarget (congrArg some heq.symm)
    rw [Chart.text?, buffer?_retokened_of_ne chart grown hne]
    exact text?_grown hworded hedits.grows

end Chart

namespace Session

open Chart

variable {session : Session} {id : BufferId}

theorem worded_performAll (h : session.chart.Current) (hold : session.chart.Worded id)
    (history : List Command) : (session.performAll history).chart.Worded id := by
  refine about_performAll h (fun _ _ _ _ hworded htokens _ hgrows => ?_)
    (fun vocabulary _ => .empty vocabulary) (fun front lo hi text _ buffer after grown _ _ hedits hworded => ?_)
    hold
  · rw [htokens]
    exact hworded.mono hgrows
  · obtain ⟨plan, outcome, hplan, happly⟩ := hedits.exists_apply_eq
    exact (hworded.apply hplan happly).1

section Edits

variable {buffer : Buffer} {lo hi : Nat} {text : Text}

theorem edit_of_absent (hbuffer : session.chart.buffer? id = none) :
    session.edit id lo hi text = .error (.unknownBuffer id) := by
  simp only [edit, Session.buffer, hbuffer]
  rfl

theorem edit_of_error (hbuffer : session.chart.buffer? id = some buffer) {error : EditOutOfRange}
    (hplan : RelexPlan.make buffer.tokens session.vocabulary ⟨lo, hi, text.normalize⟩ = .error error) :
    session.edit id lo hi text = .error (.editOutOfRange error) := by
  simp only [edit, Session.buffer, hbuffer]
  dsimp only [bind, Except.bind]
  rw [hplan]
  rfl

theorem edit_of_none (hbuffer : session.chart.buffer? id = some buffer)
    (hplan : RelexPlan.make buffer.tokens session.vocabulary ⟨lo, hi, text.normalize⟩ = .ok none) :
    session.edit id lo hi text = .ok (session, []) := by
  simp only [edit, Session.buffer, hbuffer]
  dsimp only [bind, Except.bind]
  rw [hplan]
  rfl

theorem edit_of_some (hbuffer : session.chart.buffer? id = some buffer) {plan : RelexPlan}
    (hplan : RelexPlan.make buffer.tokens session.vocabulary ⟨lo, hi, text.normalize⟩ =
      .ok (some plan)) :
    ∃ events, session.edit id lo hi text = .ok (Phase.runAll session (session.editPhases buffer plan), events) := by
  obtain ⟨⟨after, events⟩, hedit⟩ : ∃ answer, session.edit id lo hi text = .ok answer := by
    simp only [edit, Session.buffer, hbuffer]
    dsimp only [bind, Except.bind]
    rw [hplan]
    exact ⟨_, rfl⟩
  have hphases := session.edit_eq id lo hi text
  rw [perform, hedit, phases, hbuffer] at hphases
  dsimp only at hphases
  rw [hplan] at hphases
  exact ⟨events, by rw [hedit, ← show after = _ from hphases]⟩

/-- Carrying out a plan puts the text of the edit into the place of its range. -/
theorem text?_editPhases (h : session.chart.Current) (hworded : session.chart.Worded id)
    (hbuffer : session.chart.buffer? id = some buffer) {plan : RelexPlan}
    (hplan : RelexPlan.make buffer.tokens session.vocabulary ⟨lo, hi, text.normalize⟩ =
      .ok (some plan)) :
    (Phase.runAll session (session.editPhases buffer plan)).chart.text? id =
      some ((buffer.text session.vocabulary).take lo ++ text.normalize.plain ++
        (buffer.text session.vocabulary).drop hi) := by
  obtain ⟨hmem, rfl⟩ := buffer?_eq_some hbuffer
  obtain ⟨restated, grown, changes, front, doomed, inserted, moved, back, hrestate, hbefore, holdAfter, R⟩ :=
    (h.placed buffer hmem).restates hplan
  have hedits : buffer.Edits session.vocabulary ⟨lo, hi, text.normalize⟩ (restated.renewed changes) grown :=
    .carried hplan hrestate hbefore holdAfter R
  obtain ⟨plan', outcome, hplan', happly⟩ := hedits.exists_apply_eq
  have hwords := hworded buffer hbuffer
  have htext := (hwords.apply hplan' happly).2
  rw [Relex.plain_splice hwords.plain] at htext
  rw [text?_congr (reaches_edit h hbuffer hrestate R).result.2, text?,
    buffer?_retokened grown hedits.id_eq hbuffer, Option.map_some]
  exact congrArg some htext

/-- An edit of a buffer is refused if it does not fit. Otherwise its text is put into the place of the
range. -/
theorem text?_edit (h : session.chart.Current) (hworded : session.chart.Worded id)
    (hbuffer : session.chart.buffer? id = some buffer) (lo hi : Nat) (text : Text) :
    let old := buffer.text session.vocabulary
    (¬(lo ≤ hi ∧ hi ≤ old.length) ∧ ∃ error, session.edit id lo hi text = .error error) ∨
      (lo ≤ hi ∧ hi ≤ old.length) ∧ ∃ after events, session.edit id lo hi text = .ok (after, events) ∧
        after.chart.text? id = some (old.take lo ++ text.normalize.plain ++ old.drop hi) := by
  intro old
  have htotal : buffer.tokens.total.codepoints = old.length := (hworded buffer hbuffer).total_eq
  cases hplan : RelexPlan.make buffer.tokens session.vocabulary ⟨lo, hi, text.normalize⟩ with
  | error error =>
    have hfits := RelexPlan.of_make_error hplan
    rw [htotal] at hfits
    exact .inl ⟨hfits, _, edit_of_error hbuffer hplan⟩
  | ok plan? =>
    refine .inr ?_
    cases plan? with
    | none =>
      obtain ⟨hlo, hhi, hempty⟩ := RelexPlan.of_make_none hplan
      refine ⟨⟨hlo, htotal ▸ hhi⟩, session, [], edit_of_none hbuffer hplan, ?_⟩
      have hsame := Relex.plain_splice (hworded buffer hbuffer).plain lo hi text.normalize
      rw [Relex.isEmpty_splice hempty, Text.plain_of_ne (hworded buffer hbuffer).plain] at hsame
      exact (text?_of_some hbuffer).trans (congrArg some hsame)
    | some plan =>
      obtain ⟨hlo, hhi, -⟩ := RelexPlan.eq_of_make hplan
      obtain ⟨events, hedit⟩ := edit_of_some hbuffer hplan
      exact ⟨⟨hlo, htotal ▸ hhi⟩, _, events, hedit, text?_editPhases h hworded hbuffer hplan⟩

end Edits

/-- A buffer that has a text is there, and its length counts the codepoints. -/
theorem text_of_text? (hworded : session.chart.Worded id) {text : Text}
    (htext : session.chart.text? id = some text) :
    session.text id = .ok text ∧ ∃ buffer, session.buffer id = .ok buffer ∧ buffer.length = text.length := by
  obtain ⟨buffer, hbuffer, rfl⟩ := Option.map_eq_some_iff.1 htext
  have hfound : session.buffer id = .ok buffer := by
    rw [Session.buffer, hbuffer]
  refine ⟨?_, buffer, hfound, (hworded buffer hbuffer).total_eq⟩
  rw [Session.text, hfound]
  rfl

theorem text?_introduceBuffer (h : session.chart.Current) (id : BufferId) (kind : BufferKind) :
    (session.perform (.introduceBuffer id kind)).chart.text? id =
      (session.chart.text? id).or (some []) := by
  cases hbuffer : session.chart.buffer? id with
  | none =>
    have hskeleton := (reaches_introduction h kind hbuffer).result.2
    rw [perform_eq, phases, hbuffer, text?_congr hskeleton, text?_of_none hbuffer,
      text?_of_some ((buffer?_append hbuffer id).trans (if_pos rfl))]
    rfl
  | some buffer =>
    rw [perform, introduceBuffer, hbuffer, text?_of_some hbuffer]
    exact text?_of_some hbuffer

theorem text?_discardBuffer (session : Session) (id : BufferId) :
    (session.perform (.discardBuffer id)).chart.text? id = none := by
  rw [perform, discardBuffer, Session.buffer]
  cases hbuffer : session.chart.buffer? id with
  | none => exact text?_of_none hbuffer
  | some buffer => exact text?_of_none ((buffer?_filter id id).trans (if_pos rfl))

/-- Every operation makes of the text of a buffer what it would make of a plain text. -/
theorem text?_perform (h : session.chart.Current) (hworded : session.chart.Worded id) (command : Command) :
    (session.perform command).chart.text? id = command.retype id (session.chart.text? id) := by
  by_cases htarget : command.target? = some id
  · cases command with
    | introduceBuffer other kind =>
      obtain rfl := Option.some.inj htarget
      rw [text?_introduceBuffer h, Command.retype, if_pos rfl]
    | discardBuffer other =>
      obtain rfl := Option.some.inj htarget
      rw [text?_discardBuffer, Command.retype, if_pos rfl]
    | edit other lo hi text =>
      obtain rfl := Option.some.inj htarget
      rw [perform, Command.retype, if_pos rfl]
      cases hbuffer : session.chart.buffer? other with
      | none =>
        rw [edit_of_absent hbuffer, text?_of_none hbuffer]
        exact text?_of_none hbuffer
      | some buffer =>
        have hold : session.chart.text? other = some (buffer.text session.vocabulary) :=
          text?_of_some hbuffer
        rw [hold, Option.map_some]
        rcases text?_edit h hworded hbuffer lo hi text with
          ⟨hfits, error, hedit⟩ | ⟨hfits, after, events, hedit, htext⟩
        · rw [hedit, if_neg hfits]
          exact hold
        · rw [hedit, if_pos hfits]
          exact htext
    | _ => cases htarget
  · rw [command.retype_of_ne htarget]
    obtain ⟨-, framed, hframed, hskeleton⟩ := (reaches_phases h command).result
    rw [← session.perform_eq command] at hskeleton
    rw [text?_congr hskeleton, hframed.text? hworded htarget]

theorem text?_performAll (h : session.chart.Current) (hworded : session.chart.Worded id)
    (history : List Command) :
    (session.performAll history).chart.text? id =
      history.foldl (fun text? command => command.retype id text?) (session.chart.text? id) := by
  induction history generalizing session with
  | nil => rfl
  | cons command history ih =>
    have hcurrent : (session.perform command).chart.Current :=
      session.perform_eq command ▸ (reaches_phases h command).result.1
    have hnext := ih hcurrent (worded_performAll h hworded [command])
    rw [text?_perform h hworded] at hnext
    exact hnext

/-- After any history a buffer has the text that it would have if it were a plain text, edited in place.
Every edit that is not refused puts its normalized text, but for the terminators in it, into the place of its
range. The length of the buffer is the number of codepoints of its text, so that ranges of the buffer are
ranges of the text. -/
theorem performAll_texts (config : SessionConfig) (history : List Command) (id : BufferId) :
    let session := (new config).performAll history
    session.chart.text? id = typed id history ∧
    ∀ lo hi text after events, session.edit id lo hi text = .ok (after, events) →
      ∃ old new buffer, session.text id = .ok old ∧ lo ≤ hi ∧ hi ≤ old.length ∧
        new = old.take lo ++ text.normalize.plain ++ old.drop hi ∧
        (terminator ∉ text → new = old.take lo ++ text.normalize ++ old.drop hi) ∧
        after.text id = .ok new ∧ after.buffer id = .ok buffer ∧ buffer.length = new.length := by
  intro session
  have hcurrent : session.chart.Current := (reaches_history (current_new config) history).1
  have hworded : session.chart.Worded id := worded_performAll (current_new config) nofun history
  refine ⟨text?_performAll (current_new config) nofun history, fun lo hi text after events hedit => ?_⟩
  have hafter : after.chart.Worded id := by
    have hperform : session.perform (.edit id lo hi text) = after := by
      rw [perform, hedit]
      rfl
    exact hperform ▸ worded_performAll hcurrent hworded [.edit id lo hi text]
  cases hbuffer : session.chart.buffer? id with
  | none =>
    rw [edit_of_absent hbuffer] at hedit
    cases hedit
  | some buffer =>
    rcases text?_edit hcurrent hworded hbuffer lo hi text with
      ⟨-, error, hrefused⟩ | ⟨⟨hlo, hhi⟩, after', events', hdone, htext⟩
    · rw [hrefused] at hedit
      cases hedit
    · obtain ⟨rfl, rfl⟩ := Prod.mk.inj (Except.ok.inj (hdone.symm.trans hedit))
      obtain ⟨hnew, edited, hedited, hlength⟩ := text_of_text? hafter htext
      have hold := (text_of_text? hworded (text?_of_some hbuffer)).1
      refine ⟨_, _, edited, hold, hlo, hhi, rfl, fun hplain => ?_, hnew, hedited,
        hlength⟩
      rw [Text.plain_of_ne (ne_terminator_normalize hplain)]

/-- A buffer with two letters. -/
def twoLetters : List Command := [.introduceBuffer ⟨0⟩ .story, .edit ⟨0⟩ 0 0 ['a', 'b']]

/-- A curly quote is typed between the letters, and a terminator, which does not get in. -/
theorem performAll_texts_twoLetters :
    let session := (new {}).performAll twoLetters
    ∃ after events buffer, session.edit ⟨0⟩ 1 1 ['\u2019', '\uffff'] = .ok (after, events) ∧
      after.text ⟨0⟩ = .ok ['a', '\x27', 'b'] ∧ after.buffer ⟨0⟩ = .ok buffer ∧ buffer.length = 3 := by
  have htexts := performAll_texts {} twoLetters ⟨0⟩
  dsimp only at htexts ⊢
  generalize hsession : (new {}).performAll twoLetters = session at htexts ⊢
  have hold : session.text ⟨0⟩ = .ok ['a', 'b'] := by
    rw [← hsession]
    decide +kernel
  have hdone : (session.edit ⟨0⟩ 1 1 ['\u2019', '\uffff']).toBool = true := by
    rw [← hsession]
    decide +kernel
  cases hedit : session.edit ⟨0⟩ 1 1 ['\u2019', '\uffff'] with
  | error error =>
    rw [hedit] at hdone
    cases hdone
  | ok answer =>
    obtain ⟨after, events⟩ := answer
    obtain ⟨old, changed, buffer, htext, -, -, hchanged, -, hafter, hbuffer, hlength⟩ :=
      htexts.2 1 1 _ after events hedit
    obtain rfl : old = ['a', 'b'] := Except.ok.inj (htext.symm.trans hold)
    rw [show changed = ['a', '\x27', 'b'] from hchanged.trans (by decide)] at hafter hlength
    exact ⟨after, events, buffer, rfl, hafter, hbuffer, hlength⟩

/-- A terminator that is typed is not in the text afterwards, though the folding of codepoints keeps it. -/
theorem text_ne_terminator :
    let session := (new {}).performAll [.introduceBuffer ⟨0⟩ .story]
    let after := session.perform (.edit ⟨0⟩ 0 0 ['a', terminator, 'b'])
    session.text ⟨0⟩ = .ok [] ∧ (session.edit ⟨0⟩ 0 0 ['a', terminator, 'b']).toBool = true ∧
      after.text ⟨0⟩ = .ok ['a', 'b'] ∧
      after.text ⟨0⟩ ≠ .ok (Edit.splice ⟨0, 0, Text.normalize ['a', terminator, 'b']⟩ []) := by
  refine ⟨by decide +kernel, by decide +kernel, by decide +kernel, by decide +kernel⟩

end Session

end LiveProse
