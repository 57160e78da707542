import LiveProse.Proofs.Session.Edits

/-! What an operation makes of the parts of a chart that the engine leaves alone: the grammar, the
vocabulary, and the tokens and records of the buffers. Whatever is true of a frame at first and stays true
in each of these ways is true after every history. -/

namespace LiveProse

/-- Carrying out a plan for an edit is an edit in rows of tokens. -/
theorem Buffer.Placed.restates {buffer : Buffer} (h : buffer.Placed) {vocabulary : Vocabulary}
    {edit : Edit} {plan : RelexPlan}
    (hplan : RelexPlan.make buffer.tokens vocabulary edit = .ok (some plan)) :
    ∃ restated grown changes front doomed inserted moved back,
      buffer.restate plan vocabulary = (restated, grown, changes) ∧
      plan.before = TokenSequence.stateBefore buffer.tokens (buffer.tokens.nth front.length) ∧
      plan.oldAfter =
        TokenSequence.stateBefore buffer.tokens (buffer.tokens.nth (front.length + doomed.length)) ∧
      buffer.Restates plan vocabulary restated grown changes front doomed inserted moved back := by
  obtain ⟨start, hcount, hstart, hbefore, holdAfter⟩ := RelexPlan.make_eq_some h.tokens hplan
  obtain ⟨restated, grown, changes, front, doomed, inserted, moved, back, hrestate, rfl, hdoomed, R⟩ :=
    restates_restate vocabulary h.tokens hcount hstart
  rw [← hdoomed] at holdAfter
  exact ⟨restated, grown, changes, front, doomed, inserted, moved, back, hrestate, hbefore, holdAfter, R⟩

/-- An edit of a buffer leads to another one, through a plan for the tokens that are there. -/
inductive Buffer.Edits (buffer : Buffer) (vocabulary : Vocabulary) (edit : Edit) :
    Buffer → Vocabulary → Prop
  | carried {restated : Buffer} {plan : RelexPlan} {grown : Vocabulary} {changes : Restatement}
      {front doomed inserted moved back : List (Handle × Token)}
      (hplan : RelexPlan.make buffer.tokens vocabulary edit = .ok (some plan))
      (hrestate : buffer.restate plan vocabulary = (restated, grown, changes))
      (hbefore : plan.before =
        TokenSequence.stateBefore buffer.tokens (buffer.tokens.nth front.length))
      (holdAfter : plan.oldAfter =
        TokenSequence.stateBefore buffer.tokens (buffer.tokens.nth (front.length + doomed.length)))
      (R : buffer.Restates plan vocabulary restated grown changes front doomed inserted moved back) :
      Edits buffer vocabulary edit (restated.renewed changes) grown

namespace Buffer.Edits

variable {buffer after : Buffer} {vocabulary grown : Vocabulary} {edit : Edit}

theorem id_eq (h : buffer.Edits vocabulary edit after grown) : after.id = buffer.id := by
  obtain ⟨-, -, -, -, R⟩ := h
  exact R.id_renewed

theorem grows (h : buffer.Edits vocabulary edit after grown) :
    vocabulary.texts <+: grown.texts := by
  obtain ⟨-, -, -, -, R⟩ := h
  exact R.grows

end Buffer.Edits

namespace Chart

/-- A chart with the frame that an operation leaves. -/
inductive Reframes (chart : Chart) : Command → Chart → Prop
  | stays {command : Command} : Reframes chart command chart
  | interned (text : Text) :
      Reframes chart (.intern text) { chart with vocabulary := (chart.vocabulary.intern text).1 }
  | defined {production : Production}
      (hvalid : chart.grammar.validate production chart.vocabulary = .ok ()) :
      Reframes chart (.addProduction production)
        { chart with grammar := (chart.grammar.define production).1 }
  | removed {id : ProductionId} {production : Production}
      (hget : chart.grammar.get? id = some production) :
      Reframes chart (.removeProduction id)
        { chart with grammar := (chart.grammar.without id production).rebuild }
  | begun {id : BufferId} (kind : BufferKind) (hnone : chart.buffer? id = none) :
      Reframes chart (.introduceBuffer id kind)
        { chart with buffers := chart.buffers ++ [({ id, kind } : Buffer)] }
  | discarded (id : BufferId) :
      Reframes chart (.discardBuffer id) { chart with buffers := chart.buffers.filter (·.id ≠ id) }
  | kept {id : BufferId} {buffer : Buffer} (hbuffer : chart.buffer? id = some buffer)
      (kind : BufferKind) :
      Reframes chart (.setBufferKind id kind) (chart.setBuffer { buffer with kind })
  | edited {buffer after : Buffer} {grown : Vocabulary} {lo hi : Nat} {text : Text}
      (hbuffer : chart.buffer? buffer.id = some buffer)
      (hedits : buffer.Edits chart.vocabulary ⟨lo, hi, text.normalize⟩ after grown) :
      Reframes chart (.edit buffer.id lo hi text) (chart.retokened after grown)

/-- What is said of a buffer and the vocabulary, if there is a buffer of the number. -/
def About (P : Vocabulary → Buffer → Prop) (id : BufferId) (chart : Chart) : Prop :=
  ∀ buffer, chart.buffer? id = some buffer → P chart.vocabulary buffer

variable {chart framed : Chart} {command : Command} {P : Vocabulary → Buffer → Prop} {id : BufferId}

/-- What is true of new buffers and of edited ones, and depends on the tokens and on what is known about
their sites, is true of every buffer. -/
theorem Reframes.about (h : chart.Reframes command framed)
    (hcongr : ∀ vocabulary grown buffer other, P vocabulary buffer → other.tokens = buffer.tokens →
      other.info? = buffer.info? → vocabulary.texts <+: grown.texts → P grown other)
    (hbegun : ∀ kind, P chart.vocabulary { id, kind })
    (hedits : ∀ lo hi text buffer after grown, command = .edit id lo hi text →
      chart.buffer? id = some buffer →
      buffer.Edits chart.vocabulary ⟨lo, hi, text.normalize⟩ after grown →
      P chart.vocabulary buffer → P grown after)
    (hold : chart.About P id) : framed.About P id := by
  intro after hafter
  cases h with
  | stays => exact hold after hafter
  | interned text =>
    exact hcongr _ _ _ _ (hold after hafter) rfl rfl (chart.vocabulary.texts_intern_grow text)
  | defined hvalid => exact hold after hafter
  | removed hget => exact hold after hafter
  | begun kind hnone =>
    rw [buffer?_append hnone] at hafter
    split_ifs at hafter with hid
    · obtain rfl := Option.some.inj hafter
      subst hid
      exact hbegun kind
    · exact hold after hafter
  | discarded gone =>
    rw [buffer?_filter] at hafter
    split_ifs at hafter
    exact hold after hafter
  | @kept kept buffer hbuffer kind =>
    by_cases hid : id = buffer.id
    · subst hid
      have hkept : chart.buffer? buffer.id = some buffer := (buffer?_eq_some hbuffer).2.symm ▸ hbuffer
      have hself : (chart.setBuffer { buffer with kind }).buffer? buffer.id =
          some { buffer with kind } := buffer?_setBuffer_self hkept
      obtain rfl := Option.some.inj (hself.symm.trans hafter)
      exact hcongr _ _ _ _ (hold buffer hkept) rfl rfl List.prefix_rfl
    · have hother : (chart.setBuffer { buffer with kind }).buffer? id = chart.buffer? id :=
        buffer?_setBuffer_of_ne hid
      exact hold after (hother.symm.trans hafter)
  | @edited buffer edited grown lo hi text hbuffer hedit =>
    have hedited : edited.id = buffer.id := hedit.id_eq
    by_cases hid : id = buffer.id
    · subst hid
      obtain rfl := Option.some.inj ((buffer?_retokened grown hedited hbuffer).symm.trans hafter)
      exact hedits lo hi text buffer _ grown rfl hbuffer hedit (hold buffer hbuffer)
    · rw [buffer?_retokened_of_ne chart grown (hedited ▸ hid)] at hafter
      exact hcongr _ _ _ _ (hold after hafter) rfl rfl hedit.grows

/-- It shows in everything of the same frame. -/
theorem About.congr (h : framed.About P id)
    (hcongr : ∀ vocabulary grown buffer other, P vocabulary buffer → other.tokens = buffer.tokens →
      other.info? = buffer.info? → vocabulary.texts <+: grown.texts → P grown other)
    (hframe : chart.skeleton = framed.skeleton) : chart.About P id := by
  intro buffer hbuffer
  obtain ⟨old, hold, heq⟩ := exists_buffer?_of_skeleton (congrArg (·.2.2) hframe.symm) hbuffer
  have hvocabulary : chart.vocabulary = framed.vocabulary := congrArg (·.2.1) hframe
  exact hcongr _ _ _ _ (h old hold) (congrArg (·.2.2.1) heq) (Buffer.info?_of_skeleton heq)
    (hvocabulary ▸ List.prefix_rfl)

end Chart

namespace Session

open Chart

variable {session : Session}

/-- Every operation keeps the chart current, and reframes it. -/
theorem reaches_phases (h : session.chart.Current) (command : Command) :
    Reaches session (session.phases command) fun after => after.chart.Current ∧
      ∃ framed, session.chart.Reframes command framed ∧ after.chart.skeleton = framed.skeleton := by
  have hstays : Reaches session [] fun after => after.chart.Current ∧
      ∃ framed, session.chart.Reframes command framed ∧ after.chart.skeleton = framed.skeleton :=
    Reaches.nil ⟨h, _, .stays, rfl⟩
  cases command with
  | intern text => exact Reaches.alter ⟨current_intern h text, _, .interned text, rfl⟩
  | addProduction production =>
    rw [phases]
    split
    · exact (reaches_addition h ‹_›).mono fun _ hafter => ⟨hafter.1, _, .defined ‹_›, hafter.2⟩
    · exact hstays
  | removeProduction id =>
    rw [phases]
    split
    · exact (reaches_removal h ‹_›).mono fun _ hafter => ⟨hafter.1, _, .removed ‹_›, hafter.2⟩
    · exact hstays
  | introduceBuffer id kind =>
    rw [phases]
    split
    · exact hstays
    · exact (reaches_introduction h kind ‹_›).mono fun _ hafter =>
        ⟨hafter.1, _, .begun kind ‹_›, hafter.2⟩
  | discardBuffer id =>
    rw [phases]
    split
    · exact Reaches.alter ⟨current_discard h id, _, .discarded id, rfl⟩
    · exact hstays
  | setBufferKind id kind =>
    rw [phases]
    split
    · exact Reaches.alter ⟨current_setBufferKind h ‹_› kind, _, .kept ‹_› kind, rfl⟩
    · exact hstays
  | edit id lo hi text =>
    simp only [phases]
    cases hbuffer : session.chart.buffer? id with
    | none => exact hstays
    | some buffer =>
      dsimp only
      split
      · rename_i plan hplan
        obtain ⟨hmem, rfl⟩ := buffer?_eq_some hbuffer
        obtain ⟨restated, grown, changes, front, doomed, inserted, moved, back, hrestate, hbefore,
          holdAfter, R⟩ := (h.placed buffer hmem).restates hplan
        exact (reaches_edit h hbuffer hrestate R).mono fun _ hafter =>
          ⟨hafter.1, _, .edited hbuffer (.carried hplan hrestate hbefore holdAfter R), hafter.2⟩
      · exact hstays
      · exact hstays
  | takeStats => exact Reaches.alter ⟨h, _, .stays, rfl⟩

/-- What edits of a buffer keep is true of the buffer after any history. -/
theorem about_performAll {P : Vocabulary → Buffer → Prop} {id : BufferId} {history : List Command}
    (h : session.chart.Current)
    (hcongr : ∀ vocabulary grown buffer other, P vocabulary buffer → other.tokens = buffer.tokens →
      other.info? = buffer.info? → vocabulary.texts <+: grown.texts → P grown other)
    (hbegun : ∀ vocabulary kind, P vocabulary { id, kind })
    (hedits : ∀ front lo hi text, front ++ [.edit id lo hi text] <+: history →
      ∀ buffer after grown, (session.performAll front).chart.Current →
      (session.performAll front).chart.buffer? id = some buffer →
      buffer.Edits (session.performAll front).vocabulary ⟨lo, hi, text.normalize⟩ after grown →
      P (session.performAll front).vocabulary buffer → P grown after)
    (hold : session.chart.About P id) : (session.performAll history).chart.About P id := by
  induction history generalizing session with
  | nil => exact hold
  | cons command history ih =>
    obtain ⟨hcurrent, framed, hframed, hskeleton⟩ := (reaches_phases h command).result
    rw [← session.perform_eq command] at hcurrent hskeleton
    refine ih hcurrent (fun front lo hi text hfront => ?_) (About.congr ?_ hcongr hskeleton)
    · exact hedits (command :: front) lo hi text (List.cons_prefix_cons.2 ⟨rfl, hfront⟩)
    · refine hframed.about hcongr (hbegun _) ?_ hold
      rintro lo hi text buffer after grown rfl hbuffer
      exact hedits [] lo hi text (List.cons_prefix_cons.2 ⟨rfl, List.nil_prefix⟩) buffer after grown h
        hbuffer

end Session

end LiveProse
