import LiveProse.Proofs.Grammar.Numbers
import LiveProse.Proofs.Relex.Convergence
import LiveProse.Proofs.Session.Histories

/-! How a session spells things out. No text has two words and no production two numbers, and as long
as only text comes into the buffers, their tokens are what the text is cut into. So texts tell words,
tokens and productions apart. -/

namespace LiveProse

open Codepoint

/-! ### Words -/

section Words

variable {vocabulary : Vocabulary}

theorem Vocabulary.nodup_intern (h : vocabulary.texts.Nodup) (text : Text) :
    (vocabulary.intern text).1.texts.Nodup := by
  unfold intern
  split
  · exact h
  · rename_i hnone
    refine List.nodup_append'.2 ⟨h, List.nodup_singleton text, ?_⟩
    rw [List.disjoint_singleton]
    intro hmem
    rw [get?, Option.map_eq_none_iff, List.idxOf?, List.findIdx?_eq_none_iff] at hnone
    simpa using hnone text hmem

theorem RelexPlan.nodup_insertAll (h : vocabulary.texts.Nodup) (tokens : TokenSequence)
    (cursor : Cursor) (lexemes : List Lexeme) :
    (insertAll tokens vocabulary cursor lexemes).2.1.texts.Nodup := by
  induction lexemes generalizing tokens vocabulary with
  | nil => exact h
  | cons lexeme rest ih => exact ih (Vocabulary.nodup_intern h lexeme.text) _

/-- An edit carries a plan out on the tokens. -/
theorem Buffer.Edits.exists_apply_eq {buffer after : Buffer} {grown : Vocabulary} {edit : Edit}
    (hedits : buffer.Edits vocabulary edit after grown) :
    ∃ plan outcome, RelexPlan.make buffer.tokens vocabulary edit = .ok (some plan) ∧
      plan.apply buffer.tokens vocabulary = (after.tokens, grown, outcome) := by
  obtain ⟨hplan, hrestate, -, -, -⟩ := hedits
  exact ⟨_, _, hplan, congrArg (fun result =>
    (result.1.tokens, result.2.1, (RelexPlan.apply _ buffer.tokens vocabulary).2.2)) hrestate⟩

theorem Buffer.Edits.nodup_texts {buffer after : Buffer} {grown : Vocabulary} {edit : Edit}
    (hedits : buffer.Edits vocabulary edit after grown) (h : vocabulary.texts.Nodup) :
    grown.texts.Nodup := by
  obtain ⟨plan, outcome, -, happly⟩ := hedits.exists_apply_eq
  have hgrown : (plan.apply buffer.tokens vocabulary).2.1 = grown := by rw [happly]
  rw [← hgrown]
  exact RelexPlan.nodup_insertAll h _ _ _

end Words

/-! ### Tokens -/

/-- An operation brings no terminator into a text. -/
def Command.Plain : Command → Prop
  | .edit _ _ _ text => terminator ∉ text
  | _ => True

theorem ne_terminator_normalize {text : Text} (h : terminator ∉ text) :
    ∀ c ∈ text.normalize, c ≠ terminator := by
  intro c hc
  obtain ⟨d, hd, rfl⟩ := List.mem_map.1 hc
  have hne : d ≠ terminator := fun heq => h (heq ▸ hd)
  unfold Codepoint.normalize
  split_ifs <;> first | exact hne | decide

namespace Buffer

variable {buffer other after : Buffer} {vocabulary grown : Vocabulary} {edit : Edit}

/-- The tokens are what some text is cut into. -/
def Segmented (vocabulary : Vocabulary) (buffer : Buffer) : Prop :=
  ∃ lexemes text, Relex.Reads buffer.tokens vocabulary lexemes text ∧ ∀ c ∈ text, c ≠ terminator

theorem Segmented.congr (h : buffer.Segmented vocabulary) (htokens : other.tokens = buffer.tokens)
    (hgrows : vocabulary.texts <+: grown.texts) : other.Segmented grown := by
  obtain ⟨lexemes, text, ⟨hsound, hspells, hcuttable, hsegments⟩, htext⟩ := h
  rw [← htokens] at hsound hspells
  exact ⟨lexemes, text, ⟨hsound, hspells.imp fun _ _ hspell => hspell.mono hgrows, hcuttable,
    hsegments⟩, htext⟩

theorem Edits.segmented (hedits : buffer.Edits vocabulary edit after grown)
    (h : buffer.Segmented vocabulary) (hplain : ∀ c ∈ edit.text, c ≠ terminator) :
    after.Segmented grown := by
  obtain ⟨lexemes, text, hreads, htext⟩ := h
  obtain ⟨plan, outcome, hplan, happly⟩ := hedits.exists_apply_eq
  -- the plan was made, so the range lies in the text
  have hrange : edit.lo ≤ edit.hi ∧ edit.hi ≤ text.length := by
    rw [RelexPlan.make, hreads.total_eq] at hplan
    dsimp only at hplan
    by_contra hout
    rw [if_pos (by omega)] at hplan
    cases hplan
  obtain ⟨tokens, more, lexemes', hedit, hreads', -⟩ :=
    hreads.edit htext hrange.1 hrange.2 hplain
  rw [Relex.edit, hplan] at hedit
  simp only [Except.map, happly] at hedit
  obtain ⟨rfl, rfl⟩ := Prod.mk.inj (Except.ok.inj hedit)
  refine ⟨lexemes', _, hreads', fun c hc => ?_⟩
  exact Relex.ne_terminator_splice htext (fun hmem => hplain _ hmem rfl) c hc

end Buffer

namespace Chart

variable {chart framed : Chart} {command : Command}

/-- No text has two words, and no production two numbers. -/
structure Distinct (chart : Chart) : Prop where
  texts : chart.vocabulary.texts.Nodup
  productions : chart.grammar.Numbered

theorem Reframes.distinct (h : chart.Reframes command framed) (hold : chart.Distinct) :
    framed.Distinct := by
  cases h with
  | stays => exact hold
  | interned text => exact ⟨Vocabulary.nodup_intern hold.texts text, hold.productions⟩
  | defined hvalid => exact ⟨hold.texts, hold.productions.define hvalid⟩
  | removed hget => exact ⟨hold.texts, hold.productions.without hget⟩
  | begun | discarded | kept => exact ⟨hold.texts, hold.productions⟩
  | edited hbuffer hedits => exact ⟨hedits.nodup_texts hold.texts, hold.productions⟩

end Chart

namespace Session

open Chart

variable {session : Session} {id : BufferId}

theorem distinct_performAll (h : session.chart.Current) (hold : session.chart.Distinct)
    (history : List Command) : (session.performAll history).chart.Distinct := by
  induction history generalizing session with
  | nil => exact hold
  | cons command history ih =>
    obtain ⟨hcurrent, framed, hframed, hskeleton⟩ := (reaches_phases h command).result
    rw [← session.perform_eq command] at hcurrent hskeleton
    have hgrammar : (session.perform command).chart.grammar = framed.grammar :=
      congrArg (·.1) hskeleton
    have hvocabulary : (session.perform command).chart.vocabulary = framed.vocabulary :=
      congrArg (·.2.1) hskeleton
    obtain ⟨htexts, hproductions⟩ := hframed.distinct hold
    exact ih hcurrent ⟨hvocabulary ▸ htexts, hgrammar ▸ hproductions⟩

theorem about_segmented (h : session.chart.Current)
    (hold : session.chart.About Buffer.Segmented id) {history : List Command}
    (hplain : ∀ command ∈ history, command.Plain) :
    (session.performAll history).chart.About Buffer.Segmented id := by
  refine about_performAll h (fun _ _ _ _ hsegmented htokens _ hgrows =>
    hsegmented.congr htokens hgrows) (fun vocabulary _ =>
    ⟨[], [], Relex.reads_empty vocabulary, by simp⟩) ?_ hold
  intro front lo hi text hfront buffer after grown _ _ hedits hsegmented
  have hmem : Command.edit id lo hi text ∈ history :=
    hfront.subset (List.mem_append_right _ (List.mem_singleton_self _))
  exact hedits.segmented hsegmented (ne_terminator_normalize (hplain _ hmem))

end Session

end LiveProse
