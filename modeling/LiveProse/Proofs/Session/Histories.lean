import LiveProse.Proofs.Session.Frames

/-! What holds of a session after any history. Every operation keeps the chart current, so it always
shows exactly what can be derived from what is observed, with the right counts, and at every step of
the engine the consequences that are listed are those of the derivation table. -/

namespace LiveProse

namespace Session

open Chart

variable {session : Session}

theorem current_new (config : SessionConfig) : (new config).chart.Current := by
  refine ⟨⟨⟨Grammar.indexed_empty, List.nodup_nil, fun _ hbuffer => ?_, List.nodup_nil, fun _ hid => ?_⟩,
    fun id source target hnext => ?_, fun key hkey => ?_⟩, fun fact hkind => ?_,
    Grammar.unitOrdered_empty, fun _ hbuffer => ?_, fun id buffer hbuffer => ?_, fun id hid => ?_⟩
  · cases hbuffer
  · cases hid
  · cases hnext
  · rcases hkey with hkey | hkey <;> cases hkey
  · cases fact with
    | potential key | complete key =>
      rw [support_eq_empty rfl rfl]
      exact Set.encard_empty
    | _ => cases hkind
  · cases hbuffer
  · cases hbuffer
  · cases hid

theorem reaches_history (h : session.chart.Current) (history : List Command) :
    (session.performAll history).chart.Current ∧
      ∀ step ∈ session.steps history, step.Kept count Chart.Sound := by
  induction history generalizing session with
  | nil => exact ⟨h, by simp [steps]⟩
  | cons command history ih =>
    have hfirst := reaches_phases h command
    have hnext : (session.perform command).chart.Current := session.perform_eq command ▸ hfirst.result.1
    obtain ⟨hlast, hsteps⟩ := ih hnext
    refine ⟨hlast, fun step hstep => ?_⟩
    rcases List.mem_append.1 hstep with hstep | hstep
    · exact hfirst.steps step hstep
    · exact hsteps step hstep

/-- After every operation of a history the charts are the least fixpoint of the derivation table over
what is observed then: what holds is what can be derived, and the matches of every buffer are counted
once for each of their derivations that hold. -/
theorem performAll_exact (config : SessionConfig) (history : List Command) :
    let chart := ((new config).performAll history).chart
    (∀ fact, chart.holds fact = true ↔ table.Derivable chart fact) ∧
      ∀ buffer ∈ chart.buffers, ∀ key,
        (buffer.potentials.count key : ℕ∞) =
          (if key.buffer = buffer.id then (table.support chart (.potential key)).encard else 0) ∧
        (buffer.completes.count key : ℕ∞) =
          if key.buffer = buffer.id then (table.support chart (.complete key)).encard else 0 := by
  intro chart
  have h : chart.Current := (reaches_history (current_new config) history).1
  exact ⟨h.ordered.holds_iff_derivable h.settled h.unitOrdered, fun buffer hbuffer key =>
    h.counts hbuffer key⟩

/-- A word and then a full stop are typed, which make up a sentence of the only production. -/
def wordAndStop : List Command :=
  [.intern ['a'],
    .addProduction ⟨.sentence, ⟨⟨1⟩, 0⟩, [.ofList [.word], .ofList [.sentenceEnd]]⟩,
    .introduceBuffer ⟨0⟩ .story, .edit ⟨0⟩ 0 0 ['b'], .edit ⟨0⟩ 1 1 ['.']]

/-- The sentence is counted twice: it ends at its own full stop and before the end of the text. -/
theorem performAll_exact_wordAndStop :
    let chart := ((new {}).performAll wordAndStop).chart
    let key : MatchKey := ⟨⟨0⟩, ⟨0⟩, 2, ⟨0, 0⟩, ⟨1, 0⟩⟩
    table.Derivable chart (.complete key) ∧ ∃ buffer ∈ chart.buffers,
      buffer.completes.count key = 2 ∧ (table.support chart (.complete key)).encard = 2 := by
  have h := performAll_exact {} wordAndStop
  dsimp only at h
  generalize hchart : ((new {}).performAll wordAndStop).chart = chart at h
  have hholds : chart.holds (.complete ⟨⟨0⟩, ⟨0⟩, 2, ⟨0, 0⟩, ⟨1, 0⟩⟩) = true := by
    rw [← hchart]
    decide +kernel
  have hfound : (chart.buffers.find? fun buffer => buffer.id = ⟨0⟩ ∧
      buffer.completes.count ⟨⟨0⟩, ⟨0⟩, 2, ⟨0, 0⟩, ⟨1, 0⟩⟩ = 2).isSome = true := by
    rw [← hchart]
    decide +kernel
  obtain ⟨buffer, hbuffer⟩ := Option.isSome_iff_exists.1 hfound
  have hgood := List.find?_some hbuffer
  obtain ⟨hid, hcount⟩ := of_decide_eq_true hgood
  have hmem := List.mem_of_find?_eq_some hbuffer
  have hexact := (h.2 buffer hmem ⟨⟨0⟩, ⟨0⟩, 2, ⟨0, 0⟩, ⟨1, 0⟩⟩).2
  rw [hcount, hid, if_pos rfl] at hexact
  exact ⟨(h.1 _).1 hholds, buffer, hmem, hcount, hexact.symm⟩

/-- At every step of the engine that changes a fact, in one direction or the other, the consequences of
the fact are listed once for each derivation that has it among its antecedents and whose other
antecedents hold. -/
theorem steps_consequences (config : SessionConfig) (history : List Command) :
    ∀ step ∈ (new config).steps history,
      Engine.change step.direction step.before step.fact = (step.after, true) →
        Lists Derivation.conclusion (step.after.consequences step.fact)
          (table.through step.after step.fact) :=
  fun step hstep _ =>
    ((reaches_history (current_new config) history).2 step hstep).after.lists_consequences step.fact

/-- When the full stop is linked to the word, one derivation goes through the edge: it takes in the
full stop. -/
theorem steps_consequences_wordAndStop :
    ∃ step ∈ (new {}).steps wordAndStop,
      step.fact = .next ⟨0⟩ (.token ⟨0, 0⟩) (.token ⟨1, 0⟩) ∧
      Engine.change step.direction step.before step.fact = (step.after, true) ∧
      (step.after.consequences step.fact).length = 1 ∧
      Lists Derivation.conclusion (step.after.consequences step.fact)
        (table.through step.after step.fact) := by
  have hfound : (((new {}).steps wordAndStop).find? fun step =>
      step.fact = .next ⟨0⟩ (.token ⟨0, 0⟩) (.token ⟨1, 0⟩) ∧ step.changed = true ∧
        (step.after.consequences step.fact).length = 1).isSome = true := by
    decide +kernel
  obtain ⟨step, hstep⟩ := Option.isSome_iff_exists.1 hfound
  have hgood := List.find?_some hstep
  obtain ⟨hfact, hchanged, hlength⟩ := of_decide_eq_true hgood
  have hmem := List.mem_of_find?_eq_some hstep
  have hchange := (new {}).change_of_mem_steps wordAndStop step hmem
  rw [hchanged] at hchange
  exact ⟨step, hmem, hfact, hchange, hlength, steps_consequences {} wordAndStop step hmem hchange⟩

end Session

end LiveProse
