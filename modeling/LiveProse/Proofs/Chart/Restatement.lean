import LiveProse.Chart.Chart
import LiveProse.Proofs.Relex.Bounds
import LiveProse.Proofs.Relex.Rows

/-! What an edit does to the sites of a buffer, read off the rows of tokens on which it works: those in
front of it, the ones that make way, the ones that come, the ones that stay in another state, and those
behind. -/

namespace LiveProse

namespace Buffer

/-- A token with what was known about it and what is known now. -/
structure Reading where
  handle : Handle
  old : Option SiteInfo
  new : Option SiteInfo

/-- The readings of the tokens of a region, beginning with a lexical state. -/
def readings (buffer : Buffer) (vocabulary : Vocabulary) (before : LexicalState) :
    List (Handle × Token × Bool) → List Reading
  | [] => []
  | (handle, token, inserted) :: rest =>
    ⟨handle, if inserted then none else (buffer.record? (.token handle)).map (·.info),
      SiteInfo.ofToken? token before vocabulary⟩ ::
        readings buffer vocabulary (token.stateAfter before) rest

namespace Reading

/-- Another thing is known now than was. -/
def isRetired (reading : Reading) : Bool := reading.old.isSome && reading.old ≠ reading.new

def isKept (reading : Reading) : Bool := reading.old.isSome && reading.old = reading.new

def site (reading : Reading) : Site := .token reading.handle

def fresh? (reading : Reading) : Option (Handle × SiteInfo) :=
  if reading.old = reading.new then none else reading.new.map fun info => (reading.handle, info)

end Reading

variable {buffer : Buffer} {vocabulary : Vocabulary}

theorem add_eq (changes : Restatement) (handle : Handle) (old new : Option SiteInfo) :
    changes.add handle old new =
      let reading : Reading := ⟨handle, old, new⟩
      { changes with
        retired := changes.retired ++ if reading.isRetired then [reading.site] else []
        fresh := changes.fresh ++ reading.fresh?.toList
        kept := changes.kept ++ if reading.isKept then [reading.site] else []
        chain := changes.chain ++ if reading.new.isSome then [reading.site] else [] } := by
  unfold Restatement.add
  cases old with
  | none => cases new <;> simp [Reading.isRetired, Reading.isKept, Reading.fresh?, Reading.site]
  | some o =>
    cases new with
    | none => simp [Reading.isRetired, Reading.isKept, Reading.fresh?, Reading.site]
    | some n =>
      by_cases h : o = n <;>
        simp [h, Reading.isRetired, Reading.isKept, Reading.fresh?, Reading.site]

/-- The changes of a region, by its readings. -/
theorem restateFrom_eq (changes : Restatement) (before : LexicalState)
    (region : List (Handle × Token × Bool)) :
    buffer.restateFrom vocabulary changes before region =
      let readings := buffer.readings vocabulary before region
      { changes with
        retired := changes.retired ++ (readings.filter (·.isRetired)).map (·.site)
        fresh := changes.fresh ++ readings.filterMap (·.fresh?)
        kept := changes.kept ++ (readings.filter (·.isKept)).map (·.site)
        chain := changes.chain ++ (readings.filter (·.new.isSome)).map (·.site) } := by
  induction region generalizing changes before with
  | nil => simp [restateFrom, readings]
  | cons entry rest ih =>
    obtain ⟨handle, token, inserted⟩ := entry
    rw [restateFrom, readings]
    dsimp only
    rw [ih, add_eq]
    dsimp only
    simp only [List.filter_cons, List.filterMap_cons, List.append_assoc]
    congr 1
    · split_ifs <;> simp
    · cases Reading.fresh? _ <;> simp
    · split_ifs <;> simp
    · split_ifs <;> simp

theorem map_handle_readings (before : LexicalState) (region : List (Handle × Token × Bool)) :
    (buffer.readings vocabulary before region).map (·.handle) = region.map (·.1) := by
  induction region generalizing before with
  | nil => rfl
  | cons entry rest ih =>
    rw [readings, List.map_cons, List.map_cons, ih]

theorem readings_congr {other : Buffer} (h : other.records = buffer.records) :
    other.readings = buffer.readings := by
  funext vocabulary before region
  induction region generalizing before with
  | nil => rfl
  | cons entry rest ih => rw [readings, readings, ih, record?, record?, h]

/-- The nearest recorded site among some tokens. -/
def nearest (buffer : Buffer) (tokens : List (Handle × Token)) (default : Site) : Site :=
  ((tokens.map fun (handle, _) => Site.token handle).find? buffer.hasRecord).getD default

/-- The region of an edit: the readings of the tokens that come and of those that are restated. -/
def regionReadings (buffer : Buffer) (vocabulary : Vocabulary) (before : LexicalState)
    (inserted moved : List (Handle × Token)) : List Reading :=
  buffer.readings vocabulary before
    (inserted.map (fun (handle, token) => (handle, token, true)) ++
      moved.map fun (handle, token) => (handle, token, false))

/-- An edit of a buffer, in rows of tokens. -/
structure Restates (buffer : Buffer) (plan : RelexPlan) (vocabulary : Vocabulary)
    (restated : Buffer) (grown : Vocabulary) (changes : Restatement)
    (front doomed inserted moved back : List (Handle × Token)) : Prop where
  entries : buffer.tokens.entries = front ++ (doomed ++ (moved ++ back))
  restated_entries : restated.tokens.entries = front ++ (inserted ++ (moved ++ back))
  tokens : ∀ S, restated.tokens.Sound S
  same : restated = { buffer with tokens := restated.tokens }
  unnamed : ∀ entry ∈ inserted, entry.1 ∉ buffer.tokens.handles
  grows : vocabulary.texts <+: grown.texts
  spells : List.Forall₂ (Token.Spells grown) (inserted.map (·.2)) plan.lexemes
  moved_eq : moved = differingTokens plan.oldAfter
    (TokenSequence.stateBefore restated.tokens
      (restated.tokens.nth (front.length + inserted.length))) (moved ++ back)
  retired_eq : changes.retired =
    (doomed.map fun (handle, _) => Site.token handle).filter buffer.hasRecord ++
      ((buffer.regionReadings grown plan.before inserted moved).filter (·.isRetired)).map (·.site)
  fresh_eq : changes.fresh =
    (buffer.regionReadings grown plan.before inserted moved).filterMap (·.fresh?)
  kept_eq : changes.kept = buffer.nearest front.reverse .start ::
    ((buffer.regionReadings grown plan.before inserted moved).filter (·.isKept)).map (·.site)
  chain_eq : changes.chain = buffer.nearest front.reverse .start ::
    (((buffer.regionReadings grown plan.before inserted moved).filter (·.new.isSome)).map
      (·.site) ++ [buffer.nearest back .finish])

section Rows

variable {tokens : TokenSequence} {front middle back : List (Handle × Token)}

theorem rank_nth_of_entries (h : tokens.Sound Token.codepointSummary)
    (hentries : tokens.entries = front ++ back) :
    tokens.rank (tokens.nth front.length) = front.length :=
  h.rank_nth (by rw [hentries]; simp)

/-- The nearest site before a row of tokens. -/
theorem significantBefore_eq (buffer : Buffer) (h : tokens.Sound Token.codepointSummary)
    (hentries : tokens.entries = front ++ back) :
    ({ buffer with tokens } : Buffer).significantBefore (tokens.nth front.length) =
      buffer.nearest front.reverse .start := by
  rw [significantBefore, rank_nth_of_entries h hentries, Sequence.handles, hentries, nearest,
    List.map_append, List.take_left' (List.length_map _), ← List.map_reverse, List.map_map]
  rfl

/-- The nearest site from a row of tokens on. -/
theorem significantFrom_eq (buffer : Buffer) (h : tokens.Sound Token.codepointSummary)
    (hentries : tokens.entries = front ++ back) :
    ({ buffer with tokens } : Buffer).significantFrom (tokens.nth front.length) =
      buffer.nearest back .finish := by
  rw [significantFrom, rank_nth_of_entries h hentries, Sequence.handles, hentries, nearest,
    List.map_append, List.drop_left' (List.length_map _), List.map_map]
  rfl

/-- The position behind a row of tokens. -/
theorem next_getLast_eq (h : tokens.Sound Token.codepointSummary)
    (hentries : tokens.entries = front ++ (middle ++ back)) :
    (match middle.getLast? with
      | some (handle, _) => tokens.next (some handle)
      | none => tokens.nth front.length) = tokens.nth (front ++ middle).length := by
  rcases List.eq_nil_or_concat middle with rfl | ⟨init, ⟨handle, token⟩, rfl⟩
  · simp
  · rw [List.concat_eq_append] at hentries ⊢
    rw [List.getLast?_concat]
    dsimp only
    have hlt : front.length + init.length < tokens.entries.length := by
      rw [hentries]
      simp
    have hnth : some handle = tokens.nth (front.length + init.length) := by
      rw [h.nth_eq, Sequence.handles, hentries]
      simp
    rw [hnth, h.next_nth hlt, List.length_append, List.length_append, Nat.add_assoc]
    rfl

/-- The tokens of a row, looked up by their handles. -/
theorem filterMap_get?_eq (h : tokens.Sound Token.codepointSummary)
    (hentries : tokens.entries = front ++ (middle ++ back)) :
    ((middle.map (·.1)).filterMap fun handle =>
      (tokens.get? handle).map fun token => (handle, token, true)) =
        middle.map fun (handle, token) => (handle, token, true) := by
  have hget : ∀ entry ∈ middle, tokens.get? entry.1 = some entry.2 := by
    intro entry hentry
    rw [Sequence.get?_eq_lookup]
    refine (lookup_eq_some_iff_mem h.named.nodup_handles).2 ?_
    rw [hentries]
    exact List.mem_append_right _ (List.mem_append_left _ hentry)
  clear hentries
  induction middle with
  | nil => rfl
  | cons entry middle ih =>
    rw [List.map_cons, List.filterMap_cons, hget entry List.mem_cons_self, List.map_cons,
      ih fun other hother => hget other (List.mem_cons_of_mem _ hother)]
    rfl

end Rows

/-- Carrying a plan out is an edit in rows of tokens. -/
theorem restates_restate (vocabulary : Vocabulary) (h : ∀ S, buffer.tokens.Sound S) {plan : RelexPlan} {start : ℕ}
    (hcount : start + plan.replaced ≤ buffer.tokens.entries.length)
    (hstart : plan.start = buffer.tokens.nth start) :
    ∃ restated grown changes front doomed inserted moved back,
      buffer.restate plan vocabulary = (restated, grown, changes) ∧ front.length = start ∧
        doomed.length = plan.replaced ∧ Restates buffer plan vocabulary restated grown changes front
          doomed inserted moved back := by
  obtain ⟨tokens, grown, outcome, happly⟩ : ∃ tokens grown outcome,
    plan.apply buffer.tokens vocabulary = (tokens, grown, outcome) := ⟨_, _, _, rfl⟩
  obtain ⟨front, doomed, inserted, rest, hlength, R⟩ := RelexPlan.rows_apply h hstart hcount happly
  have hsound := R.sound Token.codepointSummary
  have hafter := R.entries_after
  have hstop : tokens.rank outcome.stop = front.length + inserted.length := by
    rw [R.stop_eq, hsound.rank_nth]
    rw [hafter]
    simp
  obtain ⟨moved, hmoved⟩ : ∃ moved, outcome.restated tokens = moved := ⟨_, rfl⟩
  have hmoved' : moved = differingTokens plan.oldAfter (TokenSequence.stateBefore tokens
      (tokens.nth (front.length + inserted.length))) rest := by
    rw [← hmoved, RelexOutcome.restated, hstop, hafter, R.oldAfter_eq, R.stop_eq, ← List.append_assoc,
      ← List.length_append, List.drop_left]
  obtain ⟨back, hback⟩ := differingTokens_append plan.oldAfter
    (TokenSequence.stateBefore tokens (tokens.nth (front.length + inserted.length))) rest
  rw [← hmoved'] at hback
  subst hback
  have hdoomedTokens : plan.doomed buffer.tokens = doomed := by
    rw [RelexPlan.doomed, hstart, (h Token.codepointSummary).rank_nth (by omega), R.entries, ← hlength,
      List.drop_left, ← R.length_doomed, List.take_left]
  have hregion := filterMap_get?_eq hsound hafter
  rw [← R.handles] at hregion
  have hfirst := buffer.significantBefore_eq hsound hafter
  have hafter' : tokens.entries = (front ++ inserted) ++ (moved ++ back) := by
    rw [hafter, List.append_assoc]
  have hcursor := next_getLast_eq hsound hafter'
  have hlast := buffer.significantFrom_eq hsound (hafter'.trans (List.append_assoc ..).symm)
  rw [← R.start_eq] at hfirst
  rw [List.length_append, ← R.stop_eq] at hcursor
  have hrestate : buffer.restate plan vocabulary = ({ buffer with tokens }, grown,
      { outcome
        retired := (doomed.map fun (handle, _) => Site.token handle).filter buffer.hasRecord ++
          ((buffer.regionReadings grown plan.before inserted moved).filter (·.isRetired)).map (·.site)
        fresh := (buffer.regionReadings grown plan.before inserted moved).filterMap (·.fresh?)
        kept := buffer.nearest front.reverse .start ::
          ((buffer.regionReadings grown plan.before inserted moved).filter (·.isKept)).map (·.site)
        chain := buffer.nearest front.reverse .start ::
          (((buffer.regionReadings grown plan.before inserted moved).filter (·.new.isSome)).map
            (·.site) ++ [buffer.nearest back .finish]) }) := by
    rw [restate, happly]
    dsimp only
    rw [hmoved, hregion, hdoomedTokens, hfirst, restateFrom_eq, R.before_eq, ← hlast, ← hcursor]
    have hreadings : ({ buffer with tokens } : Buffer).readings = buffer.readings :=
      readings_congr rfl
    rw [hreadings]
    rfl
  exact ⟨_, grown, _, front, doomed, inserted, moved, back, hrestate, hlength, R.length_doomed,
    ⟨R.entries, hafter, R.sound, rfl, R.unnamed, R.grows, R.spells, hmoved', rfl, rfl, rfl, rfl⟩⟩

end Buffer

end LiveProse
