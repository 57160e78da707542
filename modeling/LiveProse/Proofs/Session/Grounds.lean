import LiveProse.Proofs.Session.Independence
import LiveProse.Proofs.Session.Sentences

/-! Nothing dangles. When an edit drops records, nothing is justified any more at their sites; and between
operations every match is of a production in use and runs from one token of its buffer to another, so
that all complete matches can be listed with what they cover. -/

namespace LiveProse

open TokenSequence

/-- What a partial function answers, answered for each element of a list where it is defined on all of
them. -/
theorem forall₂_filterMap {α β : Type} {f : α → Option β} {xs : List α}
    (h : ∀ a ∈ xs, ∃ b, f a = some b) : List.Forall₂ (fun a b => f a = some b) xs (xs.filterMap f) := by
  induction xs with
  | nil => exact .nil
  | cons a xs ih =>
    obtain ⟨b, hb⟩ := h a List.mem_cons_self
    rw [List.filterMap_cons_some hb]
    exact .cons hb (ih fun a ha => h a (List.mem_cons_of_mem _ ha))

namespace Sequence

variable {α : Type} [Combine α] {S : Summary α} {sequence : Sequence α} {handle : Handle}

/-- The rank of an element is its place in the row of handles. -/
theorem Sound.rank_of_mem (h : sequence.Sound S) (hmem : handle ∈ sequence.handles) :
    sequence.rank (some handle) = sequence.handles.idxOf handle := by
  have hlt := List.idxOf_lt_length_of_mem hmem
  rw [h.nth_of_mem hmem]
  exact h.rank_nth (by simpa using hlt.le)

omit [Combine α] in
theorem contains_of_mem (hmem : handle ∈ sequence.handles) : sequence.contains handle = true := by
  rw [contains, get?_eq_lookup]
  exact lookup_isSome_iff.2 hmem

end Sequence

namespace TokenSequence

variable {tokens : TokenSequence} {first last : Handle} {token : Token}

/-- The codepoints before a token are those of the tokens before it. -/
theorem offset_of_mem (h : tokens.Sound Token.codepointSummary) {handle : Handle}
    (hmem : handle ∈ tokens.handles) : offset tokens (some handle) =
      ((tokens.toList.map (·.codepoints)).take (tokens.rank (some handle))).sum := by
  have hlt := List.idxOf_lt_length_of_mem hmem
  rw [h.rank_of_mem hmem, h.nth_of_mem hmem, ← List.map_take]
  exact h.sumBefore (by simpa using hlt.le)

theorem offset_le_offset (h : tokens.Sound Token.codepointSummary) (hfirst : first ∈ tokens.handles)
    (hlast : last ∈ tokens.handles) (hle : tokens.rank (some first) ≤ tokens.rank (some last)) :
    offset tokens (some first) ≤ offset tokens (some last) := by
  rw [offset_of_mem h hfirst, offset_of_mem h hlast]
  exact List.monotone_sum_take _ hle

end TokenSequence

namespace Chart

variable {chart s : Chart} {buffer restated : Buffer} {key : MatchKey}

/-- A match that lies in a buffer as it should: its production is defined and in use, at least one of its
slots is filled and no more than there are, and it runs from one token of the buffer to one that does not
come before it, both with records. -/
structure Grounded (chart : Chart) (buffer : Buffer) (key : MatchKey) : Prop where
  own : key.buffer = buffer.id
  used : key.production ∈ chart.active
  filled : ∃ production, chart.grammar.get? key.production = some production ∧
    1 ≤ key.slotsFilled ∧ key.slotsFilled ≤ production.arity
  beginning : buffer.tokens.contains key.beginning = true ∧ buffer.hasRecord key.beginningSite = true
  ending : buffer.tokens.contains key.inclusiveEnd = true ∧ buffer.hasRecord key.endSite = true
  spans : buffer.tokens.rank (some key.beginning) ≤ buffer.tokens.rank (some key.inclusiveEnd)

/-- Every derivation of a match fills a slot, or goes on from a match. -/
theorem Current.slotsFilled_pos (h : chart.Current)
    (hkey : chart.holds (.potential key) = true ∨ chart.holds (.complete key) = true) :
    1 ≤ key.slotsFilled := by
  have hpotential : chart.holds (.potential key) = true :=
    hkey.elim id fun hkey => (h.filled_of_complete hkey).1
  obtain ⟨d, -, hconclusion⟩ := h.exists_holding hpotential rfl
  cases d with
  | completeWording | completeAtEnd | completeBefore => cases hconclusion
  | _ =>
    obtain rfl := Fact.potential.inj hconclusion
    exact Nat.succ_pos _

theorem Current.grounded (h : chart.Current) (hbuffer : buffer ∈ chart.buffers)
    (hkey : buffer.potentials.contains key = true ∨ buffer.completes.contains key = true) :
    chart.Grounded buffer key := by
  have hfound := (buffer?_eq_some_iff h.ordered.sound.ids).2 ⟨hbuffer, rfl⟩
  have hplaced := h.placed buffer hbuffer
  have htokens := hplaced.tokens Token.codepointSummary
  obtain ⟨hown, hheld⟩ := h.ordered.sound.holds_of_contains hbuffer hkey
  have hconceivable := h.ordered.sound.conceivable_of_holds hheld
  obtain ⟨production, hget, hle⟩ := hconceivable.defined
  have hrecorded {site : Site} (hsite : chart.Recorded key.buffer site) : buffer.hasRecord site = true := by
    obtain ⟨found, hfound', hrecord⟩ := hsite
    rw [hown, hfound] at hfound'
    rwa [Option.some.inj hfound']
  have hbegin := hplaced.live _ (hrecorded hconceivable.beginning)
  have hend := hplaced.live _ (hrecorded hconceivable.ending)
  refine ⟨hown, List.contains_iff_mem.1 (h.ordered.restsOn h.settled h.unitOrdered hheld).1,
    ⟨production, hget, h.slotsFilled_pos hheld, hle⟩,
    ⟨Sequence.contains_of_mem hbegin, hrecorded hconceivable.beginning⟩,
    ⟨Sequence.contains_of_mem hend, hrecorded hconceivable.ending⟩, ?_⟩
  have hspan := h.ordered.spanned key hheld
  rw [hown, position_of_buffer? hfound] at hspan
  rw [htokens.rank_of_mem hbegin, htokens.rank_of_mem hend]
  exact Nat.le_of_succ_le_succ hspan

/-! ### Listed matches -/

/-- A span lists a match of a buffer. -/
structure Covers (chart : Chart) (buffer : Buffer) (key : MatchKey) (span : MatchSpan) : Prop where
  place : buffer.span? key = some (span.lo, span.hi)
  production : span.production = key.production
  result : chart.result? key = some span.result

theorem covers_of_matchSpan? {span : MatchSpan} (h : chart.matchSpan? buffer key = some span) :
    chart.Covers buffer key span := by
  obtain ⟨place, hplace, hspan⟩ := Option.bind_eq_some_iff.1 h
  obtain ⟨result, hresult, rfl⟩ := Option.map_eq_some_iff.1 hspan
  exact ⟨hplace, rfl, hresult⟩

/-- What a match covers that lies in its buffer as it should. -/
theorem Grounded.exists_span? (h : chart.Grounded buffer key) :
    ∃ last, buffer.tokens.get? key.inclusiveEnd = some last ∧
      buffer.span? key = some (offset buffer.tokens (some key.beginning),
        offset buffer.tokens (some key.inclusiveEnd) + last.codepoints) := by
  obtain ⟨token, htoken⟩ := Option.isSome_iff_exists.1 h.beginning.1
  obtain ⟨last, hlast⟩ := Option.isSome_iff_exists.1 h.ending.1
  refine ⟨last, hlast, ?_⟩
  rw [Buffer.span?, htoken, hlast]
  rfl

/-- A match that lies in its buffer as it should can be listed. -/
theorem Grounded.exists_matchSpan? (h : chart.Grounded buffer key) :
    ∃ span, chart.matchSpan? buffer key = some span := by
  obtain ⟨production, hget, -⟩ := h.filled
  obtain ⟨last, -, hspan⟩ := h.exists_span?
  rw [matchSpan?, hspan, result?, hget]
  exact ⟨_, rfl⟩

/-- A match over tokens that are not empty covers some codepoints. -/
theorem Grounded.lo_lt_hi (h : chart.Grounded buffer key) (hplaced : buffer.Placed)
    (hall : ∀ token ∈ buffer.tokens.toList, 0 < token.codepoints) {span : MatchSpan}
    (hspan : chart.Covers buffer key span) : span.lo < span.hi := by
  obtain ⟨last, hlast, hplace⟩ := h.exists_span?
  have htokens := hplaced.tokens Token.codepointSummary
  obtain ⟨hlo, hhi⟩ := Prod.mk.inj (Option.some.inj (hspan.place.symm.trans hplace))
  have hle := offset_le_offset htokens (hplaced.live _ h.beginning.2) (hplaced.live _ h.ending.2) h.spans
  have hentry : (key.inclusiveEnd, last) ∈ buffer.tokens.entries := by
    rw [← lookup_eq_some_iff_mem htokens.named.nodup_handles, ← Sequence.get?_eq_lookup]
    exact hlast
  have hpos := hall last (List.mem_map_of_mem (f := Prod.snd) hentry)
  omega

end Chart

namespace Session

open Chart

variable {session : Session} {buffer : Buffer} {id : BufferId}

/-- Every complete match is listed once. -/
theorem exists_completeMatches (h : session.chart.Current) (hbuffer : buffer ∈ session.chart.buffers) :
    ∃ keys spans, session.completeMatches buffer.id = .ok spans ∧ keys.Nodup ∧
      (∀ key, key ∈ keys ↔ buffer.completes.contains key = true) ∧
      List.Forall₂ (session.chart.Covers buffer) keys spans := by
  have hfound := (buffer?_eq_some_iff h.ordered.sound.ids).2 ⟨hbuffer, rfl⟩
  have hkeys (key : MatchKey) :
      key ∈ buffer.completes.toList ↔ buffer.completes.contains key = true := by
    simp [Bank.toList, Bank.contains]
  have hlisted : List.Forall₂ (fun key span => session.chart.matchSpan? buffer key = some span)
      buffer.completes.toList (buffer.completes.toList.filterMap (session.chart.matchSpan? buffer)) :=
    forall₂_filterMap fun key hkey =>
      (h.grounded hbuffer (.inr ((hkeys key).1 hkey))).exists_matchSpan?
  obtain ⟨keys, hperm, hcovers⟩ : Relation.Comp List.Perm
      (List.Forall₂ fun key span => session.chart.matchSpan? buffer key = some span)
      buffer.completes.toList (MatchSpan.sorted
        (buffer.completes.toList.filterMap (session.chart.matchSpan? buffer))) := by
    rw [← List.forall₂_comp_perm_eq_perm_comp_forall₂]
    exact ⟨_, hlisted, (List.mergeSort_perm _ _).symm⟩
  refine ⟨keys, _, completeMatches_eq hfound, hperm.nodup (nodup_eraseDups _), fun key => ?_,
    hcovers.imp fun _ _ => covers_of_matchSpan?⟩
  rw [← hperm.mem_iff]
  exact hkeys key

/-! ### The exchange of records -/

/-- A session at the point of an edit where records are exchanged: the tokens are the new ones, and what
the edit takes back is retracted. -/
def retract (session : Session) (buffer : Buffer) (plan : RelexPlan) : Session :=
  let (restated, vocabulary, changes) := buffer.restate plan session.vocabulary
  let session := { session with chart := { session.chart.setBuffer restated with vocabulary } }
  (session.forceFalse (restated.retiredFacts changes)).forceFalse (restated.staleEdges changes)

/-- The rest of an edit, which begins with the exchange of records. -/
def relink (session : Session) (id : BufferId) (changes : Buffer.Restatement) : Session :=
  let session := session.modifyBuffer id fun buffer =>
    (buffer.retire changes.retired).openSites changes.fresh
  (session.justifyAll (freshFacts id changes.fresh)).justifyAll
    (changes.edges.map fun (source, target) => .next id source target)

/-- An edit that has a plan goes through the exchange of records. -/
theorem edit_eq_relink {lo hi : Nat} {text : Text} {plan : RelexPlan}
    (hbuffer : session.chart.buffer? id = some buffer)
    (hplan : RelexPlan.make buffer.tokens session.vocabulary ⟨lo, hi, text.normalize⟩ =
      .ok (some plan)) :
    (session.edit id lo hi text).map (·.1) = .ok ((session.retract buffer plan).relink id
      (buffer.restate plan session.vocabulary).2.2) := by
  obtain rfl := (buffer?_eq_some hbuffer).2
  simp only [edit, Session.buffer, hbuffer]
  dsimp only [bind, Except.bind]
  rw [hplan]
  rfl

theorem retract_eq {plan : RelexPlan} {restated : Buffer} {grown : Vocabulary}
    {changes : Buffer.Restatement}
    (hrestate : buffer.restate plan session.vocabulary = (restated, grown, changes)) :
    session.retract buffer plan =
      Phase.runAll session (retractionPhases restated grown changes) := by
  rw [retract, hrestate]
  rfl

/-- When records are exchanged, nothing is justified at the sites whose records go. -/
theorem factsAt_retract (h : session.chart.Current) {edit : Edit} {plan : RelexPlan}
    (hbuffer : session.chart.buffer? id = some buffer)
    (hplan : RelexPlan.make buffer.tokens session.vocabulary edit = .ok (some plan)) :
    ∃ changed, (session.retract buffer plan).chart.buffer? id = some changed ∧
      ∀ site ∈ (buffer.restate plan session.vocabulary).2.2.retired, changed.factsAt site = [] := by
  obtain ⟨hmem, rfl⟩ := buffer?_eq_some hbuffer
  obtain ⟨restated, grown, changes, front, doomed, inserted, moved, back, hrestate, -, -, R⟩ :=
    (h.placed buffer hmem).restates hplan
  have hshows := (reaches_retraction h hbuffer R).result
  rw [← retract_eq hrestate] at hshows
  rw [hrestate]
  obtain ⟨changed, hchanged, -⟩ := h.renewed hbuffer R hshows
  have hid := (buffer?_eq_some hchanged).2
  refine ⟨changed, hchanged, fun site hsite => List.eq_nil_iff_forall_not_mem.2 fun fact hfact => ?_⟩
  obtain ⟨hown, hholds, hplace⟩ := (hshows.ordered.sound.buffer hchanged).mem_factsAt.1 hfact
  rw [hid] at hown
  exact h.not_retired hbuffer R hshows hown ((holds_of_buffer? hown hchanged).trans hholds) site hplace
    hsite

/-! ### Histories -/

/-- After any history nothing dangles. An edit drops records only where nothing is justified any more,
every match of every buffer lies in it as it should, and the complete matches are listed, each of them
once, over some codepoints unless there are empty tokens. -/
theorem performAll_grounded (config : SessionConfig) (history : List Command) :
    let session := (new config).performAll history
    (∀ id lo hi text buffer plan, session.chart.buffer? id = some buffer →
      RelexPlan.make buffer.tokens session.vocabulary ⟨lo, hi, text.normalize⟩ = .ok (some plan) →
        let changes := (buffer.restate plan session.vocabulary).2.2
        (session.edit id lo hi text).map (·.1) = .ok ((session.retract buffer plan).relink id changes) ∧
          ∃ changed, (session.retract buffer plan).chart.buffer? id = some changed ∧
            ∀ site ∈ changes.retired, changed.factsAt site = []) ∧
      ∀ buffer ∈ session.chart.buffers,
        (∀ key, buffer.potentials.contains key = true ∨ buffer.completes.contains key = true →
          session.chart.Grounded buffer key) ∧
        ∃ keys spans, session.completeMatches buffer.id = .ok spans ∧ keys.Nodup ∧
          (∀ key, key ∈ keys ↔ buffer.completes.contains key = true) ∧
          List.Forall₂ (session.chart.Covers buffer) keys spans ∧
          ((∀ token ∈ buffer.tokens.toList, 0 < token.codepoints) →
            ∀ span ∈ spans, span.lo < span.hi) := by
  intro session
  have h : session.chart.Current := (reaches_history (current_new config) history).1
  refine ⟨fun id lo hi text buffer plan hbuffer hplan =>
    ⟨edit_eq_relink hbuffer hplan, factsAt_retract h hbuffer hplan⟩, fun buffer hbuffer =>
    ⟨fun key hkey => h.grounded hbuffer hkey, ?_⟩⟩
  obtain ⟨keys, spans, hanswer, hnodup, hkeys, hcovers⟩ := exists_completeMatches h hbuffer
  refine ⟨keys, spans, hanswer, hnodup, hkeys, hcovers, fun hall span hspan => ?_⟩
  obtain ⟨key, hkey, hcover⟩ : ∃ key ∈ keys, session.chart.Covers buffer key span := by
    obtain ⟨index, hindex, rfl⟩ := List.getElem_of_mem hspan
    have hlength := hcovers.length_eq
    exact ⟨keys[index], List.getElem_mem _, hcovers.get (hlength ▸ hindex) hindex⟩
  exact (h.grounded hbuffer (.inr ((hkeys key).1 hkey))).lo_lt_hi (h.placed buffer hbuffer) hall hcover

/-- Before the full stop is taken away from the word, the sentence is listed. When its record goes, nothing
is justified any more at the site of the full stop. -/
theorem performAll_grounded_wordAndStop :
    let session := (new {}).performAll wordAndStop
    let key : MatchKey := ⟨⟨0⟩, ⟨0⟩, 2, ⟨0, 0⟩, ⟨1, 0⟩⟩
    ∃ buffer plan, session.chart.buffer? ⟨0⟩ = some buffer ∧
      RelexPlan.make buffer.tokens session.vocabulary ⟨1, 2, []⟩ = .ok (some plan) ∧
      buffer.factsAt key.endSite ≠ [] ∧
      (∃ changed, (session.retract buffer plan).chart.buffer? ⟨0⟩ = some changed ∧
        changed.factsAt key.endSite = []) ∧
      session.chart.Grounded buffer key ∧
      ∃ spans, session.completeMatches ⟨0⟩ = .ok spans ∧
        ∃ span ∈ spans, session.chart.Covers buffer key span ∧ span.lo < span.hi := by
  have hall := performAll_grounded {} wordAndStop
  dsimp only at hall ⊢
  generalize hsession : (new {}).performAll wordAndStop = session at hall ⊢
  obtain ⟨hretired, hheld⟩ := hall
  have hfound : (session.chart.buffer? ⟨0⟩).any (fun buffer =>
      buffer.completes.contains ⟨⟨0⟩, ⟨0⟩, 2, ⟨0, 0⟩, ⟨1, 0⟩⟩ &&
        (!(buffer.factsAt (.token ⟨1, 0⟩)).isEmpty) &&
        buffer.tokens.toList.all (fun token => decide (0 < token.codepoints)) &&
        (RelexPlan.make buffer.tokens session.vocabulary ⟨1, 2, Text.normalize []⟩).toOption.join.any
          fun plan => (buffer.restate plan session.vocabulary).2.2.retired.contains (.token ⟨1, 0⟩)) =
      true := by
    rw [← hsession]
    decide +kernel
  obtain ⟨buffer, hbuffer, hgood⟩ := (Option.any_eq_true _ _).1 hfound
  simp only [Bool.and_eq_true, List.all_eq_true, decide_eq_true_eq] at hgood
  obtain ⟨⟨⟨hkey, hfacts⟩, htokens⟩, hplan⟩ := hgood
  obtain ⟨plan, hjoin, hretires⟩ := (Option.any_eq_true _ _).1 hplan
  rw [Option.join_eq_some_iff] at hjoin
  cases hmake : RelexPlan.make buffer.tokens session.vocabulary ⟨1, 2, Text.normalize []⟩ with
  | error => rw [hmake] at hjoin; cases hjoin
  | ok made =>
    obtain rfl : made = some plan := by rw [hmake] at hjoin; exact Option.some.inj hjoin
    obtain ⟨-, changed, hchanged, hempty⟩ := hretired ⟨0⟩ 1 2 [] buffer plan hbuffer hmake
    obtain ⟨hmem, hid⟩ := buffer?_eq_some hbuffer
    obtain ⟨hgrounded, keys, spans, hanswer, -, hkeys, hcovers, hpositive⟩ := hheld buffer hmem
    obtain ⟨index, hindex, hindexed⟩ := List.getElem_of_mem ((hkeys _).2 hkey)
    have hcover := hcovers.get hindex (hcovers.length_eq ▸ hindex)
    simp only [List.get_eq_getElem, hindexed] at hcover
    refine ⟨buffer, plan, hbuffer, hmake, fun hnone => ?_,
      ⟨changed, hchanged, hempty _ (List.contains_iff_mem.1 hretires)⟩, hgrounded _ (.inr hkey), spans,
      hid ▸ hanswer, _, List.getElem_mem _, hcover, hpositive htokens _ (List.getElem_mem _)⟩
    rw [show buffer.factsAt (.token ⟨1, 0⟩) = [] from hnone] at hfacts
    cases hfacts

end Session

end LiveProse
