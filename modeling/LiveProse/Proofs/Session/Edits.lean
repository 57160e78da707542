import LiveProse.Proofs.Chart.Relinking
import LiveProse.Proofs.Session.Buffers

/-! Edits keep the chart current. The facts of retired sites go first and with them every match that
touches those sites, so the records can be exchanged; the sites that stay keep their order, and the new
edges lead along the new one. -/

namespace LiveProse

namespace Chart

open Session (freshFacts)

variable {s t : Chart} {position : BufferId → Site → ℕ} {observed : Fact → Bool}
variable {framed : Grammar × Vocabulary ×
  List (BufferId × BufferKind × TokenSequence × List (Site × SiteInfo))}
variable {buffer other : Buffer} {id : BufferId}

/-- The frame of a chart with another buffer in the place of one. -/
theorem frame_setBuffer (chart : Chart) (buffer : Buffer) :
    (chart.setBuffer buffer).skeleton = (chart.grammar, chart.vocabulary,
      chart.skeleton.2.2.map fun framed => if framed.1 = buffer.id then buffer.skeleton else framed) := by
  simp only [skeleton, setBuffer, List.map_map]
  refine congrArg (fun bs => (chart.grammar, chart.vocabulary, bs)) ?_
  refine List.map_congr_left fun other _ => ?_
  rw [Function.comp_apply, Function.comp_apply, apply_ite Buffer.skeleton]
  rfl

/-- A buffer can be exchanged for one with the same facts and matches that knows the same about the
sites of its facts. -/
theorem Shows.exchange (h : s.Shows position framed observed) (hbuffer : s.buffer? id = some buffer)
    (hid : other.id = id) (hsound : other.Sound s.grammar)
    (hholds : ∀ fact, fact.buffer? = some id → other.holds fact = buffer.holds fact)
    (hpotentials : other.potentials = buffer.potentials)
    (hcompletes : other.completes = buffer.completes)
    (hinfo : ∀ fact site, fact.buffer? = some id → buffer.holds fact = true → site ∈ fact.sites →
      other.info? site = buffer.info? site) :
    (s.setBuffer other).Shows position (s.setBuffer other).skeleton observed := by
  subst hid
  have hother := buffer?_setBuffer_self hbuffer
  have hsame (fact : Fact) : (s.setBuffer other).holds fact = s.holds fact := by
    cases howner : fact.buffer? with
    | none => exact holds_production_congr (show (s.setBuffer other).active = s.active from rfl) howner
    | some id =>
      by_cases heq : id = other.id
      · subst heq
        rw [holds_of_buffer? howner hother, holds_of_buffer? howner hbuffer]
        exact hholds fact howner
      · rw [holds_eq_of_buffer? _ howner, holds_eq_of_buffer? s howner, buffer?_setBuffer_of_ne heq]
  refine ⟨h.ordered.of_holds (h.ordered.sound.setBuffer hsound) fun fact hfact =>
    (hsame fact).symm.trans hfact, rfl, settled_of_agrees h.settled fun id _ => ?_,
    fun fact hkind => (hsame fact).trans (h.observed fact hkind)⟩
  by_cases heq : id = other.id
  · subst heq
    refine agrees_of_holds rfl rfl (fun fact _ => hsame fact) (fun fact howner => ?_)
      fun fact site howner hheld hsite => ?_
    · cases fact with
      | potential key | complete key =>
        have howner : key.buffer = other.id := Option.some.inj howner
        simp only [count, howner, hother, hbuffer, Option.map_some, hpotentials, hcompletes]
      | _ => rfl
    · rw [info_of_buffer? hother, info_of_buffer? hbuffer, hinfo fact site howner ?_ hsite]
      rw [← holds_of_buffer? howner hbuffer]
      exact hheld
  · exact agrees_of_buffer? rfl rfl (buffer?_setBuffer_of_ne heq)

variable {chart restored : Chart} {restated : Buffer} {plan : RelexPlan} {vocabulary grown : Vocabulary}
variable {changes : Buffer.Restatement} {front doomed inserted moved back : List (Handle × Token)}

/-- The chart with the tokens of an edit and the old records. -/
def retokened (chart : Chart) (restated : Buffer) (grown : Vocabulary) : Chart :=
  { chart.setBuffer restated with vocabulary := grown }

theorem frame_retokened (chart : Chart) (buffer : Buffer) (grown : Vocabulary) :
    (chart.retokened buffer grown).skeleton = (chart.grammar, grown,
      chart.skeleton.2.2.map fun framed => if framed.1 = buffer.id then buffer.skeleton else framed) :=
  congrArg (fun framed => (chart.grammar, grown, framed.2.2)) (chart.frame_setBuffer buffer)

theorem buffer?_retokened (grown : Vocabulary) (hid : other.id = id)
    (hbuffer : chart.buffer? id = some buffer) :
    (chart.retokened other grown).buffer? id = some other :=
  hid ▸ buffer?_setBuffer_self (hid ▸ hbuffer)

theorem buffer?_retokened_of_ne (chart : Chart) (grown : Vocabulary) (h : id ≠ other.id) :
    (chart.retokened other grown).buffer? id = chart.buffer? id :=
  buffer?_setBuffer_of_ne h

/-- What is still observed when an edit has taken back what it has to. -/
def retracted (chart : Chart) (restated : Buffer) (changes : Buffer.Restatement) (fact : Fact) : Bool :=
  if fact ∈ restated.staleEdges changes then false
  else if fact ∈ restated.retiredFacts changes then false
  else chart.holds fact

theorem retracted_iff {fact : Fact} : chart.retracted restated changes fact = true ↔
    chart.holds fact = true ∧ fact ∉ restated.staleEdges changes ∧
      fact ∉ restated.retiredFacts changes := by
  unfold retracted
  split_ifs <;> simp [*]

section Edit

variable (h : chart.Current) (hbuffer : chart.buffer? buffer.id = some buffer)
variable (R : buffer.Restates plan vocabulary restated grown changes front doomed inserted moved back)
include h hbuffer R

theorem Current.retokened : (chart.retokened restated grown).Shows chart.position
    (chart.retokened restated grown).skeleton chart.holds := by
  have hsame : Buffer.SameFacts buffer restated := by
    rw [R.same]
    exact ⟨rfl, rfl, rfl, rfl, rfl, rfl⟩
  exact h.shows.of_sameFacts rfl rfl rfl (setBuffer_sameFacts h.ordered.sound.ids hbuffer hsame)

/-- With the new tokens and the old records, the edited buffer is in order, and its facts hold as
before. -/
theorem Current.sound_restated : restated.Sound chart.grammar ∧
    ∀ fact, fact.buffer? = some buffer.id → restated.holds fact = chart.holds fact := by
  have hsame : Buffer.SameFacts buffer restated := by
    rw [R.same]
    exact ⟨rfl, rfl, rfl, rfl, rfl, rfl⟩
  refine ⟨(h.ordered.sound.buffer hbuffer).congr hsame.id hsame.records hsame.potentials
    hsame.completes hsame.beginnings hsame.partials, fun fact howner => ?_⟩
  rw [hsame.holds, holds_of_buffer? howner hbuffer]

/-- What is observed after the retraction is not about sites that are retired. -/
theorem Current.not_retired_of_retracted {fact : Fact} (howner : fact.buffer? = some buffer.id)
    (hfact : chart.retracted restated changes fact = true) :
    ∀ site ∈ fact.sites, site ∉ changes.retired := by
  intro site hsite hretired
  obtain ⟨hsound, hholds⟩ := h.sound_restated hbuffer R
  have hid : restated.id = buffer.id := R.id_renewed
  unfold retracted at hfact
  split_ifs at hfact with hstale hdoomed
  refine hdoomed (hsound.mem_retiredFacts.2 ⟨hid ▸ howner, ?_, site, hsite, hretired⟩)
  rw [hholds fact howner, hfact]

variable (hs : s.Shows chart.position (chart.retokened restated grown).skeleton
  (chart.retracted restated changes))
include hs

/-- After the retraction nothing holds about the sites that are retired. -/
theorem Current.not_retired {fact : Fact} (howner : fact.buffer? = some buffer.id)
    (hfact : s.holds fact = true) : ∀ site ∈ fact.sites, site ∉ changes.retired := by
  have hgrammar : s.grammar = chart.grammar := congrArg Prod.fst hs.frame
  have hmatch (key : MatchKey) (hid : key.buffer = buffer.id)
      (hkey : s.holds (.potential key) = true ∨ s.holds (.complete key) = true) :
      ∀ site ∈ key.ends, site ∉ changes.retired := by
    obtain ⟨-, ⟨first, hfirst⟩, last, hlast⟩ :=
      hs.ordered.restsOn hs.settled (hgrammar ▸ h.unitOrdered) hkey
    have hedge (source target : Site) (hnext : s.holds (.next key.buffer source target) = true) :
        target ∉ changes.retired :=
      h.not_retired_of_retracted hbuffer R
        (show (Fact.next key.buffer source target).buffer? = some buffer.id from congrArg some hid)
        ((hs.observed _ FactKind.noConfusion).symm.trans hnext) target (by simp [Fact.sites])
    intro site hsite
    rcases MatchKey.mem_ends.1 hsite with rfl | rfl
    · exact hedge _ _ hfirst
    · exact hedge _ _ hlast
  cases fact with
  | potential key => exact hmatch key (Option.some.inj howner) (.inl hfact)
  | complete key => exact hmatch key (Option.some.inj howner) (.inr hfact)
  | production | available | next | endOfSentence =>
    exact h.not_retired_of_retracted hbuffer R howner
      ((hs.observed _ FactKind.noConfusion).symm.trans hfact)

/-- The records can be exchanged then, and the chart is settled along the new order. -/
theorem Current.renewed : ∃ changed, s.buffer? buffer.id = some changed ∧
    let u := chart.retokened (restated.renewed changes) grown
    (s.setBuffer (changed.renewed changes)).Shows u.position u.skeleton
      (chart.retracted restated changes) := by
  have hrestated : restated.id = buffer.id := R.id_renewed
  obtain ⟨changed, hchanged, hskeleton⟩ : ∃ changed, s.buffer? buffer.id = some changed ∧
      restated.skeleton = changed.skeleton :=
    exists_buffer?_of_skeleton (congrArg (·.2.2) hs.frame) (buffer?_retokened grown hrestated hbuffer)
  have hid : (changed.renewed changes).id = buffer.id := (buffer?_eq_some hchanged).2
  have hsound := hs.ordered.sound.buffer hchanged
  have hinfo : changed.info? = buffer.info? := by
    rw [Buffer.info?_of_skeleton hskeleton.symm, R.same]
    rfl
  have hrecord := Buffer.hasRecord_of_info? hinfo
  have hplaced := h.placed buffer (buffer?_eq_some hbuffer).1
  -- what still holds is about sites that stay, and these are in the same order on both paths
  have hstays (fact : Fact) (howner : fact.buffer? = some buffer.id)
      (hfact : changed.holds fact = true) (site : Site) (hsite : site ∈ fact.sites) :
      buffer.hasRecord site = true ∧ site ∉ changes.retired :=
    ⟨hrecord ▸ hsound.hasRecord_of_holds hfact hsite,
      h.not_retired hbuffer R hs howner ((holds_of_buffer? howner hchanged).trans hfact) site hsite⟩
  have hafter : (changed.renewed changes).skeleton = (restated.renewed changes).skeleton :=
    Buffer.skeleton_renewed hskeleton.symm
  obtain ⟨hrenewed, hholds⟩ := hsound.renewed
    (fun fact howner hfact site hsite => (hstays fact (howner.trans (congrArg some hid)) hfact site hsite).2)
    R.nodup_fresh fun handle info hfresh => hrecord ▸ R.retired_of_fresh hplaced hfresh
  rw [show changed.id = buffer.id from hid] at hholds
  have hshows := hs.exchange hchanged hid hrenewed hholds rfl rfl fun fact site howner hfact hsite => by
    obtain ⟨hsite, hretired⟩ := hstays fact howner hfact site hsite
    rw [Buffer.info?_of_skeleton hafter, R.info?_stays hsite hretired, hinfo]
  have hframe : (s.setBuffer (changed.renewed changes)).skeleton =
      (chart.retokened (restated.renewed changes) grown).skeleton := by
    rw [frame_setBuffer, show s.grammar = _ from congrArg (·.1) hs.frame,
      show s.vocabulary = _ from congrArg (·.2.1) hs.frame, hs.frame, frame_retokened, frame_retokened,
      List.map_map]
    refine congrArg (fun buffers => (chart.grammar, grown, buffers)) (List.map_congr_left fun framed _ => ?_)
    rw [Function.comp_apply, hid, hrestated, R.id_renewed]
    by_cases heq : framed.1 = buffer.id
    · have hself : restated.skeleton.1 = buffer.id := hrestated
      rw [if_pos heq, if_pos heq, if_pos hself, hafter]
    · rw [if_neg heq, if_neg heq, if_neg heq]
  refine ⟨changed, hchanged, hshows.ordered.reorder fun fact id howner hfact a ha b hb => ?_,
    hframe, hshows.settled, hshows.observed⟩
  by_cases heq : id = buffer.id
  · subst heq
    have hself : (s.setBuffer (changed.renewed changes)).buffer? buffer.id =
        some (changed.renewed changes) := by
      rw [← hid] at hchanged ⊢
      exact buffer?_setBuffer_self hchanged
    rw [holds_of_buffer? howner hself, hholds fact howner] at hfact
    rw [position_of_buffer? hbuffer, position_of_buffer? (buffer?_retokened grown R.id_renewed hbuffer)]
    exact R.position_lt_iff hplaced (hstays fact howner hfact a ha) (hstays fact howner hfact b hb)
  · rw [position_of_eq (buffer?_retokened_of_ne chart grown (R.id_renewed.symm ▸ heq))]

end Edit

theorem mem_freshFacts {fresh : List (Handle × SiteInfo)} {fact : Fact} :
    fact ∈ freshFacts id fresh ↔ ∃ handle info, (handle, info) ∈ fresh ∧
      (fact = .endOfSentence id (.token handle) info.traits.sentenceEnd ∨
        fact = .available id handle) := by
  simp [freshFacts]

/-- What is observed when an edit is through. -/
def relinked (chart : Chart) (restated : Buffer) (changes : Buffer.Restatement) (fact : Fact) : Bool :=
  decide (fact ∈ changes.edges.map fun (source, target) => .next restated.id source target) ||
    (decide (fact ∈ freshFacts restated.id changes.fresh) ||
      chart.retracted restated changes fact)

section Relinked

variable (h : chart.Current) (hbuffer : chart.buffer? buffer.id = some buffer)
variable (R : buffer.Restates plan vocabulary restated grown changes front doomed inserted moved back)
include h hbuffer R

/-- The other sense of a fact of a new site does not hold, and is not to come. -/
theorem Current.counterpart_fresh {fact : Fact}
    (hfact : fact ∈ freshFacts buffer.id changes.fresh) {other : Fact}
    (hother : counterpart? fact = some other) :
    chart.retracted restated changes other = false ∧
      other ∉ freshFacts buffer.id changes.fresh := by
  obtain ⟨handle, info, hmem, rfl | rfl⟩ := mem_freshFacts.1 hfact
  · obtain rfl := Option.some.inj hother
    constructor
    · rw [Bool.eq_false_iff]
      intro hheld
      have hretired := h.not_retired_of_retracted hbuffer R rfl hheld _ List.mem_cons_self
      have hholds : chart.holds
          (.endOfSentence buffer.id (.token handle) !info.traits.sentenceEnd) = true := by
        unfold retracted at hheld
        split_ifs at hheld
        exact hheld
      rw [holds_of_buffer? rfl hbuffer] at hholds
      have hrecord := (h.ordered.sound.buffer hbuffer).hasRecord_of_holds hholds List.mem_cons_self
      rcases R.retired_of_fresh (h.placed buffer (buffer?_eq_some hbuffer).1) hmem with hgone | hnone
      · exact hretired hgone
      · rw [hrecord] at hnone
        cases hnone
    · intro hin
      obtain ⟨handle', info', hmem', heq | heq⟩ := mem_freshFacts.1 hin
      · injection heq with _ hsite hsense
        injection hsite with hhandle
        subst hhandle
        obtain rfl := (Prod.mk.inj (List.inj_on_of_nodup_map R.nodup_fresh hmem hmem' rfl)).2
        exact Bool.not_ne_self _ hsense
      · cases heq
  · cases hother

/-- What is observed about the edited buffer: the new edges, the facts of new sites, and what held before,
is about no site that is retired and no edge that is taken back. -/
theorem Current.relinked_iff {fact : Fact} (howner : fact.buffer? = some buffer.id) :
    chart.relinked restated changes fact = true ↔
      (∃ source target, (source, target) ∈ changes.edges ∧ fact = .next buffer.id source target) ∨
      fact ∈ freshFacts buffer.id changes.fresh ∨
      chart.holds fact = true ∧ (∀ site ∈ fact.sites, site ∉ changes.retired) ∧
        ∀ source target, fact = .next buffer.id source target → source ∈ changes.kept →
          (source, target) ∈ changes.edges := by
  obtain ⟨hsound, hholds⟩ := h.sound_restated hbuffer R
  have hid : restated.id = buffer.id := R.id_renewed
  have hedge : fact ∈ (changes.edges.map fun (source, target) => Fact.next restated.id source target) ↔
      ∃ source target, (source, target) ∈ changes.edges ∧ fact = .next buffer.id source target := by
    simp [hid, eq_comm]
  rw [relinked, Bool.or_eq_true, Bool.or_eq_true, decide_eq_true_iff, decide_eq_true_iff, hedge,
    retracted_iff, hsound.mem_staleEdges, hsound.mem_retiredFacts, hid, hholds fact howner]
  refine or_congr_right (or_congr_right (and_congr_right fun hheld => ?_))
  constructor
  · rintro ⟨hstale, hretired⟩
    refine ⟨fun site hsite hgone => hretired ⟨howner, hheld, site, hsite, hgone⟩,
      fun source target heq hkept => ?_⟩
    by_contra hin
    exact hstale ⟨source, target, heq, hheld, hkept, hin⟩
  · rintro ⟨hretired, hkept⟩
    refine ⟨?_, fun ⟨_, _, site, hsite, hgone⟩ => hretired site hsite hgone⟩
    rintro ⟨source, target, heq, -, hin, hnot⟩
    exact hnot (hkept source target heq hin)

/-- The edited buffer is a chain of its recorded sites again. -/
theorem Current.chained_relinked :
    (restated.renewed changes).Chained (chart.relinked restated changes) := by
  refine R.chained (h.placed buffer (buffer?_eq_some hbuffer).1) (h.chained buffer.id buffer hbuffer)
    (fun source target => ?_) (fun handle => ?_) fun site positive => ?_
  · have hfresh : .next buffer.id source target ∉ freshFacts buffer.id changes.fresh := by
      rw [mem_freshFacts]
      rintro ⟨_, _, _, heq | heq⟩ <;> cases heq
    rw [h.relinked_iff hbuffer R rfl]
    simp only [hfresh, false_or, Fact.next.injEq, true_and, Fact.sites, List.forall_mem_cons]
    constructor
    · rintro (⟨_, _, hedge, rfl, rfl⟩ | ⟨hheld, ⟨hsource, htarget, -⟩, hkept⟩)
      · exact .inl hedge
      · by_cases hin : (source, target) ∈ changes.edges
        · exact .inl hin
        · exact .inr ⟨hheld, hsource, htarget, fun hmem => hin (hkept source target ⟨rfl, rfl⟩ hmem)⟩
    · rintro (hedge | ⟨hheld, hsource, htarget, hkept⟩)
      · exact .inl ⟨source, target, hedge, rfl, rfl⟩
      · refine .inr ⟨hheld, ⟨hsource, htarget, by simp⟩, ?_⟩
        rintro _ _ ⟨rfl, rfl⟩ hmem
        exact absurd hmem hkept
  · have hfresh : .available buffer.id handle ∈ freshFacts buffer.id changes.fresh ↔
        handle ∈ changes.fresh.map (·.1) := by
      rw [mem_freshFacts]
      simp
    rw [h.relinked_iff hbuffer R rfl, hfresh]
    simp [Fact.sites]
  · have hfresh : .endOfSentence buffer.id site positive ∈ freshFacts buffer.id changes.fresh ↔
        ∃ handle info, (handle, info) ∈ changes.fresh ∧ site = .token handle ∧
          info.traits.sentenceEnd = positive := by
      rw [mem_freshFacts]
      simp [eq_comm]
    rw [h.relinked_iff hbuffer R rfl, hfresh]
    simp [Fact.sites]

/-- What is about something else is observed as before. -/
theorem Current.relinked_of_ne {fact : Fact} (hfact : fact.buffer? ≠ some buffer.id) :
    chart.relinked restated changes fact = chart.holds fact := by
  obtain ⟨hsound, -⟩ := h.sound_restated hbuffer R
  have hid : restated.id = buffer.id := R.id_renewed
  have hedge : fact ∉ changes.edges.map fun (source, target) => Fact.next restated.id source target := by
    rw [List.mem_map]
    rintro ⟨⟨source, target⟩, -, rfl⟩
    exact hfact (congrArg some hid)
  have hfresh : fact ∉ freshFacts restated.id changes.fresh := by
    rw [mem_freshFacts]
    rintro ⟨handle, info, -, rfl | rfl⟩ <;> exact hfact (congrArg some hid)
  have hstale : fact ∉ restated.staleEdges changes := by
    rw [hsound.mem_staleEdges]
    rintro ⟨source, target, rfl, -⟩
    exact hfact (congrArg some hid)
  have hretired : fact ∉ restated.retiredFacts changes := fun hmem =>
    hfact ((hsound.mem_retiredFacts.1 hmem).1.trans (congrArg some hid))
  rw [relinked, decide_eq_false hedge, decide_eq_false hfresh, retracted, if_neg hstale, if_neg hretired]
  rfl

end Relinked

end Chart

namespace Session

open Chart

variable {session : Session} {buffer restated : Buffer} {plan : RelexPlan} {grown : Vocabulary}
variable {changes : Buffer.Restatement} {front doomed inserted moved back : List (Handle × Token)}

/-- What an edit does with the new tokens and the old records: it takes back what is about retired sites,
and the edges that it does not keep. -/
def retractionPhases (restated : Buffer) (grown : Vocabulary) (changes : Buffer.Restatement) :
    List Phase :=
  [.alter fun session =>
      { session with chart := { session.chart.setBuffer restated with vocabulary := grown } },
    .call (.forceFalse (restated.retiredFacts changes)),
    .call (.forceFalse (restated.staleEdges changes))]

/-- What an edit does from the exchange of records on. -/
def relinkingPhases (id : BufferId) (changes : Buffer.Restatement) : List Phase :=
  .alter (·.modifyBuffer id fun buffer => buffer.renewed changes) ::
    (Phase.justify (freshFacts id changes.fresh) ++
      Phase.justify (changes.edges.map fun (source, target) => .next id source target))

theorem editPhases_eq (hrestate : buffer.restate plan session.vocabulary = (restated, grown, changes)) :
    session.editPhases buffer plan =
      retractionPhases restated grown changes ++ relinkingPhases buffer.id changes := by
  obtain rfl : (buffer.restate plan session.vocabulary).1 = restated := congrArg (·.1) hrestate
  unfold editPhases
  rw [hrestate]
  rfl

theorem reaches_retraction (h : session.chart.Current)
    (hbuffer : session.chart.buffer? buffer.id = some buffer)
    (R : buffer.Restates plan session.vocabulary restated grown changes front doomed inserted moved
      back) :
    Reaches session (retractionPhases restated grown changes) fun after =>
      after.chart.Shows session.chart.position (session.chart.retokened restated grown).skeleton
        (session.chart.retracted restated changes) :=
  Reaches.cons (Reaches.alter (h.retokened hbuffer R)) fun _ hs₁ =>
    Reaches.cons (Reaches.forceFalse hs₁ _) fun _ hs₂ => Reaches.forceFalse hs₂ _

/-- An edit keeps the chart current. -/
theorem reaches_edit (h : session.chart.Current)
    (hbuffer : session.chart.buffer? buffer.id = some buffer)
    (hrestate : buffer.restate plan session.vocabulary = (restated, grown, changes))
    (R : buffer.Restates plan session.vocabulary restated grown changes front doomed inserted moved
      back) :
    Reaches session (session.editPhases buffer plan) fun after => after.chart.Current ∧
      after.chart.skeleton =
        (session.chart.retokened (restated.renewed changes) grown).skeleton := by
  have hid : restated.id = buffer.id := R.id_renewed
  have hplaced := h.placed buffer (buffer?_eq_some hbuffer).1
  rw [editPhases_eq hrestate, ← hid]
  refine (reaches_retraction h hbuffer R).append fun s₃ hs₃ => ?_
  obtain ⟨changed, hchanged, hrenewed⟩ := h.renewed hbuffer R hs₃
  generalize hu : session.chart.retokened (restated.renewed changes) grown = u at hrenewed ⊢
  have hself : u.buffer? buffer.id = some (restated.renewed changes) :=
    hu ▸ buffer?_retokened grown R.id_renewed hbuffer
  have hrecorded {site : Site} (hsite : (restated.renewed changes).hasRecord site = true) :
      u.Recorded buffer.id site := ⟨_, hself, hsite⟩
  -- the records are exchanged, then the fresh sites justified, and then the edges between them
  refine Reaches.cons (P := fun after => after.chart.Shows u.position u.skeleton
      (session.chart.retracted restated changes)) (Reaches.alter ?_) fun s₄ hs₄ =>
    ((Reaches.justify hs₄ ?_ ?_).append fun s₅ hs₅ => Reaches.justify hs₅ ?_ ?_).mono fun after ha => ?_
  · rw [hid]
    rw [modifyBuffer, hchanged]
    exact hrenewed
  · intro fact hfact
    rw [hid] at hfact
    obtain ⟨handle, info, hmem, rfl | rfl⟩ := mem_freshFacts.1 hfact
    · exact ⟨FactKind.noConfusion, sets_endOfSentence (hrecorded (R.hasRecord_fresh hplaced hmem))⟩
    · exact ⟨FactKind.noConfusion, sets_available (hrecorded (R.hasRecord_fresh hplaced hmem))⟩
  · intro fact hfact other hother
    rw [hid] at hfact ⊢
    exact h.counterpart_fresh hbuffer R hfact hother
  · intro fact hfact
    rw [hid] at hfact
    obtain ⟨⟨source, target⟩, hmem, rfl⟩ := List.mem_map.1 hfact
    -- an edge of the new chain leads forwards along the new path
    have hpair := (R.mem_pairs_path hplaced).2 (.inl hmem)
    have hlt := rel_of_mem_pairs
      ((restated.renewed changes).pairwise_path (R.tokens Token.codepointSummary).named.nodup_handles)
      hpair
    rw [← position_of_buffer? hself] at hlt
    have hrenewed := R.placed hplaced
    obtain ⟨hsource, htarget⟩ := mem_of_mem_pairs hpair
    exact ⟨FactKind.noConfusion, sets_next hlt
      (hrecorded (Buffer.hasRecord_of_mem_path hrenewed hsource))
      (hrecorded (Buffer.hasRecord_of_mem_path hrenewed htarget))⟩
  · intro fact hfact other hother
    obtain ⟨⟨source, target⟩, -, rfl⟩ := List.mem_map.1 hfact
    cases hother
  · have ha : after.chart.Shows u.position u.skeleton (session.chart.relinked restated changes) := ha
    have hgrammar : u.grammar = session.chart.grammar := by
      rw [← hu]
      rfl
    have hold : u.Placed := by
      intro other hother
      rw [← hu] at hother
      obtain ⟨old, hmem, rfl⟩ := List.mem_map.1 hother
      split_ifs
      · exact R.placed hplaced
      · exact h.placed old hmem
    refine ⟨ha.current_of_frame (hgrammar ▸ h.unitOrdered) hold (fun id other hother => ?_)
      fun p hp => ?_, ha.frame⟩
    · by_cases hsame : id = buffer.id
      · rw [hsame, hself] at hother
        exact Option.some.inj hother ▸ h.chained_relinked hbuffer R
      · rw [← hu, buffer?_retokened_of_ne _ _ (R.id_renewed.symm ▸ hsame)] at hother
        refine (h.chained id other hother).congr rfl rfl rfl fun fact hfact _ =>
          h.relinked_of_ne hbuffer R ?_
        rw [hfact, (buffer?_eq_some hother).2]
        simpa using hsame
    · rw [hgrammar] at hp
      rw [h.relinked_of_ne hbuffer R (by simp [Fact.buffer?])]
      exact List.contains_iff_mem.2 (h.active p hp)

end Session

end LiveProse
