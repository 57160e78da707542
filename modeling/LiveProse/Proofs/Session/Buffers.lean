import LiveProse.Proofs.Session.Currency

/-! Operations on buffers as wholes keep the chart current: what is about a buffer besides its records
and matches has no part in derivations, and neither has another buffer. -/

namespace LiveProse

namespace Buffer

/-- Two buffers with the same records and matches. -/
structure SameFacts (buffer other : Buffer) : Prop where
  id : other.id = buffer.id
  records : other.records = buffer.records
  potentials : other.potentials = buffer.potentials
  completes : other.completes = buffer.completes
  beginnings : other.parsemeBeginnings = buffer.parsemeBeginnings
  partials : other.partialMatches = buffer.partialMatches

variable {buffer other : Buffer}

theorem SameFacts.refl (buffer : Buffer) : SameFacts buffer buffer := ⟨rfl, rfl, rfl, rfl, rfl, rfl⟩

theorem SameFacts.record? (h : SameFacts buffer other) : other.record? = buffer.record? := by
  funext site
  rw [Buffer.record?, Buffer.record?, h.records]

theorem SameFacts.holds (h : SameFacts buffer other) : other.holds = buffer.holds := by
  funext fact
  cases fact <;> simp only [Buffer.holds, hasFact, h.record?, h.potentials, h.completes]

end Buffer

namespace Chart

variable {s t : Chart} {id : BufferId} {position : BufferId → Site → ℕ} {observed : Fact → Bool}
variable {framed : Grammar × Vocabulary ×
  List (BufferId × BufferKind × TokenSequence × List (Site × SiteInfo))}

theorem holds_production_congr (hactive : t.active = s.active) {fact : Fact}
    (hid : fact.buffer? = none) : t.holds fact = s.holds fact := by
  cases fact with
  | production id => exact congrArg (·.contains id) hactive
  | _ => cases hid

/-- With the same grammar and productions, it is enough that a buffer keeps its facts. -/
theorem agrees_of_holds (hgrammar : t.grammar = s.grammar) (hactive : t.active = s.active)
    (hholds : ∀ fact, fact.buffer? = some id → t.holds fact = s.holds fact)
    (hcount : ∀ fact, fact.buffer? = some id → t.count fact = s.count fact)
    (hinfo : ∀ fact site, fact.buffer? = some id → s.holds fact = true → site ∈ fact.sites →
      t.info id site = s.info id site) : Agrees id s t where
  holds fact hid := by
    rcases hid with hid | hid
    · exact hholds fact hid
    · exact holds_production_congr hactive hid
  count := hcount
  info := hinfo
  matched _ _ _ := by rw [hgrammar]
  used _ _ := by simp [hgrammar]

/-- A buffer that is the same in both charts keeps its facts. -/
theorem agrees_of_buffer? (hgrammar : t.grammar = s.grammar) (hactive : t.active = s.active)
    (hbuffer : t.buffer? id = s.buffer? id) : Agrees id s t := by
  refine agrees_of_holds hgrammar hactive (fun fact hid => ?_) (fun fact hid => ?_)
    fun fact site _ _ _ => ?_
  · rw [holds_eq_of_buffer? t hid, holds_eq_of_buffer? s hid, hbuffer]
  · cases fact with
    | potential key | complete key =>
      obtain rfl := Option.some.inj hid
      simp only [count, hbuffer]
    | _ => rfl
  · rw [info, info, record?, record?, hbuffer]

theorem find?_map_sameFacts {buffers : List Buffer} {change : Buffer → Buffer}
    (h : ∀ buffer ∈ buffers, Buffer.SameFacts buffer (change buffer)) (id : BufferId) :
    (buffers.map change).find? (·.id = id) = (buffers.find? (·.id = id)).map change := by
  rw [List.find?_map]
  refine congrArg (Option.map change) (List.find?_congr fun buffer hbuffer => ?_)
  rw [Function.comp, (h buffer hbuffer).id]

/-- Records and matches are all that matters about buffers. -/
theorem Shows.of_sameFacts (h : s.Shows position framed observed) (hgrammar : t.grammar = s.grammar)
    (hactive : t.active = s.active) {change : Buffer → Buffer}
    (hbuffers : t.buffers = s.buffers.map change)
    (hchange : ∀ buffer ∈ s.buffers, Buffer.SameFacts buffer (change buffer)) :
    t.Shows position t.skeleton observed := by
  have hfind (id : BufferId) : t.buffer? id = (s.buffer? id).map change := by
    rw [buffer?, hbuffers, find?_map_sameFacts hchange]
    rfl
  have hsame {id : BufferId} {buffer : Buffer} (hbuffer : s.buffer? id = some buffer) :
      Buffer.SameFacts buffer (change buffer) := hchange buffer (buffer?_eq_some hbuffer).1
  have hholds (fact : Fact) : t.holds fact = s.holds fact := by
    cases hid : fact.buffer? with
    | none => exact holds_production_congr hactive hid
    | some id =>
      rw [holds_eq_of_buffer? t hid, holds_eq_of_buffer? s hid, hfind]
      cases hbuffer : s.buffer? id with
      | none => rfl
      | some buffer => exact congrFun (hsame hbuffer).holds fact
  have hids : t.buffers.map (·.id) = s.buffers.map (·.id) := by
    rw [hbuffers, List.map_map]
    exact List.map_congr_left fun buffer hbuffer => (hchange buffer hbuffer).id
  have hold := h.ordered.sound
  refine ⟨h.ordered.of_holds ⟨hgrammar ▸ hold.grammar, hids ▸ hold.ids, fun other hother => ?_,
    hactive ▸ hold.nodup_active, ?_⟩ fun fact hfact => (hholds fact).symm.trans hfact, rfl, ?_,
    fun fact hkind => (hholds fact).trans (h.observed fact hkind)⟩
  · rw [hbuffers] at hother
    obtain ⟨buffer, hbuffer, rfl⟩ := List.mem_map.1 hother
    have hsame := hchange buffer hbuffer
    rw [hgrammar]
    exact (hold.buffers buffer hbuffer).congr hsame.id hsame.records hsame.potentials
      hsame.completes hsame.beginnings hsame.partials
  · rw [hactive, hgrammar]
    exact hold.active
  · refine settled_of_agrees h.settled fun id _ => agrees_of_holds hgrammar hactive
      (fun fact _ => hholds fact) (fun fact hid => ?_) fun fact site _ _ _ => ?_
    · cases fact with
      | potential key | complete key =>
        obtain rfl := Option.some.inj hid
        simp only [count, hfind]
        cases hbuffer : s.buffer? key.buffer with
        | none => rfl
        | some buffer =>
          simp only [Option.map_some, (hsame hbuffer).potentials, (hsame hbuffer).completes]
      | _ => rfl
    · rw [info, info, record?, record?, hfind]
      cases hbuffer : s.buffer? id with
      | none => rfl
      | some buffer => rw [Option.map_some, Option.bind_some, Option.bind_some, (hsame hbuffer).record?]

/-- Putting a buffer in the place of one with the same facts. -/
theorem setBuffer_sameFacts (hids : (s.buffers.map (·.id)).Nodup) {buffer other : Buffer}
    (hbuffer : s.buffer? id = some buffer) (hsame : Buffer.SameFacts buffer other) :
    ∀ old ∈ s.buffers, Buffer.SameFacts old (if old.id = other.id then other else old) := by
  intro old hold
  split_ifs with hid
  · rw [hsame.id] at hid
    obtain ⟨hmem, -⟩ := buffer?_eq_some hbuffer
    rw [List.inj_on_of_nodup_map hids hold hmem hid]
    exact hsame
  · exact .refl old

/-! ### Fewer and more buffers -/

theorem buffer?_filter (id other : BufferId) :
    ({ s with buffers := s.buffers.filter (·.id ≠ id) } : Chart).buffer? other =
      if other = id then none else s.buffer? other := by
  unfold buffer?
  dsimp only
  split_ifs with hother
  · rw [List.find?_eq_none]
    intro buffer hbuffer
    have hne := (List.mem_filter.1 hbuffer).2
    rw [hother]
    simpa using hne
  · rw [List.find?_filter]
    refine List.find?_congr fun buffer _ => ?_
    by_cases hbuffer : buffer.id = other
    · simp [hbuffer, hother]
    · simp [hbuffer]

/-- Without one of its buffers, a chart is still settled. -/
theorem Shows.discard (h : s.Shows position framed observed) (id : BufferId) :
    let t : Chart := { s with buffers := s.buffers.filter (·.id ≠ id) }
    t.Shows position t.skeleton t.holds := by
  intro t
  have hfind := buffer?_filter (s := s) id
  have hagrees (other : BufferId) (hother : (t.buffer? other).isSome = true) : Agrees other s t := by
    refine agrees_of_buffer? rfl rfl ?_
    rw [hfind] at hother ⊢
    split_ifs at hother ⊢ with hid
    · cases hother
    · rfl
  have hheld (fact : Fact) (hholds : t.holds fact = true) : s.holds fact = true := by
    cases hid : fact.buffer? with
    | none =>
      have hsame := holds_production_congr (show t.active = s.active from rfl) hid
      exact hsame.symm.trans hholds
    | some other =>
      have hsome := Option.isSome_iff_exists.2 (exists_buffer?_of_holds hid hholds)
      rwa [← (hagrees other hsome).holds fact (.inl hid)]
  have hold := h.ordered.sound
  exact ⟨h.ordered.of_holds ⟨hold.grammar, hold.ids.sublist (List.filter_sublist.map _),
    fun buffer hbuffer => hold.buffers buffer (List.mem_filter.1 hbuffer).1, hold.nodup_active,
    hold.active⟩ hheld, rfl, settled_of_agrees h.settled hagrees, fun _ _ => rfl⟩

/-! ### A new buffer -/

theorem record?_begun (id : BufferId) (kind : BufferKind) (site : Site) :
    ({ id, kind } : Buffer).record? site =
      if site = .start ∨ site = .finish then some ⟨.sentinel, {}⟩ else none := by
  cases site <;> rfl

/-- Nothing holds in a buffer that begins. -/
theorem holds_begun (id : BufferId) (kind : BufferKind) (fact : Fact) :
    ({ id, kind } : Buffer).holds fact = false := by
  have hnone (site : Site) (fact : Fact) : ({ id, kind } : Buffer).hasFact site fact = false := by
    rw [Buffer.hasFact, record?_begun]
    split_ifs <;> rfl
  cases fact with
  | production | available | potential | complete => rfl
  | next id' source target => exact hnone _ _
  | endOfSentence id' site positive => exact hnone _ _

theorem sound_begun (id : BufferId) (kind : BufferKind) (grammar : Grammar) :
    ({ id, kind } : Buffer).Sound grammar := by
  have hnotes (site : Site) : ({ id, kind } : Buffer).notes site = [] := by
    rw [Buffer.notes, record?_begun]
    split_ifs <;> rfl
  have hstanding (site : Site) (info : SiteInfo) (markers negations : List Fact)
      (h : ({ id, kind } : Buffer).standing site = some (info, markers, negations)) :
      (site = .start ∨ site = .finish) ∧ markers = [] ∧ negations = [] := by
    rw [Buffer.standing, record?_begun] at h
    split_ifs at h with hsite
    · simp only [Option.map_some, Option.some.injEq, Prod.mk.injEq] at h
      exact ⟨hsite, h.2.1.symm, h.2.2.symm⟩
    · cases h
  refine ⟨by simp, ⟨fun site => ?_, fun site fact => ?_, fun site fact hfact => ?_,
    fun site fact hfact => ?_⟩, fun site info markers negations h => ?_, fun key hkey => ?_,
    ⟨List.nodup_nil, fun key site => ?_, List.nodup_nil, fun wanted key => ?_⟩⟩
  · rw [hnotes]
    exact List.nodup_nil
  · rw [hnotes, holds_begun]
    simp
  · rw [hnotes] at hfact
    cases hfact
  · rw [hnotes] at hfact
    cases hfact
  · obtain ⟨hsite, rfl, rfl⟩ := hstanding site info markers negations h
    refine ⟨⟨List.nodup_nil, List.nodup_nil⟩, by simp, fun fact => ?_⟩
    rcases hsite with rfl | rfl <;> simp
  · rcases hkey with hkey | hkey <;> cases hkey
  · refine iff_of_false (by simp) ?_
    rintro (⟨handle, info, markers, negations, rfl, h, -⟩ | ⟨name, -, inner, production, hinner, -⟩)
    · obtain ⟨hsite | hsite, -⟩ := hstanding _ _ _ _ h <;> cases hsite
    · cases hinner
  · refine iff_of_false (by simp) ?_
    rintro ⟨hkey, -⟩
    cases hkey

/-- The chain of a buffer that begins leads from one sentinel to the other. -/
theorem chained_begun (id : BufferId) (kind : BufferKind) :
    ({ id, kind } : Buffer).Chained fun fact => decide (fact ∈
      [.endOfSentence id .start true, .endOfSentence id .finish true, .next id .start .finish]) := by
  refine ⟨fun source target => ?_, fun handle => ?_, fun site positive => ?_⟩
  · have hpath : ({ id, kind } : Buffer).path = [.start, .finish] := rfl
    simp [hpath, pairs]
  · have hnone : ({ id, kind } : Buffer).hasRecord (.token handle) = false := rfl
    simp [hnone]
  · rw [Buffer.info?, record?_begun]
    cases site <;> cases positive <;> simp [Site.endsSentence]

theorem buffer?_append {buffer : Buffer} (hnone : s.buffer? buffer.id = none) (id : BufferId) :
    ({ s with buffers := s.buffers ++ [buffer] } : Chart).buffer? id =
      if id = buffer.id then some buffer else s.buffer? id := by
  unfold buffer? at hnone ⊢
  dsimp only
  rw [List.find?_append]
  split_ifs with hid
  · rw [hid, hnone]
    simp
  · rw [List.find?_singleton, if_neg (by simpa using Ne.symm hid), Option.or_none]

/-- With a new buffer, a chart is still in order. -/
theorem Sound.begin (h : s.Sound) {id : BufferId} (kind : BufferKind) (hnone : s.buffer? id = none) :
    ({ s with buffers := s.buffers ++ [({ id, kind } : Buffer)] } : Chart).Sound := by
  refine ⟨h.grammar, ?_, fun buffer hbuffer => ?_, h.nodup_active, h.active⟩
  · simp only [List.map_append, List.map_cons, List.map_nil]
    rw [List.nodup_append']
    refine ⟨h.ids, List.nodup_singleton _, List.disjoint_singleton.2 fun hmem => ?_⟩
    obtain ⟨buffer, hbuffer, hid⟩ := List.mem_map.1 hmem
    rw [(buffer?_eq_some_iff h.ids).2 ⟨hbuffer, hid⟩] at hnone
    cases hnone
  · rcases List.mem_append.1 hbuffer with hbuffer | hbuffer
    · exact h.buffers buffer hbuffer
    · rw [List.mem_singleton.1 hbuffer]
      exact sound_begun id kind _

/-- With a new buffer, a chart is still settled. -/
theorem Current.begin (h : s.Current) {id : BufferId} (kind : BufferKind)
    (hnone : s.buffer? id = none) :
    let t : Chart := { s with buffers := s.buffers ++ [({ id, kind } : Buffer)] }
    t.Shows t.position t.skeleton s.holds := by
  intro t
  have hfind (other : BufferId) : t.buffer? other =
      if other = id then some { id, kind } else s.buffer? other := buffer?_append hnone other
  have hholds (fact : Fact) : t.holds fact = s.holds fact := by
    cases hid : fact.buffer? with
    | none => exact holds_production_congr (show t.active = s.active from rfl) hid
    | some other =>
      rw [holds_eq_of_buffer? t hid, holds_eq_of_buffer? s hid, hfind]
      split_ifs with hother
      · rw [hother, hnone, Option.map_some, holds_begun]
        rfl
      · rfl
  have hthere {fact : Fact} {other : BufferId} (hid : fact.buffer? = some other)
      (hheld : s.holds fact = true) : (s.buffer? other).isSome = true :=
    Option.isSome_iff_exists.2 (exists_buffer?_of_holds hid hheld)
  have hordered : t.Ordered s.position :=
    h.ordered.of_holds (h.ordered.sound.begin kind hnone) fun fact hfact =>
      (hholds fact).symm.trans hfact
  refine ⟨hordered.reposition fun fact other hid hheld => ?_, rfl, ?_, fun fact _ => hholds fact⟩
  · rw [hholds] at hheld
    have hsome := hthere hid hheld
    have hne : other ≠ id := by
      rintro rfl
      rw [hnone] at hsome
      cases hsome
    funext site
    rw [position, hfind, if_neg hne]
    rfl
  · refine settled_of_agrees h.settled fun other _ => ?_
    by_cases hother : other = id
    · subst hother
      refine agrees_of_holds rfl rfl (fun fact _ => hholds fact) (fun fact hid => ?_)
        fun fact site hid hheld => ?_
      · cases fact with
        | potential key | complete key =>
          obtain rfl := Option.some.inj hid
          rw [count, count, hfind, if_pos rfl, hnone]
          rfl
        | _ => rfl
      · have hsome := hthere hid hheld
        rw [hnone] at hsome
        cases hsome
    · refine agrees_of_buffer? rfl rfl ?_
      rw [hfind, if_neg hother]

end Chart

namespace Session

open Chart

variable {session : Session}

/-- Beginning a buffer keeps the chart current. -/
theorem reaches_introduction (h : session.chart.Current) {id : BufferId} (kind : BufferKind)
    (hnone : session.chart.buffer? id = none) :
    Reaches session (introductionPhases id kind) fun after => after.chart.Current ∧
      after.chart.skeleton = ({ session.chart with
        buffers := session.chart.buffers ++ [({ id, kind } : Buffer)] } : Chart).skeleton := by
  have hbegun := h.begin kind hnone
  dsimp only at hbegun
  generalize ht : ({ session.chart with
    buffers := session.chart.buffers ++ [({ id, kind } : Buffer)] } : Chart) = t at hbegun
  have hfind : t.buffer? id = some { id, kind } := by
    rw [← ht]
    exact (buffer?_append hnone id).trans (if_pos rfl)
  have hplaced : t.Placed := by
    intro buffer hbuffer
    rw [← ht] at hbuffer
    rcases List.mem_append.1 hbuffer with hbuffer | hbuffer
    · exact h.placed buffer hbuffer
    · rw [List.mem_singleton.1 hbuffer]
      exact ⟨fun _ => .empty, fun _ hhandle => Bool.noConfusion hhandle, rfl, rfl⟩
  have hstart : t.Recorded id .start := ⟨_, hfind, rfl⟩
  have hfinish : t.Recorded id .finish := ⟨_, hfind, rfl⟩
  have hlt : t.position id .start < t.position id .finish := by
    rw [Chart.position, Chart.position, hfind]
    exact Nat.succ_pos _
  refine Reaches.cons (P := fun after => after.chart.Shows t.position t.skeleton session.chart.holds)
    (Reaches.alter ?_) fun s hs => (Reaches.justify hs ?_ ?_).mono fun after ha => ?_
  · rw [← ht] at hbegun ⊢
    exact hbegun
  · intro fact hfact
    simp only [List.mem_cons, List.not_mem_nil, or_false] at hfact
    rcases hfact with rfl | rfl | rfl
    · exact ⟨FactKind.noConfusion, sets_endOfSentence hstart⟩
    · exact ⟨FactKind.noConfusion, sets_endOfSentence hfinish⟩
    · exact ⟨FactKind.noConfusion, sets_next hlt hstart hfinish⟩
  · intro fact hfact other hother
    simp only [List.mem_cons, List.not_mem_nil, or_false] at hfact
    rcases hfact with rfl | rfl | rfl
    · obtain rfl := Option.some.inj hother
      exact ⟨holds_of_buffer?_none rfl hnone, by simp⟩
    · obtain rfl := Option.some.inj hother
      exact ⟨holds_of_buffer?_none rfl hnone, by simp⟩
    · cases hother
  · have hgrammar : t.grammar = session.chart.grammar := by rw [← ht]
    refine ⟨ha.current_of_frame (hgrammar ▸ h.unitOrdered) hplaced (fun other buffer hother => ?_)
      fun p hp => ?_, ha.frame⟩
    · have hid := (buffer?_eq_some hother).2
      rw [← ht, buffer?_append hnone] at hother
      split_ifs at hother with hnew
      · -- the new buffer has its sentinels and the edge between them, and no other fact
        obtain rfl := Option.some.inj hother
        refine (chained_begun id kind).congr rfl rfl rfl fun fact hfact _ => ?_
        rw [holds_of_buffer?_none hfact hnone, Bool.or_false]
      · -- what is justified is about the new buffer, so the others keep their facts
        refine (h.chained other buffer hother).congr rfl rfl rfl fun fact hfact _ => ?_
        have hne : fact.buffer? ≠ some id := by
          rw [hfact, hid]
          simpa using hnew
        have hnot : fact ∉ [Fact.endOfSentence id .start true, .endOfSentence id .finish true,
            .next id .start .finish] := by
          intro hmem
          simp only [List.mem_cons, List.not_mem_nil, or_false] at hmem
          rcases hmem with rfl | rfl | rfl <;> exact hne rfl
        rw [decide_eq_false hnot, Bool.false_or]
    · rw [hgrammar] at hp
      simp [holds, h.active p hp]

/-- Dropping a buffer keeps the chart current. -/
theorem current_discard (h : session.chart.Current) (id : BufferId) :
    (session.withBuffers (·.filter (·.id ≠ id))).chart.Current := by
  have hshows := h.shows.discard id
  dsimp only at hshows
  change ({ session.chart with buffers := session.chart.buffers.filter (·.id ≠ id) } : Chart).Current
  generalize ht : ({ session.chart with
    buffers := session.chart.buffers.filter (·.id ≠ id) } : Chart) = t at hshows
  have hordered : t.Ordered t.position := by
    refine hshows.ordered.reposition fun fact other hid hheld => funext fun site => ?_
    have hfind := buffer?_filter (s := session.chart) id other
    rw [ht] at hfind
    rw [Chart.position, Chart.position, hfind]
    split_ifs with hother
    · rw [holds_of_buffer?_none hid (hfind.trans (if_pos hother))] at hheld
      cases hheld
    · rfl
  refine Shows.current ⟨hordered, rfl, hshows.settled, fun _ _ => rfl⟩ rfl ?_ ?_ ?_ ?_
  · rw [← ht]
    exact h.unitOrdered
  · rw [← ht]
    exact fun buffer hbuffer => h.placed buffer (List.mem_filter.1 hbuffer).1
  · intro other buffer hother
    have hfind := buffer?_filter (s := session.chart) id other
    rw [ht, hother] at hfind
    split_ifs at hfind with hid
    refine (h.chained other buffer hfind.symm).congr rfl rfl rfl fun fact hfact _ => ?_
    obtain rfl := (buffer?_eq_some hother).2
    rw [holds_of_buffer? hfact hother, holds_of_buffer? hfact hfind.symm]
  · rw [← ht]
    exact fun p hp => List.contains_iff_mem.2 (h.active p hp)

/-- Buffers with the same tokens and the same facts keep the chart current. -/
theorem current_sameFacts (h : session.chart.Current) {t : Chart}
    (hgrammar : t.grammar = session.chart.grammar) (hactive : t.active = session.chart.active)
    {change : Buffer → Buffer} (hbuffers : t.buffers = session.chart.buffers.map change)
    (hchange : ∀ buffer ∈ session.chart.buffers, Buffer.SameFacts buffer (change buffer) ∧
      (change buffer).tokens = buffer.tokens) : t.Current := by
  have hshows := h.shows.of_sameFacts hgrammar hactive hbuffers fun buffer hbuffer =>
    (hchange buffer hbuffer).1
  have hlayout : session.chart.layout = t.layout := by
    unfold Chart.layout
    rw [hbuffers, List.map_map]
    refine List.map_congr_left fun buffer hbuffer => ?_
    obtain ⟨hsame, htokens⟩ := hchange buffer hbuffer
    rw [Function.comp, Buffer.layout, Buffer.layout, hsame.id, hsame.records, htokens]
  refine hshows.current (position_congr hlayout) (hgrammar ▸ h.unitOrdered) (h.placed.congr hlayout)
    (fun id buffer hbuffer => ?_) fun p hp => ?_
  · have hfind : t.buffer? id = (session.chart.buffer? id).map change := by
      rw [buffer?, hbuffers, find?_map_sameFacts fun buffer hbuffer => (hchange buffer hbuffer).1]
      rfl
    rw [hbuffer] at hfind
    obtain ⟨old, hold, rfl⟩ := Option.map_eq_some_iff.1 hfind.symm
    obtain ⟨hsame, htokens⟩ := hchange old (buffer?_eq_some hold).1
    refine (h.chained id old hold).congr hsame.id htokens ?_ fun fact _ hkind => hshows.observed fact hkind
    funext site
    rw [Buffer.info?, Buffer.info?, hsame.record?]
  · rw [hgrammar] at hp
    exact List.contains_iff_mem.2 (h.active p hp)

/-- Interning a word keeps the chart current. -/
theorem current_intern (h : session.chart.Current) (text : Text) :
    (session.intern text).1.chart.Current :=
  current_sameFacts h rfl rfl (List.map_id _).symm fun buffer _ => ⟨.refl buffer, rfl⟩

theorem current_setBufferKind (h : session.chart.Current) {id : BufferId} {buffer : Buffer}
    (hbuffer : session.chart.buffer? id = some buffer) (kind : BufferKind) :
    (session.chart.setBuffer { buffer with kind }).Current := by
  have hsame : Buffer.SameFacts buffer { buffer with kind } := ⟨rfl, rfl, rfl, rfl, rfl, rfl⟩
  refine current_sameFacts h rfl rfl rfl fun old hold =>
    ⟨setBuffer_sameFacts h.ordered.sound.ids hbuffer hsame old hold, ?_⟩
  split_ifs with hid
  · obtain ⟨hmem, -⟩ := buffer?_eq_some hbuffer
    rw [List.inj_on_of_nodup_map h.ordered.sound.ids hold hmem hid]
  · rfl

end Session

end LiveProse
