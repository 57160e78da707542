import LiveProse.Proofs.Chart.Coherence
import LiveProse.Proofs.Chart.Table

/-! The rows of the derivation table: each list that the chart puts its consequences together from
goes through the derivations of one row, with some of their parts given. -/

namespace LiveProse

theorem Production.nodup_openingsWhere (production : Production) (accepts : Slot → Bool) :
    (production.openingsWhere accepts).Nodup :=
  List.nodup_range.filter _

/-- An opening slot that accepts something has an alternative among the beginnings. -/
theorem Production.exists_beginning {production : Production} {accepts : Slot → Bool} {index : Nat}
    (h : index ∈ production.openingsWhere accepts) :
    ∃ slot, accepts slot = true ∧ ∀ parseme ∈ slot.alternatives, parseme ∈ production.beginnings := by
  rw [openingsWhere, List.mem_filter, List.mem_range, Option.any_eq_true] at h
  obtain ⟨hlt, slot, hslot, haccepts⟩ := h
  refine ⟨slot, haccepts, fun parseme hparseme => List.mem_flatMap.2 ⟨slot, ?_, hparseme⟩⟩
  rw [openingSlots, List.length_take] at hlt
  refine List.mem_of_getElem? (i := index) ?_
  rw [openingSlots, List.getElem?_take_of_lt (by omega), hslot]

namespace Chart

variable {chart : Chart} {buffer : BufferId} {id : ProductionId} {site : Handle} {info : SiteInfo}
variable {key inner : MatchKey} {production : Production}

/-! ### Single derivations -/

theorem acceptsResult_eq {result : Nonterminal} (h : chart.result? inner = some result) :
    chart.acceptsResult inner = fun slot => slot.acceptsMatch result := by
  funext slot
  rw [acceptsResult, h, Option.any_some]

/-- No slot accepts the match of an unknown production. -/
theorem acceptsResult_eq_false (h : chart.result? inner = none) :
    chart.acceptsResult inner = fun _ => false := by
  funext slot
  rw [acceptsResult, h, Option.any_none]

theorem not_opens_of_result?_none (h : chart.result? inner = none) (slot : Nat)
    (first last : SiteInfo) : ¬chart.Opens id slot (chart.acceptsResult inner) first last := by
  rintro ⟨production, -, hslot, -⟩
  rw [acceptsResult_eq_false h, Production.openingsWhere, List.mem_filter, Option.any_eq_true] at hslot
  obtain ⟨-, slot, -, haccepts⟩ := hslot
  cases haccepts

theorem lists_openOnToken (mk : Nat → Derivation) (hmk : mk.Injective)
    (hconclusion : ∀ slot, (mk slot).conclusion = .potential ⟨buffer, id, slot + 1, site, site⟩) :
    Lists Derivation.conclusion (chart.openOnToken buffer id site info)
      {d | ∃ slot, chart.Opens id slot (·.acceptsToken info) info info ∧ d = mk slot} := by
  unfold openOnToken Opens
  cases hget : chart.grammar.get? id with
  | none => exact Lists.nil.congr (by simp)
  | some production =>
    refine (Lists.filterMap mk (production.nodup_openingsWhere _) hmk hconclusion).congr ?_
    ext d
    simp [and_assoc]

theorem lists_openOnMatch (mk : Nat → Derivation) (hmk : mk.Injective)
    (hconclusion : ∀ slot, (mk slot).conclusion =
      .potential { inner with production := id, slotsFilled := slot + 1 }) :
    Lists Derivation.conclusion (chart.openOnMatch id inner)
      {d | ∃ slot, chart.Opens id slot (chart.acceptsResult inner)
        (chart.info inner.buffer inner.beginningSite) (chart.info inner.buffer inner.endSite) ∧
        d = mk slot} := by
  unfold openOnMatch
  cases hresult : chart.result? inner with
  | none =>
    have hnone : {d | ∃ slot, chart.Opens id slot (chart.acceptsResult inner)
        (chart.info inner.buffer inner.beginningSite) (chart.info inner.buffer inner.endSite) ∧
        d = mk slot} = ∅ := by
      ext d
      simp [not_opens_of_result?_none hresult]
    rw [hnone]
    cases chart.grammar.get? id <;> exact Lists.nil
  | some result =>
    rw [acceptsResult_eq hresult]
    unfold Opens
    cases hget : chart.grammar.get? id with
    | none => exact Lists.nil.congr (by simp)
    | some production =>
      refine (Lists.filterMap mk (production.nodup_openingsWhere _) hmk hconclusion).congr ?_
      ext d
      simp [and_assoc]

theorem lists_fillNext {accepts : Slot → Bool} {stop : Handle} {last : SiteInfo} (d : Derivation)
    (hget : chart.grammar.get? key.production = some production)
    (hconclusion : d.conclusion =
      .potential { key with slotsFilled := key.slotsFilled + 1, inclusiveEnd := stop }) :
    Lists Derivation.conclusion (chart.fillNext key production accepts stop last)
      {e | chart.Fills key accepts last ∧ e = d} := by
  unfold fillNext Fills
  refine (Lists.ite fun _ => Lists.single d hconclusion).congr ?_
  ext e
  simp [hget]

theorem lists_extendByToken (hget : chart.grammar.get? key.production = some production) :
    Lists Derivation.conclusion (chart.extendByToken key production site info)
      {d | chart.Fills key (·.acceptsToken info) info ∧ d = .extendToken key site} :=
  lists_fillNext _ hget rfl

theorem lists_extendByMatch (hget : chart.grammar.get? key.production = some production) :
    Lists Derivation.conclusion (chart.extendByMatch key production inner)
      {d | chart.Fills key (chart.acceptsResult inner) (chart.info inner.buffer inner.endSite) ∧
        d = .extendMatch key inner} := by
  unfold extendByMatch
  cases hresult : chart.result? inner with
  | none =>
    refine Lists.nil.congr ?_
    ext d
    simp [Fills, acceptsResult_eq_false hresult]
  | some result =>
    rw [acceptsResult_eq hresult]
    exact lists_fillNext (.extendMatch key inner) hget rfl

theorem lists_skipOptional (hget : chart.grammar.get? key.production = some production) :
    Lists Derivation.conclusion (chart.skipOptional key production)
      {d | chart.Fills key (·.optional) (chart.info key.buffer key.endSite) ∧ d = .skip key} :=
  lists_fillNext _ hget rfl

/-! ### Openers -/

theorem mem_ofToken {info : SiteInfo} {slot : Slot} (h : slot.acceptsToken info = true) :
    ∃ parseme ∈ slot.alternatives, ∃ key, parseme.key? = some key ∧ key ∈ ParsemeKey.ofToken info := by
  obtain ⟨parseme, hparseme, haccepts⟩ := List.any_eq_true.1 h
  refine ⟨parseme, hparseme, ?_⟩
  cases parseme <;> simp_all [Parseme.acceptsToken, Parseme.key?, ParsemeKey.ofToken]

theorem mem_resultKey {result : Nonterminal} {slot : Slot} (h : slot.acceptsMatch result = true) :
    ∃ parseme ∈ slot.alternatives, parseme.key? = some (.nonterminal result.name) := by
  obtain ⟨parseme, hparseme, haccepts⟩ := List.any_eq_true.1 h
  refine ⟨parseme, hparseme, ?_⟩
  cases parseme <;> simp_all [Parseme.acceptsMatch, Parseme.key?, Nonterminal.accepts]

theorem Sound.mem_tokenOpeners (h : chart.Sound) {slot : Nat} {first last : SiteInfo}
    (hopens : chart.Opens id slot (·.acceptsToken info) first last) :
    id ∈ chart.tokenOpeners info := by
  obtain ⟨production, hget, hslot, -⟩ := hopens
  obtain ⟨slot, haccepts, hbeginnings⟩ := production.exists_beginning hslot
  obtain ⟨parseme, hparseme, key, hkey, hmem⟩ := mem_ofToken haccepts
  rw [tokenOpeners, List.mem_eraseDups, List.mem_flatMap]
  refine ⟨key, hmem, PairIndex.mem_get.2 ((h.grammar.mem_beginnings key id).2 ⟨production, hget, ?_⟩)⟩
  exact List.mem_filterMap.2 ⟨parseme, hbeginnings parseme hparseme, hkey⟩

theorem Sound.mem_matchOpeners (h : chart.Sound) {result : Nonterminal} {slot : Nat}
    {first last : SiteInfo} (hresult : chart.result? inner = some result)
    (hopens : chart.Opens id slot (chart.acceptsResult inner) first last) :
    id ∈ chart.matchOpeners result := by
  obtain ⟨production, hget, hslot, -⟩ := hopens
  obtain ⟨slot, haccepts, hbeginnings⟩ := production.exists_beginning hslot
  rw [acceptsResult, hresult, Option.any_some] at haccepts
  obtain ⟨parseme, hparseme, hkey⟩ := mem_resultKey haccepts
  refine PairIndex.mem_get.2 ((h.grammar.mem_beginnings _ id).2 ⟨production, hget, ?_⟩)
  exact List.mem_filterMap.2 ⟨parseme, hbeginnings parseme hparseme, hkey⟩

theorem nodup_tokenOpeners (chart : Chart) (info : SiteInfo) : (chart.tokenOpeners info).Nodup :=
  nodup_eraseDups _

theorem Sound.nodup_matchOpeners (h : chart.Sound) (result : Nonterminal) :
    (chart.matchOpeners result).Nodup :=
  PairIndex.nodup_get h.grammar.nodup_beginnings _

theorem holds_production : chart.holds (.production id) = chart.active.contains id := rfl

/-! ### Opening at boundaries -/

theorem Sound.lists_openSentencesOnToken (h : chart.Sound) (before : Site) :
    Lists Derivation.conclusion (chart.openSentencesOnToken buffer site)
      {d | ∃ id slot, d = .boundaryToken buffer id slot before site ∧
        chart.Applies d ∧
        chart.holds (.production id) = true} := by
  unfold openSentencesOnToken
  refine (Lists.flatMap ((chart.nodup_tokenOpeners _).filter _)
    (fun id _ => lists_openOnToken (fun slot => .boundaryToken buffer id slot before site)
      (fun a b hab => by injection hab) fun _ => rfl) ?_).congr ?_
  · rintro a - b - d ⟨slot, -, rfl⟩ ⟨slot', -, heq⟩
    injection heq
  · ext d
    simp only [List.mem_filter, opensSentences, Bool.and_eq_true, h.grammar.sentences,
      Set.mem_ofPred_eq, holds_production]
    constructor
    · rintro ⟨id, ⟨-, hactive, hbegins⟩, slot, hopens, rfl⟩
      exact ⟨id, slot, rfl, ⟨hbegins, hopens⟩, hactive⟩
    · rintro ⟨id, slot, rfl, ⟨hbegins, hopens⟩, hactive⟩
      exact ⟨id, ⟨h.mem_tokenOpeners hopens, hactive, hbegins⟩, slot, hopens, rfl⟩

theorem Sound.lists_openSentencesOnMatch (h : chart.Sound) (before : Site) :
    Lists Derivation.conclusion (chart.openSentencesOnMatch inner)
      {d | ∃ id slot, d = .boundaryMatch id slot before inner ∧
        chart.Applies d ∧
        chart.holds (.production id) = true} := by
  unfold openSentencesOnMatch
  cases hresult : chart.result? inner with
  | none =>
    refine Lists.nil.congr ?_
    ext d
    simp only [Set.mem_empty_iff_false, Set.mem_ofPred_eq, false_iff]
    rintro ⟨id, slot, rfl, ⟨-, hopens⟩, -⟩
    exact not_opens_of_result?_none hresult _ _ _ hopens
  | some result =>
    refine (Lists.flatMap ((h.nodup_matchOpeners result).filter _)
      (fun id _ => lists_openOnMatch (fun slot => .boundaryMatch id slot before inner)
        (fun a b hab => by injection hab) fun _ => rfl) ?_).congr ?_
    · rintro a - b - d ⟨slot, -, rfl⟩ ⟨slot', -, heq⟩
      injection heq
    · ext d
      simp only [List.mem_filter, opensSentences, Bool.and_eq_true, h.grammar.sentences,
        Set.mem_ofPred_eq, holds_production]
      constructor
      · rintro ⟨id, ⟨-, hactive, hbegins⟩, slot, hopens, rfl⟩
        exact ⟨id, slot, rfl, ⟨hbegins, hopens⟩, hactive⟩
      · rintro ⟨id, slot, rfl, ⟨hbegins, hopens⟩, hactive⟩
        exact ⟨id, ⟨h.mem_matchOpeners hresult hopens, hactive, hbegins⟩, slot, hopens, rfl⟩

/-! ### Opening under matches -/

theorem Sound.continues_iff (h : chart.Sound)
    (hget : chart.grammar.get? key.production = some production) :
    chart.grammar.continues production key.slotsFilled id = true ↔ chart.Continues key id := by
  unfold Grammar.continues Continues needs
  rw [hget, Option.bind_some, Option.any_eq_true]
  cases hslot : production.slot? key.slotsFilled with
  | none => simp
  | some slot =>
    have hmem : slot ∈ production.slots := List.mem_of_getElem? hslot
    simp only [Option.some.injEq, exists_eq_left', List.any_eq_true, List.contains_iff_mem,
      Option.map_some, Option.getD_some]
    refine exists_congr fun wanted => and_congr_right fun hwanted => ?_
    exact h.grammar.closures wanted id ⟨_, production, slot, hget, hmem, hwanted⟩

theorem Sound.opensUnder_iff (h : chart.Sound)
    (hget : chart.grammar.get? key.production = some production) {openings : Openings} :
    chart.opensUnder key production openings id = true ↔
      chart.holds (.production id) = true ∧ chart.Continues key id ∧
        (chart.grammar.get? id).any openings.admits = true := by
  rw [opensUnder, Bool.and_eq_true, Bool.and_eq_true, h.continues_iff hget, and_assoc]
  rfl

theorem Sound.lists_continueOnToken (h : chart.Sound)
    (hget : chart.grammar.get? key.production = some production) {openings : Openings} :
    Lists Derivation.conclusion (chart.continueOnToken key production site
        (chart.info key.buffer (.token site)) openings)
      {d | ∃ id slot, d = .underToken key id slot site ∧
        chart.Applies d ∧ chart.holds (.production id) = true ∧
        (chart.grammar.get? id).any openings.admits = true} := by
  unfold continueOnToken
  refine (Lists.flatMap ((chart.nodup_tokenOpeners _).filter _)
    (fun id _ => lists_openOnToken (fun slot => .underToken key id slot site)
      (fun a b hab => by injection hab) fun _ => rfl) ?_).congr ?_
  · rintro a - b - d ⟨slot, -, rfl⟩ ⟨slot', -, heq⟩
    injection heq
  · ext d
    simp only [List.mem_filter, h.opensUnder_iff hget, Set.mem_ofPred_eq]
    constructor
    · rintro ⟨id, ⟨-, hactive, hcontinues, hadmits⟩, slot, hopens, rfl⟩
      exact ⟨id, slot, rfl, ⟨hcontinues, hopens⟩, hactive, hadmits⟩
    · rintro ⟨id, slot, rfl, ⟨hcontinues, hopens⟩, hactive, hadmits⟩
      exact ⟨id, ⟨h.mem_tokenOpeners hopens, hactive, hcontinues, hadmits⟩, slot, hopens, rfl⟩

theorem Sound.lists_continueOnMatch (h : chart.Sound)
    (hget : chart.grammar.get? key.production = some production) {openings : Openings}
    (hbuffer : inner.buffer = key.buffer) :
    Lists Derivation.conclusion (chart.continueOnMatch key production inner openings)
      {d | ∃ id slot, d = .underMatch key id slot inner ∧
        chart.Applies d ∧ chart.holds (.production id) = true ∧
        (chart.grammar.get? id).any openings.admits = true} := by
  unfold continueOnMatch
  cases hresult : chart.result? inner with
  | none =>
    refine Lists.nil.congr ?_
    ext d
    simp only [Set.mem_empty_iff_false, Set.mem_ofPred_eq, false_iff]
    rintro ⟨id, slot, rfl, ⟨-, -, hopens⟩, -⟩
    exact not_opens_of_result?_none hresult _ _ _ hopens
  | some result =>
    refine (Lists.flatMap ((h.nodup_matchOpeners result).filter _)
      (fun id _ => lists_openOnMatch (fun slot => .underMatch key id slot inner)
        (fun a b hab => by injection hab) fun _ => rfl) ?_).congr ?_
    · rintro a - b - d ⟨slot, -, rfl⟩ ⟨slot', -, heq⟩
      injection heq
    · ext d
      simp only [List.mem_filter, h.opensUnder_iff hget, Set.mem_ofPred_eq]
      constructor
      · rintro ⟨id, ⟨-, hactive, hcontinues, hadmits⟩, slot, hopens, rfl⟩
        exact ⟨id, slot, rfl, ⟨hbuffer, hcontinues, hopens⟩, hactive, hadmits⟩
      · rintro ⟨id, slot, rfl, ⟨-, hcontinues, hopens⟩, hactive, hadmits⟩
        exact ⟨id, ⟨h.mem_matchOpeners hresult hopens, hactive, hcontinues, hadmits⟩, slot, hopens,
          rfl⟩

end Chart

end LiveProse
