import LiveProse.Proofs.Chart.Agreement
import LiveProse.Proofs.Grammar.Likeness

/-! The derivation table does not look at names. When buffers and productions get other numbers, tokens
other names and texts other words, every derivation becomes one of the renamed chart, with the renamed
antecedents and the renamed conclusion; so the same can be derived, and as often. -/

namespace LiveProse

/-- Other numbers for buffers and productions, and other names for tokens. -/
structure Renaming where
  buffers : Equiv.Perm BufferId
  productions : Equiv.Perm ProductionId
  handles : Equiv.Perm Handle

namespace Renaming

variable (ρ : Renaming)

/-- Back to the old names. -/
def symm : Renaming := ⟨ρ.buffers.symm, ρ.productions.symm, ρ.handles.symm⟩

def site : Site → Site
  | .start => .start
  | .token handle => .token (ρ.handles handle)
  | .finish => .finish

def key (key : MatchKey) : MatchKey where
  buffer := ρ.buffers key.buffer
  production := ρ.productions key.production
  slotsFilled := key.slotsFilled
  beginning := ρ.handles key.beginning
  inclusiveEnd := ρ.handles key.inclusiveEnd

def fact : Fact → Fact
  | .production id => .production (ρ.productions id)
  | .available id handle => .available (ρ.buffers id) (ρ.handles handle)
  | .next id source target => .next (ρ.buffers id) (ρ.site source) (ρ.site target)
  | .endOfSentence id site positive => .endOfSentence (ρ.buffers id) (ρ.site site) positive
  | .potential key => .potential (ρ.key key)
  | .complete key => .complete (ρ.key key)

def derivation : Derivation → Derivation
  | .boundaryToken id p slot before handle =>
    .boundaryToken (ρ.buffers id) (ρ.productions p) slot (ρ.site before) (ρ.handles handle)
  | .boundaryMatch p slot before inner =>
    .boundaryMatch (ρ.productions p) slot (ρ.site before) (ρ.key inner)
  | .underToken outer p slot handle =>
    .underToken (ρ.key outer) (ρ.productions p) slot (ρ.handles handle)
  | .underMatch outer p slot inner =>
    .underMatch (ρ.key outer) (ρ.productions p) slot (ρ.key inner)
  | .extendToken key handle => .extendToken (ρ.key key) (ρ.handles handle)
  | .extendMatch key inner => .extendMatch (ρ.key key) (ρ.key inner)
  | .skip key => .skip (ρ.key key)
  | .completeWording key => .completeWording (ρ.key key)
  | .completeAtEnd key => .completeAtEnd (ρ.key key)
  | .completeBefore key next => .completeBefore (ρ.key key) (ρ.site next)

@[simp] theorem site_symm_site (site : Site) : ρ.symm.site (ρ.site site) = site := by
  cases site <;> simp [Renaming.site, symm]

@[simp] theorem key_symm_key (key : MatchKey) : ρ.symm.key (ρ.key key) = key := by
  simp [Renaming.key, symm]

@[simp] theorem fact_symm_fact (fact : Fact) : ρ.symm.fact (ρ.fact fact) = fact := by
  cases fact <;> simp [Renaming.fact] <;> simp [symm]

@[simp] theorem derivation_symm_derivation (d : Derivation) :
    ρ.symm.derivation (ρ.derivation d) = d := by
  cases d <;> simp [derivation] <;> simp [symm]

@[simp] theorem key_key_symm (key : MatchKey) : ρ.key (ρ.symm.key key) = key :=
  ρ.symm.key_symm_key key

@[simp] theorem derivation_derivation_symm (d : Derivation) :
    ρ.derivation (ρ.symm.derivation d) = d :=
  ρ.symm.derivation_symm_derivation d

theorem site_injective : Function.Injective ρ.site :=
  Function.LeftInverse.injective ρ.site_symm_site

theorem fact_injective : Function.Injective ρ.fact :=
  Function.LeftInverse.injective ρ.fact_symm_fact

theorem derivation_injective : Function.Injective ρ.derivation :=
  Function.LeftInverse.injective ρ.derivation_symm_derivation

theorem conclusion_derivation (d : Derivation) :
    (ρ.derivation d).conclusion = ρ.fact d.conclusion := by
  cases d <;> rfl

theorem kind_fact (fact : Fact) : Chart.kind (ρ.fact fact) = Chart.kind fact := by
  cases fact <;> rfl

end Renaming

namespace Chart

/-- One chart shows about a buffer what another one shows under other names. -/
structure Renames (R : Word → Word → Prop) (ρ : Renaming) (id : BufferId) (s t : Chart) : Prop where
  words : Relator.BiUnique R
  grammar : s.grammar.Alike R ρ.productions t.grammar
  info : ∀ site, (s.info id site).Alike R (t.info (ρ.buffers id) (ρ.site site))
  observed : ∀ fact, fact.buffer? = some id ∨ fact.buffer? = none → kind fact ≠ .deduction →
    t.holds (ρ.fact fact) = s.holds fact

namespace Renames

variable {R : Word → Word → Prop} {ρ : Renaming} {id : BufferId} {s t : Chart}
variable {key inner : MatchKey} {p : ProductionId} {d : Derivation}
variable (h : s.Renames R ρ id t)
include h

/-! ### Parts of derivations -/

theorem opens_iff {slot : ℕ} {accepts accepts' : Slot → Bool} {first first' last last' : SiteInfo}
    (haccepts : ∀ slot slot', slot.Alike R slot' → accepts slot = accepts' slot')
    (hfirst : first.Alike R first') (hlast : last.Alike R last') :
    s.Opens p slot accepts first last ↔ t.Opens (ρ.productions p) slot accepts' first' last' :=
  h.grammar.exists_iff fun _ _ halike => by
    rw [halike.openingsWhere_eq haccepts, halike.canReach_eq _ hfirst hlast]

theorem acceptsToken_eq (site : Site) (slot slot' : Slot) (hslot : slot.Alike R slot') :
    slot.acceptsToken (s.info id site) = slot'.acceptsToken (t.info (ρ.buffers id) (ρ.site site)) :=
  hslot.acceptsToken_eq h.words (h.info site)

theorem result? (key : MatchKey) :
    Option.Rel (Nonterminal.Alike R) (s.result? key) (t.result? (ρ.key key)) := by
  have hget := h.grammar key.production
  unfold Chart.result?
  change Option.Rel _ _ ((t.grammar.get? (ρ.productions key.production)).map _)
  generalize s.grammar.get? key.production = first,
    t.grammar.get? (ρ.productions key.production) = second at hget
  cases hget with
  | none => exact .none
  | some halike => exact .some halike.result

theorem acceptsResult_eq (inner : MatchKey) (slot slot' : Slot) (hslot : slot.Alike R slot') :
    s.acceptsResult inner slot = t.acceptsResult (ρ.key inner) slot' :=
  any_eq_of_rel (h.result? inner) fun _ _ hresult => hslot.acceptsMatch_eq h.words hresult

theorem fills_iff (hkey : key.buffer = id) {accepts accepts' : Slot → Bool} {last last' : SiteInfo}
    (haccepts : ∀ slot slot', slot.Alike R slot' → accepts slot = accepts' slot')
    (hlast : last.Alike R last') :
    s.Fills key accepts last ↔ t.Fills (ρ.key key) accepts' last' := by
  subst hkey
  exact h.grammar.exists_iff fun _ _ halike => by
    rw [any_eq_of_rel (halike.slot? key.slotsFilled) haccepts,
      halike.canReach_eq _ (h.info key.beginningSite) hlast]
    rfl

theorem needs (key : MatchKey) :
    List.Forall₂ (Nonterminal.Alike R) (s.needs key) (t.needs (ρ.key key)) := by
  have hget := h.grammar key.production
  unfold Chart.needs
  change List.Forall₂ _ _
    ((((t.grammar.get? (ρ.productions key.production)).bind (·.slot? key.slotsFilled)).map _).getD [])
  generalize s.grammar.get? key.production = first,
    t.grammar.get? (ρ.productions key.production) = second at hget
  cases hget with
  | none => exact .nil
  | @some production production' halike =>
    have hslot := halike.slot? key.slotsFilled
    rw [Option.bind_some, Option.bind_some]
    generalize production.slot? key.slotsFilled = slot, production'.slot? key.slotsFilled = slot'
      at hslot
    cases hslot with
    | none => exact .nil
    | some hslot => exact hslot.needs

theorem continues_iff (key : MatchKey) (p : ProductionId) :
    s.Continues key p ↔ t.Continues (ρ.key key) (ρ.productions p) :=
  exists_mem_iff_of_forall₂ (h.needs key) fun _ _ hwanted => h.grammar.begins_iff h.words hwanted

theorem filled_iff (key : MatchKey) (endsSentences : Bool) :
    s.Filled key endsSentences ↔ t.Filled (ρ.key key) endsSentences :=
  h.grammar.exists_iff fun _ _ halike => by
    rw [halike.arity_eq, halike.endsSentences_eq]
    rfl

theorem endsSentences_eq (p : ProductionId) :
    t.endsSentences (ρ.productions p) = s.endsSentences p :=
  (any_eq_of_rel (h.grammar p) fun _ _ halike => halike.endsSentences_eq).symm

theorem isPassage_eq (p : ProductionId) : t.isPassage (ρ.productions p) = s.isPassage p :=
  (any_eq_of_rel (h.grammar p) fun _ _ halike => halike.isPassage_eq).symm

theorem boundary_eq (site : Site) :
    t.boundary (ρ.buffers id) (ρ.site site) = (s.boundary id site).map ρ.fact := by
  unfold boundary
  rw [(h.info site).traits]
  split_ifs <;> rfl

theorem openingGuard_eq {outer : MatchKey} (houter : outer.buffer = id) (p : ProductionId) :
    t.openingGuard (ρ.key outer) (ρ.productions p) = (s.openingGuard outer p).map ρ.fact := by
  subst houter
  have hends : t.endsSentences (ρ.key outer).production = s.endsSentences outer.production :=
    h.endsSentences_eq outer.production
  unfold openingGuard
  rw [h.endsSentences_eq, hends]
  split_ifs
  · exact h.boundary_eq outer.endSite
  · rfl

theorem passingGuard_eq (key : MatchKey) :
    t.passingGuard (ρ.key key) = (s.passingGuard key).map ρ.fact := by
  have hpassage : t.isPassage (ρ.key key).production = s.isPassage key.production :=
    h.isPassage_eq key.production
  unfold passingGuard
  rw [hpassage]
  split_ifs <;> rfl

theorem closesSentence_eq (site : Site) :
    t.closesSentence (ρ.buffers id) (ρ.site site) = s.closesSentence id site := by
  unfold closesSentence
  rw [(h.info site).traits]
  cases site <;> rfl

/-! ### Derivations -/

theorem applies_iff (hd : d.buffer = id) : s.Applies d ↔ t.Applies (ρ.derivation d) := by
  have hbuffer (outer inner : MatchKey) : inner.buffer = outer.buffer ↔
      (ρ.key inner).buffer = (ρ.key outer).buffer := ρ.buffers.injective.eq_iff.symm
  cases d with
  | boundaryToken buffer p slot before handle =>
    obtain rfl := hd
    exact and_congr (h.grammar.beginsSentence_iff h.words)
      (h.opens_iff (h.acceptsToken_eq (.token handle)) (h.info _) (h.info _))
  | boundaryMatch p slot before inner =>
    obtain rfl := hd
    exact and_congr (h.grammar.beginsSentence_iff h.words)
      (h.opens_iff (h.acceptsResult_eq inner) (h.info inner.beginningSite) (h.info inner.endSite))
  | underToken outer p slot handle =>
    obtain rfl := hd
    exact and_congr (h.continues_iff outer p)
      (h.opens_iff (h.acceptsToken_eq (.token handle)) (h.info _) (h.info _))
  | underMatch outer p slot inner =>
    obtain rfl := hd
    exact and_congr (hbuffer outer inner) (and_congr (h.continues_iff outer p)
      (h.opens_iff (h.acceptsResult_eq inner) (h.info inner.beginningSite) (h.info inner.endSite)))
  | extendToken key handle =>
    obtain rfl := hd
    exact h.fills_iff rfl (h.acceptsToken_eq (.token handle)) (h.info _)
  | extendMatch key inner =>
    obtain rfl := hd
    refine (and_congr_right fun heq => ?_).trans (and_congr_left fun _ => hbuffer key inner)
    refine h.fills_iff rfl (h.acceptsResult_eq inner) ?_
    change (s.info inner.buffer _).Alike R (t.info (ρ.buffers inner.buffer) _)
    rw [heq]
    exact h.info inner.endSite
  | skip key =>
    obtain rfl := hd
    exact h.fills_iff rfl (fun _ _ hslot => hslot.optional) (h.info key.endSite)
  | completeWording key | completeAtEnd key => exact h.filled_iff key _
  | completeBefore key next =>
    obtain rfl := hd
    exact and_congr (h.filled_iff key true) (Bool.eq_iff_iff.1 (h.closesSentence_eq next).symm)

theorem antecedents_eq (hd : d.buffer = id) (happlies : s.Applies d) :
    t.antecedents (ρ.derivation d) = (s.antecedents d).map ρ.fact := by
  -- all but the guards are renamed one by one
  cases d with
  | boundaryToken buffer p slot before handle =>
    obtain rfl := hd
    simp only [antecedents, List.map_append]
    exact congrArg (_ ++ ·) (h.boundary_eq before)
  | boundaryMatch p slot before inner =>
    obtain rfl := hd
    simp only [antecedents, List.map_append]
    exact congrArg (_ ++ ·) (h.boundary_eq before)
  | underToken outer p slot handle =>
    obtain rfl := hd
    simp only [antecedents, List.map_append]
    exact congrArg (_ ++ ·) (h.openingGuard_eq rfl p)
  | underMatch outer p slot inner =>
    obtain rfl := hd
    simp only [antecedents, List.map_append]
    exact congrArg (_ ++ ·) (h.openingGuard_eq happlies.1.symm p)
  | extendToken key handle | extendMatch key inner =>
    simp only [antecedents, List.map_append]
    exact congrArg (_ ++ ·) (h.passingGuard_eq key)
  | skip | completeWording | completeAtEnd | completeBefore => rfl

theorem holding_iff (hd : d.buffer = id)
    (hholds : ∀ fact, fact.buffer? = some id ∨ fact.buffer? = none →
      t.holds (ρ.fact fact) = s.holds fact) :
    table.Holding s d ↔ table.Holding t (ρ.derivation d) := by
  refine (and_congr_right fun happlies => ?_).trans (and_congr_left fun _ => h.applies_iff hd)
  change (∀ a ∈ s.antecedents d, s.holds a = true) ↔
    ∀ a ∈ t.antecedents (ρ.derivation d), t.holds a = true
  rw [h.antecedents_eq hd happlies, List.forall_mem_map]
  exact forall₂_congr fun a ha => by rw [hholds a (hd ▸ buffer?_of_mem_antecedents happlies ha)]

/-- What can be derived about the buffer can be derived under the other names. -/
theorem derivable {fact : Fact} (hfact : fact.buffer? = some id ∨ fact.buffer? = none)
    (hderivable : table.Derivable s fact) : table.Derivable t (ρ.fact fact) := by
  induction hderivable with
  | observed hkind hholds =>
    exact .observed (fun heq => hkind ((ρ.kind_fact _).symm.trans heq))
      ((h.observed _ hfact hkind).trans hholds)
  | @derived d happlies _ ih =>
    have hd : d.buffer = id := by
      rw [table, Derivation.buffer?_conclusion] at hfact
      simpa using hfact
    refine ρ.conclusion_derivation d ▸ .derived ((h.applies_iff hd).1 happlies) fun a ha => ?_
    change a ∈ t.antecedents (ρ.derivation d) at ha
    rw [h.antecedents_eq hd happlies] at ha
    obtain ⟨b, hb, rfl⟩ := List.mem_map.1 ha
    exact ih b hb (hd ▸ buffer?_of_mem_antecedents happlies hb)

/-- What can be derived under the other names can be derived about the buffer. -/
theorem of_derivable {fact renamed : Fact} (hfact : fact.buffer? = some id ∨ fact.buffer? = none)
    (hrenamed : ρ.fact fact = renamed) (hderivable : table.Derivable t renamed) :
    table.Derivable s fact := by
  induction hderivable generalizing fact with
  | observed hkind hholds =>
    subst hrenamed
    have hkind : kind fact ≠ .deduction := fun heq => hkind ((ρ.kind_fact fact).trans heq)
    exact .observed hkind ((h.observed _ hfact hkind).symm.trans hholds)
  | @derived d happlies _ ih =>
    obtain ⟨e, rfl⟩ : ∃ e, ρ.derivation e = d := ⟨_, ρ.derivation_derivation_symm d⟩
    obtain rfl : fact = e.conclusion :=
      ρ.fact_injective (hrenamed.trans (ρ.conclusion_derivation e))
    have he : e.buffer = id := by
      rw [Derivation.buffer?_conclusion] at hfact
      simpa using hfact
    have happlies : s.Applies e := (h.applies_iff he).2 happlies
    refine .derived (c := table) happlies fun a ha => ?_
    refine ih (ρ.fact a) ?_ (he ▸ buffer?_of_mem_antecedents happlies ha) rfl
    change ρ.fact a ∈ t.antecedents (ρ.derivation e)
    rw [h.antecedents_eq he happlies]
    exact List.mem_map_of_mem ha

/-- In charts that show what can be derived, the same holds under the other names. -/
theorem holds_eq (hs : ∀ fact, s.holds fact = true ↔ table.Derivable s fact)
    (ht : ∀ fact, t.holds fact = true ↔ table.Derivable t fact) {fact : Fact}
    (hfact : fact.buffer? = some id ∨ fact.buffer? = none) : t.holds (ρ.fact fact) = s.holds fact := by
  rw [Bool.eq_iff_iff, hs, ht]
  exact ⟨h.of_derivable hfact rfl, h.derivable hfact⟩

/-- Under the other names a match follows from as many derivations. -/
theorem encard_support_eq (hs : ∀ fact, s.holds fact = true ↔ table.Derivable s fact)
    (ht : ∀ fact, t.holds fact = true ↔ table.Derivable t fact) {fact : Fact}
    (hfact : fact.buffer? = some id) :
    (table.support t (ρ.fact fact)).encard = (table.support s fact).encard := by
  rw [← ρ.derivation_injective.encard_image (table.support s fact)]
  congr 1
  ext d
  obtain ⟨e, rfl⟩ : ∃ e, ρ.derivation e = d := ⟨_, ρ.derivation_derivation_symm d⟩
  rw [ρ.derivation_injective.mem_set_image]
  have hconclusion : (ρ.derivation e).conclusion = ρ.fact fact ↔ e.conclusion = fact := by
    rw [ρ.conclusion_derivation, ρ.fact_injective.eq_iff]
  refine (and_congr_left fun _ => hconclusion).trans (and_congr_right fun heq => ?_)
  have he : e.buffer = id := by
    rw [← heq, Derivation.buffer?_conclusion] at hfact
    exact Option.some.inj hfact
  exact (h.holding_iff he fun fact hfact => h.holds_eq hs ht hfact).symm

end Renames

end Chart

end LiveProse
