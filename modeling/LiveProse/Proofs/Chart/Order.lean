import LiveProse.Proofs.Chart.Ledger
import LiveProse.Proofs.Grammar.UnitOrder
import Mathlib.Data.Prod.Lex
import Mathlib.Order.WithBot

/-! Matches come after what they are derived from: later in the text, or longer, or further on in the
order of the names, or with more slots filled. So a chart that is settled holds nothing that only
supports itself. -/

namespace LiveProse

namespace Production

variable {production : Production}

theorem of_mem_take_takeWhile {α : Type} {p : α → Bool} {xs : List α} {n : ℕ}
    (h : n ≤ (xs.takeWhile p).length) {x : α} (hx : x ∈ xs.take n) : p x = true := by
  induction xs generalizing n with
  | nil => simp at hx
  | cons y xs ih =>
    cases n with
    | zero => simp at hx
    | succ n =>
      rw [List.takeWhile_cons] at h
      split at h
      · rename_i hy
        rw [List.length_cons, Nat.add_le_add_iff_right] at h
        rw [List.take_succ_cons, List.mem_cons] at hx
        rcases hx with rfl | hx
        · exact hy
        · exact ih h hx
      · simp at h

/-- What a production takes in alone, its other slots being optional, is a unit target. -/
theorem mem_unitTargets {index : Nat} {result : Nonterminal}
    (hindex : index ∈ production.openingsWhere (·.acceptsMatch result))
    (hrest : (production.slots.drop (index + 1)).all (·.optional) = true) :
    result.name ∈ production.unitTargets := by
  obtain ⟨hlt, haccepts⟩ := List.mem_filter.1 hindex
  rw [List.mem_range, openingSlots, List.length_take] at hlt
  obtain ⟨slot, hslot, haccepts⟩ := (Option.any_eq_true _ _).1 haccepts
  have hfirst : ∀ other ∈ production.slots.take index, other.optional = true := fun other =>
    of_mem_take_takeWhile (by
      change index ≤ production.epsilonPrefix
      omega)
  have hothers : (production.slots.eraseIdx index).all (·.optional) = true := by
    rw [List.eraseIdx_eq_take_drop_succ, List.all_append, hrest, Bool.and_true, List.all_eq_true]
    exact hfirst
  refine List.mem_flatMap.2 ⟨index, List.mem_range.2 (by unfold arity; omega), ?_⟩
  rw [if_pos hothers, hslot, Option.map_some, Option.getD_some]
  obtain ⟨parseme, hparseme, hmatch⟩ := List.any_eq_true.1 haccepts
  cases parseme with
  | nonterminal wanted =>
    refine List.mem_map.2 ⟨wanted, List.mem_filterMap.2 ⟨_, hparseme, rfl⟩, ?_⟩
    simp only [Parseme.acceptsMatch, Nonterminal.accepts, Bool.and_eq_true,
      decide_eq_true_eq] at hmatch
    exact hmatch.1
  | _ => cases hmatch

end Production

/-- Whether a fact keeps to an order of the sites: an edge leads on in it, and a match does not end
before it begins. -/
def Fact.Along (edge span : BufferId → Site → Site → Prop) : Fact → Prop
  | .next id source target => edge id source target
  | .potential key | .complete key => span key.buffer key.beginningSite key.endSite
  | .production _ | .available _ _ | .endOfSentence _ _ _ => True

namespace Chart

variable {chart : Chart} {position : BufferId → Site → ℕ} {names : Word → ℕ}
variable {fact : Fact} {key : MatchKey} {edge span : BufferId → Site → Site → Prop}

/-- Edges lead on in the order of the sites. -/
def Aligned (chart : Chart) (position : BufferId → Site → ℕ) : Prop :=
  ∀ id source target, chart.holds (.next id source target) = true →
    position id source < position id target

/-- Matches begin before they end. -/
def Spanned (chart : Chart) (position : BufferId → Site → ℕ) : Prop :=
  ∀ key, chart.holds (.potential key) = true ∨ chart.holds (.complete key) = true →
    position key.buffer key.beginningSite ≤ position key.buffer key.endSite

/-- Where a match stands in the order of the names: behind all of them, as long as it cannot be
complete without taking in more. -/
def tier (chart : Chart) (names : Word → ℕ) (key : MatchKey) : WithTop ℕ :=
  match chart.grammar.get? key.production with
  | none => ⊤
  | some production =>
    if (production.slots.drop key.slotsFilled).all (·.optional) then names production.result.name
    else ⊤

/-- What derivations go up in. -/
def rank (chart : Chart) (names : Word → ℕ) (position : BufferId → Site → ℕ) :
    Fact → ℕ ×ₗ ℕ ×ₗ WithTop ℕ ×ₗ ℕ
  | .potential key =>
    toLex (position key.buffer key.endSite,
      toLex (position key.buffer key.endSite - position key.buffer key.beginningSite,
        toLex (chart.tier names key, 2 * key.slotsFilled)))
  | .complete key =>
    toLex (position key.buffer key.endSite,
      toLex (position key.buffer key.endSite - position key.buffer key.beginningSite,
        toLex (((chart.result? key).map fun result => (names result.name : WithTop ℕ)).getD ⊤,
          2 * key.slotsFilled + 1)))
  | _ => toLex (0, toLex (0, toLex (0, 0)))

theorem wellFounded_rank : WellFounded
    ((· < ·) : ℕ ×ₗ ℕ ×ₗ WithTop ℕ ×ₗ ℕ → ℕ ×ₗ ℕ ×ₗ WithTop ℕ ×ₗ ℕ → Prop) :=
  wellFounded_lt

theorem outer?_of_mem_antecedents {d : Derivation} (h : .potential key ∈ chart.antecedents d) :
    d.outer? = some key := by
  cases d <;>
    simp_all [antecedents, not_mem_boundary, not_mem_openingGuard, not_mem_passingGuard,
      Derivation.outer?]

theorem inner?_of_mem_antecedents {d : Derivation} (h : .complete key ∈ chart.antecedents d) :
    d.inner? = some key := by
  cases d <;>
    simp_all [antecedents, not_mem_boundary, not_mem_openingGuard, not_mem_passingGuard,
      Derivation.inner?]

/-- A step over an edge goes up. -/
theorem rank_lt_of_end_lt {a b : MatchKey} {f g : MatchKey → Fact}
    (hf : f = .potential ∨ f = .complete) (hg : g = .potential ∨ g = .complete)
    (h : position a.buffer a.endSite < position b.buffer b.endSite) :
    chart.rank names position (f a) < chart.rank names position (g b) := by
  rcases hf with rfl | rfl <;> rcases hg with rfl | rfl <;>
    exact Prod.Lex.toLex_lt_toLex.2 (.inl h)

/-- A filled slot more that takes in nothing goes up. -/
theorem tier_succ (hfills : chart.Fills key (·.optional) (chart.info key.buffer key.endSite)) :
    chart.tier names { key with slotsFilled := key.slotsFilled + 1 } = chart.tier names key := by
  obtain ⟨production, hget, hoptional, -⟩ := hfills
  obtain ⟨slot, hslot, hoptional⟩ := (Option.any_eq_true _ _).1 hoptional
  obtain ⟨hlt, rfl⟩ := List.getElem?_eq_some_iff.1 hslot
  unfold tier
  rw [hget]
  dsimp only
  rw [List.drop_eq_getElem_cons hlt, List.all_cons, hoptional, Bool.true_and]

theorem tier_of_filled {endsSentences : Bool} (h : chart.Filled key endsSentences) :
    chart.tier names key =
      ((chart.result? key).map fun result => (names result.name : WithTop ℕ)).getD ⊤ := by
  obtain ⟨production, hget, hle, -⟩ := h
  unfold tier result?
  rw [hget]
  dsimp only [Option.map_some, Option.getD_some]
  rw [List.drop_eq_nil_of_le hle, List.all_nil, if_pos rfl]

/-- A name that a production takes in over the same tokens comes before its result. -/
theorem lt_tier {id : ProductionId} {slot : Nat} {first last : SiteInfo} {inner : MatchKey}
    (hnames : chart.grammar.Ranked names)
    (hopens : chart.Opens id slot (chart.acceptsResult inner) first last) :
    ((chart.result? inner).map fun result => (names result.name : WithTop ℕ)).getD ⊤ <
      chart.tier names { inner with production := id, slotsFilled := slot + 1 } := by
  cases hresult : chart.result? inner with
  | none => exact absurd hopens (not_opens_of_result?_none hresult _ _ _)
  | some result =>
    obtain ⟨production, hget, hslot, -⟩ := hopens
    rw [acceptsResult_eq hresult] at hslot
    unfold tier
    rw [hget]
    dsimp only [Option.map_some, Option.getD_some]
    split_ifs with hrest
    · exact_mod_cast hnames id production hget _ (Production.mem_unitTargets hslot hrest)
    · exact WithTop.coe_lt_top _

/-- A longer match that ends at the same place comes later. -/
theorem rank_lt_of_length_lt {a b : MatchKey}
    (hend : position a.buffer a.endSite = position b.buffer b.endSite)
    (h : position a.buffer a.endSite - position a.buffer a.beginningSite <
      position b.buffer b.endSite - position b.buffer b.beginningSite) :
    chart.rank names position (.complete a) < chart.rank names position (.potential b) :=
  Prod.Lex.toLex_lt_toLex.2 (.inr ⟨hend, Prod.Lex.toLex_lt_toLex.2 (.inl h)⟩)

theorem rank_lt_complete (key : MatchKey) {endsSentences : Bool}
    (h : chart.Filled key endsSentences) :
    chart.rank names position (.potential key) < chart.rank names position (.complete key) := by
  refine Prod.Lex.toLex_lt_toLex.2 (.inr ⟨rfl, Prod.Lex.toLex_lt_toLex.2 (.inr ⟨rfl, ?_⟩)⟩)
  refine Prod.Lex.toLex_lt_toLex.2 (.inr ⟨tier_of_filled h, ?_⟩)
  exact Nat.lt_succ_self _

/-- A match comes after what it opens on. -/
theorem rank_lt_of_opens {id : ProductionId} {slot : Nat} {first last : SiteInfo} {inner : MatchKey}
    (hnames : chart.grammar.Ranked names)
    (hopens : chart.Opens id slot (chart.acceptsResult inner) first last) :
    chart.rank names position (.complete inner) < chart.rank names position
      (.potential { inner with production := id, slotsFilled := slot + 1 }) := by
  refine Prod.Lex.toLex_lt_toLex.2 (.inr ⟨rfl, Prod.Lex.toLex_lt_toLex.2 (.inr ⟨rfl, ?_⟩)⟩)
  exact Prod.Lex.toLex_lt_toLex.2 (.inl (lt_tier hnames hopens))

/-- What is derived along edges from matches that end where they begin or later does so too. -/
theorem along_conclusion (hrefl : ∀ id site, span id site site)
    (hjoin : ∀ id {a b c d}, span id a b → edge id b c → span id c d → span id a d) {d : Derivation}
    (happlies : table.Applies chart d) (halong : ∀ a ∈ chart.antecedents d, a.Along edge span) :
    d.conclusion.Along edge span := by
  cases d with
  | boundaryToken id slot before handle => exact hrefl _ _
  | underToken outer id slot handle => exact hrefl _ _
  | boundaryMatch id slot before inner | underMatch outer id slot inner =>
    exact halong (.complete inner) (by simp [antecedents])
  | extendToken outer handle =>
    have houter := halong (.potential outer) (by simp [antecedents])
    have hedge := halong (.next outer.buffer outer.endSite (.token handle)) (by simp [antecedents])
    exact hjoin _ houter hedge (hrefl _ _)
  | extendMatch outer inner =>
    obtain ⟨hbuffer, -⟩ := happlies
    have houter := halong (.potential outer) (by simp [antecedents])
    have hinner := halong (.complete inner) (by simp [antecedents])
    have hedge := halong (.next outer.buffer outer.endSite inner.beginningSite)
      (by simp [antecedents])
    change span inner.buffer _ _ at hinner
    rw [hbuffer] at hinner
    exact hjoin _ houter hedge hinner
  | skip outer | completeWording outer | completeAtEnd outer | completeBefore outer next =>
    exact halong (.potential outer) (by simp [antecedents])

section Along

variable {d : Derivation}
variable (halong : ∀ a ∈ chart.antecedents d, a.Along (fun id a b => position id a < position id b)
  fun id a b => position id a ≤ position id b)
include halong

theorem lt_of_mem_antecedents {id : BufferId} {source target : Site}
    (hmem : .next id source target ∈ chart.antecedents d) : position id source < position id target :=
  halong (.next id source target) hmem

theorem le_of_mem_antecedents (key : MatchKey) (hmem : .complete key ∈ chart.antecedents d) :
    position key.buffer key.beginningSite ≤ position key.buffer key.endSite :=
  halong (.complete key) hmem

/-- What a derivation goes on from comes before what it concludes. -/
theorem rank_lt_of_outer (happlies : table.Applies chart d)
    (hmem : .potential key ∈ chart.antecedents d) :
    chart.rank names position (.potential key) < chart.rank names position d.conclusion := by
  have houter := outer?_of_mem_antecedents hmem
  cases d with
  | boundaryToken | boundaryMatch => cases houter
  | underToken outer id slot handle =>
    obtain rfl := Option.some.inj houter
    have hlt : position outer.buffer outer.endSite < position outer.buffer (.token handle) :=
      lt_of_mem_antecedents halong (by simp [antecedents])
    exact rank_lt_of_end_lt (.inl rfl) (.inl rfl) hlt
  | underMatch outer id slot inner =>
    obtain rfl := Option.some.inj houter
    obtain ⟨hbuffer, -⟩ := happlies
    have hlt : position outer.buffer outer.endSite < position outer.buffer inner.beginningSite :=
      lt_of_mem_antecedents halong (by simp [antecedents])
    have hle := le_of_mem_antecedents halong inner (by simp [antecedents])
    rw [hbuffer] at hle
    refine rank_lt_of_end_lt (.inl rfl) (.inl rfl) ?_
    change _ < position inner.buffer inner.endSite
    rw [hbuffer]
    exact hlt.trans_le hle
  | extendToken outer handle =>
    obtain rfl := Option.some.inj houter
    have hlt : position outer.buffer outer.endSite < position outer.buffer (.token handle) :=
      lt_of_mem_antecedents halong (by simp [antecedents])
    exact rank_lt_of_end_lt (.inl rfl) (.inl rfl) hlt
  | extendMatch outer inner =>
    obtain rfl := Option.some.inj houter
    obtain ⟨hbuffer, -⟩ := happlies
    have hlt : position outer.buffer outer.endSite < position outer.buffer inner.beginningSite :=
      lt_of_mem_antecedents halong (by simp [antecedents])
    have hle := le_of_mem_antecedents halong inner (by simp [antecedents])
    rw [hbuffer] at hle
    exact rank_lt_of_end_lt (.inl rfl) (.inl rfl) (hlt.trans_le hle)
  | skip outer =>
    obtain rfl := Option.some.inj houter
    refine Prod.Lex.toLex_lt_toLex.2 (.inr ⟨rfl, Prod.Lex.toLex_lt_toLex.2 (.inr ⟨rfl, ?_⟩)⟩)
    refine Prod.Lex.toLex_lt_toLex.2 (.inr ⟨(tier_succ happlies).symm, ?_⟩)
    change 2 * outer.slotsFilled < 2 * (outer.slotsFilled + 1)
    omega
  | completeWording outer =>
    obtain rfl := Option.some.inj houter
    exact rank_lt_complete outer happlies
  | completeAtEnd outer =>
    obtain rfl := Option.some.inj houter
    exact rank_lt_complete outer happlies
  | completeBefore outer next =>
    obtain rfl := Option.some.inj houter
    exact rank_lt_complete outer happlies.1

/-- What a derivation takes in comes before what it concludes. -/
theorem rank_lt_of_inner (hnames : chart.grammar.Ranked names) (happlies : table.Applies chart d)
    (hmem : .complete key ∈ chart.antecedents d) :
    chart.rank names position (.complete key) < chart.rank names position d.conclusion := by
  have hinner := inner?_of_mem_antecedents hmem
  have hle := le_of_mem_antecedents halong key hmem
  cases d with
  | boundaryToken | underToken | extendToken | skip | completeWording | completeAtEnd
    | completeBefore => cases hinner
  | boundaryMatch id slot before inner =>
    obtain rfl := Option.some.inj hinner
    exact rank_lt_of_opens hnames happlies.2
  | underMatch outer id slot inner =>
    obtain rfl := Option.some.inj hinner
    exact rank_lt_of_opens hnames happlies.2.2
  | extendMatch outer inner =>
    obtain rfl := Option.some.inj hinner
    obtain ⟨hbuffer, -⟩ := happlies
    have hlt : position outer.buffer outer.endSite < position outer.buffer inner.beginningSite :=
      lt_of_mem_antecedents halong (by simp [antecedents])
    have hspan : position outer.buffer outer.beginningSite ≤ position outer.buffer outer.endSite :=
      halong (.potential outer) (by simp [antecedents])
    refine rank_lt_of_length_lt (congrArg (position · inner.endSite) hbuffer) ?_
    change position inner.buffer inner.endSite - position inner.buffer inner.beginningSite <
      position outer.buffer inner.endSite - position outer.buffer outer.beginningSite
    rw [hbuffer] at hle ⊢
    omega

/-- What a derivation goes on from and takes in comes before what it concludes, where edges lead on
and matches do not end before they begin. -/
theorem rank_lt_of_along (hnames : chart.grammar.Ranked names) (happlies : table.Applies chart d)
    (hmem : fact ∈ chart.antecedents d) (hkind : kind fact = .deduction) :
    chart.rank names position fact < chart.rank names position d.conclusion := by
  cases fact with
  | potential key => exact rank_lt_of_outer halong happlies hmem
  | complete key => exact rank_lt_of_inner halong hnames happlies hmem
  | _ => cases hkind

end Along

/-- What holds in a chart keeps to the order of its edges and matches. -/
theorem along_of_holds (haligned : chart.Aligned position) (hspanned : chart.Spanned position)
    (hfact : chart.holds fact = true) : fact.Along (fun id a b => position id a < position id b)
      fun id a b => position id a ≤ position id b := by
  cases fact with
  | next id source target => exact haligned id source target hfact
  | potential key => exact hspanned key (.inl hfact)
  | complete key => exact hspanned key (.inr hfact)
  | _ => trivial

/-- What a derivation that holds goes on from and takes in comes before what it concludes. -/
theorem rank_lt (haligned : chart.Aligned position) (hspanned : chart.Spanned position)
    (hnames : chart.grammar.Ranked names) {d : Derivation} (hd : table.Holding chart d)
    (hmem : fact ∈ chart.antecedents d) (hkind : kind fact = .deduction) :
    chart.rank names position fact < chart.rank names position d.conclusion :=
  rank_lt_of_along (fun a ha => along_of_holds haligned hspanned (hd.2 a ha)) hnames hd.1 hmem hkind

end Chart

end LiveProse
