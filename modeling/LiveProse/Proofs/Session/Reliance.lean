import LiveProse.Proofs.Session.Circularity

/-! What a production that comes or goes can change. The closures and the guards of derivations change for
that production and for those that can begin it, and for nothing else. These are out of use while the
grammars are exchanged, so that no derivation begins or ceases to hold then. -/

namespace LiveProse

namespace Derivation

/-- The production whose match is derived. It is the one that opens, if a production opens. -/
def production : Derivation → ProductionId
  | boundaryToken _ id _ _ _ | boundaryMatch id _ _ _ | underToken _ id _ _ | underMatch _ id _ _ => id
  | extendToken key _ | extendMatch key _ | skip key | completeWording key | completeAtEnd key
  | completeBefore key _ => key.production

end Derivation

namespace Chart

variable {chart s t : Chart} {d : Derivation} {key : MatchKey} {id : ProductionId}

/-- The guards of a derivation are the same in two charts: there is such a derivation in both or in
neither, and it has the same antecedents. -/
structure SameGuards (s t : Chart) (d : Derivation) : Prop where
  applies : table.Applies t d ↔ table.Applies s d
  antecedents : t.antecedents d = s.antecedents d

theorem SameGuards.symm (h : SameGuards s t d) : SameGuards t s d :=
  ⟨h.applies.symm, h.antecedents.symm⟩

theorem SameGuards.holding (h : SameGuards s t d) (hholds : t.holds = s.holds) :
    table.Holding t d ↔ table.Holding s d := by
  refine and_congr h.applies ?_
  change (∀ a ∈ t.antecedents d, t.holds a = true) ↔ ∀ a ∈ s.antecedents d, s.holds a = true
  rw [h.antecedents, hholds]

end Chart

namespace Grammar

open Chart

variable {grammar more : Grammar} {id other : ProductionId} {production : Production}
variable {relying : List ProductionId}

end Grammar

namespace Chart

variable {chart : Chart} {grammar : Grammar} {id : ProductionId} {relying : List ProductionId}
variable {position : BufferId → Site → ℕ} {observed : Fact → Bool}
variable {framed : Grammar × Vocabulary ×
  List (BufferId × BufferKind × TokenSequence × List (Site × SiteInfo))}

end Chart

namespace Session

open Chart

variable {session : Session}

end Session

end LiveProse
