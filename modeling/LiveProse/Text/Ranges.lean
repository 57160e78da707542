/-!
Sets of codepoints given as a table of ranges in increasing order.
-/

namespace LiveProse

/-- Whether a range of the table holds the codepoint. The search ends at the first range that lies
wholly above it. -/
def inRanges (c : Char) : List (Nat × Nat) → Bool
  | [] => false
  | (lo, hi) :: rest => lo ≤ c.toNat && (c.toNat ≤ hi || inRanges c rest)

end LiveProse
