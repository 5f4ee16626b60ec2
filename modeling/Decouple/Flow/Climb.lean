import Decouple.Program.Ref

/-!
# Climbing to a block with a counterpart

Going up from a block along a parent relation until a block is found that a
lookup knows. The number of steps is limited, so that a parent relation with a
cycle is no trouble. A climb that finds nothing reports the block where it ended:
the one without a parent, or, at the limit, the one it would have tried next.
-/

namespace Decouple

/-- Tries `b` and then its ancestors, with at most `limit` steps up between the
tries. -/
def climb {α : Type} (parent? : BlockRef → Option BlockRef) (lookup? : BlockRef → Option α) :
    Nat → BlockRef → Except BlockRef α
  | limit, b =>
      match lookup? b with
      | some found => .ok found
      | none =>
          match parent? b with
          | none => .error b
          | some up =>
              match limit with
              | 0 => .error up
              | limit + 1 => climb parent? lookup? limit up

end Decouple
