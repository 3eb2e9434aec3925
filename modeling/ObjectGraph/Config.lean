import ObjectGraph.Decimal
import ObjectGraph.Id

namespace ObjectGraph

structure Config where
  arenaCapacity : Nat := 64 * 1024 * 1024
  pageSize : Nat := 4096
  history : Bool := true
  search : Bool := true
  /-- The similarity that a text needs where a query names none: four fifths. -/
  cutoff : Decimal := ⟨0x3fe999999999999a⟩
  actor : Id := Id.nil
deriving DecidableEq

end ObjectGraph
