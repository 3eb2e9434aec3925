import ObjectGraph.Error

namespace ObjectGraph

structure Quota where
  capacity : Nat
  used : Nat
deriving DecidableEq

namespace Quota

def maxCapacity : Nat := 1 <<< 32 - 1

def create (capacity pageSize : Nat) : Except Error Quota :=
  if pageSize = 0 then .error (.invalidArgument .zeroPageSize)
  else .ok ⟨min capacity maxCapacity, 0⟩

def take (q : Quota) (length : Nat) : Except Error Quota :=
  if q.used + length ≤ q.capacity then .ok { q with used := q.used + length }
  else .error (.arenaExhausted length q.used q.capacity)

def reset (q : Quota) : Quota := { q with used := 0 }

end Quota

end ObjectGraph
