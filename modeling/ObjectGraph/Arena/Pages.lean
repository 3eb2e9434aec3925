import ObjectGraph.Arena.Quota
import ObjectGraph.Bytes

namespace ObjectGraph

structure Pages where
  bytes : Bytes := []
  limit : Nat := 0

namespace Pages

def reserve (limit : Nat) : Pages := ⟨[], limit⟩

def commit (p : Pages) (length : Nat) : Except Error Pages :=
  if length ≤ p.bytes.length then .ok p
  else if length ≤ min p.limit Quota.maxCapacity then
    .ok { p with bytes := p.bytes ++ List.replicate (length - p.bytes.length) 0 }
  else .error (.arenaExhausted length p.bytes.length p.limit)

def decommit (p : Pages) (keep : Nat) : Pages := { p with bytes := p.bytes.take keep }

def release : Pages := {}

def write (p : Pages) (offset : Nat) (bs : Bytes) : Pages :=
  { p with bytes := p.bytes.take offset ++ bs ++ p.bytes.drop (offset + bs.length) }

end Pages

end ObjectGraph
