import ObjectGraph.History.View
/-!
Commit identifiers: 48 bits of milliseconds and a counter of 74 bits, laid out around a version
number of 7 and the variant bits `10`. A sequence of them never repeats nor goes back.
-/

namespace ObjectGraph

structure Stamp where
  millis : Nat
  random : Nat

structure CommitSequence where
  latest : Nat := 0

namespace CommitId

def counterLimit : Nat := 1 <<< 74

def layout (millis counter : Nat) : Nat :=
  millis <<< 80 + 7 <<< 76 + (counter >>> 62) <<< 64 + 2 <<< 62 + counter % (1 <<< 62)

def candidate (s : Stamp) : Nat := layout (s.millis % (1 <<< 48)) (s.random % counterLimit)

def counter (n : Nat) : Nat := ((n >>> 64) % (1 <<< 12)) <<< 62 + n % (1 <<< 62)

def successor (n : Nat) : Nat :=
  if counter n + 1 = counterLimit then layout ((n >>> 80 + 1) % (1 <<< 48)) 0
  else layout (n >>> 80) (counter n + 1)

def millis (c : CommitId) : Nat := c.toNat >>> 80

end CommitId

namespace CommitSequence

def startingAfter (floor : CommitId) : CommitSequence := ⟨floor.toNat⟩

def next (s : CommitSequence) (stamp : Stamp) : CommitId × CommitSequence :=
  let candidate := CommitId.candidate stamp
  -- the clock decides unless it lags behind
  let n := if s.latest < candidate then candidate else CommitId.successor s.latest
  (Id.ofNat n, ⟨n⟩)

end CommitSequence

end ObjectGraph
