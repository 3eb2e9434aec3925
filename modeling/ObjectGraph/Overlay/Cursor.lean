import ObjectGraph.Overlay.Basic

namespace ObjectGraph

/-- The leaf that the cursor is in, the leaves to its right and a slot of the first of them. There is
no leaf before the first move and past the last entry. -/
structure OverlayCursor where
  overlay : Overlay
  leaves : List (List Entry)
  slot : Nat

namespace OverlayCursor

def create (o : Overlay) : OverlayCursor := ⟨o, [], 0⟩

def skipExhausted (o : Overlay) : List (List Entry) → Nat → OverlayCursor
  | [], n => ⟨o, [], n⟩
  | es :: later, n => if n < es.length then ⟨o, es :: later, n⟩ else skipExhausted o later 0

def seek (c : OverlayCursor) (k : Bytes) : OverlayCursor :=
  let order := c.overlay.order
  match c.overlay.tree.leavesFrom order k with
  | [] => create c.overlay
  | es :: later =>
    skipExhausted c.overlay (es :: later) (es.takeWhile fun e => order e.1 k = .lt).length

def seekFirst (c : OverlayCursor) : OverlayCursor := skipExhausted c.overlay c.overlay.tree.leaves 0

def current? (c : OverlayCursor) : Option Entry :=
  match c.leaves with
  | [] => none
  | es :: _ => es[c.slot]?

def advance (c : OverlayCursor) : OverlayCursor :=
  match c.leaves with
  | [] => c
  | es :: later => skipExhausted c.overlay (es :: later) (c.slot + 1)

end OverlayCursor

end ObjectGraph
