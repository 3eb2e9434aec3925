import ObjectGraph.Overlay.Nodes

namespace ObjectGraph

def LinkedOverlay.get? (o : LinkedOverlay) (k : Bytes) : Option (Option Bytes) := do
  let (i, _) ← o.nodes.leafFor o.order k
  let leaf ← o.nodes.leaves[i]?
  let (found, at?) := Nodes.slot o.order k leaf.entries
  if found then return some (← leaf.entries[at?]?).2 else return none

structure LinkedCursor where
  overlay : LinkedOverlay
  leaf : Option Nat
  slot : Nat

def LinkedOverlay.skipExhausted (o : LinkedOverlay) (leaf : Option Nat) (slot : Nat) : Option LinkedCursor :=
  match leaf with
  | none => some ⟨o, none, slot⟩
  | some i => do
    let leaf ← o.nodes.leaves[i]?
    if slot < leaf.entries.length then return ⟨o, some i, slot⟩
    o |>.skipExhausted leaf.next 0
partial_fixpoint

namespace LinkedCursor

def create (o : LinkedOverlay) : LinkedCursor := ⟨o, none, 0⟩

def seek (c : LinkedCursor) (k : Bytes) : Option LinkedCursor := do
  let order := c.overlay.order
  let (i, _) ← c.overlay.nodes.leafFor order k
  let leaf ← c.overlay.nodes.leaves[i]?
  c.overlay.skipExhausted (some i) (leaf.entries.takeWhile fun e => order e.1 k = .lt).length

def seekFirst (c : LinkedCursor) : Option LinkedCursor :=
  -- splits only ever put new leaves to the right
  c.overlay.skipExhausted (some 0) 0

def current? (c : LinkedCursor) : Option (Option Entry) :=
  match c.leaf with
  | none => some none
  | some i => do return some (← (← c.overlay.nodes.leaves[i]?).entries[c.slot]?)

def advance (c : LinkedCursor) : Option LinkedCursor :=
  match c.leaf with
  | none => some c
  | some i => c.overlay.skipExhausted (some i) (c.slot + 1)

end LinkedCursor

end ObjectGraph
