import ObjectGraph.Storage.Table
/-!
Search trees whose leaves hold entries and whose inner nodes hold separators. The child before a
separator holds smaller keys, the child after it the separator's key and greater ones. A node that
outgrows `maxKeys` is split and hands a separator to its parent; erasing an entry only shortens its
leaf, so a leaf may be empty.
-/

namespace ObjectGraph

def maxKeys : Nat := 32

mutual

inductive Tree where
  | leaf (entries : List Entry)
  | node (children : Children)

inductive Children where
  | last (child : Tree)
  | cons (child : Tree) (separator : Bytes) (rest : Children)

end

inductive Growth where
  | whole (tree : Tree)
  | split (left : Tree) (separator : Bytes) (right : Tree)

def Tree.empty : Tree := .leaf []

mutual

def Tree.leaves : Tree → List (List Entry)
  | .leaf es => [es]
  | .node cs => cs.leaves

def Children.leaves : Children → List (List Entry)
  | .last t => t.leaves
  | .cons t _ rest => t.leaves ++ rest.leaves

end

def Tree.entries (t : Tree) : List Entry := t.leaves.flatten

mutual

def Tree.leavesFrom (order : KeyOrder) (k : Bytes) : Tree → List (List Entry)
  | .leaf es => [es]
  | .node cs => cs.leavesFrom order k

def Children.leavesFrom (order : KeyOrder) (k : Bytes) : Children → List (List Entry)
  | .last t => t.leavesFrom order k
  | .cons t s rest =>
    if order s k = .gt then t.leavesFrom order k ++ rest.leaves else rest.leavesFrom order k

end

mutual

def Tree.find? (order : KeyOrder) (k : Bytes) : Tree → Option Entry
  | .leaf es => Dictionary.find? order k es
  | .node cs => cs.find? order k

def Children.find? (order : KeyOrder) (k : Bytes) : Children → Option Entry
  | .last t => t.find? order k
  | .cons t s rest => if order s k = .gt then t.find? order k else rest.find? order k

end

mutual

def Tree.erase (order : KeyOrder) (k : Bytes) : Tree → Tree
  | .leaf es => .leaf (Dictionary.erase order k es)
  | .node cs => .node (cs.erase order k)

def Children.erase (order : KeyOrder) (k : Bytes) : Children → Children
  | .last t => .last (t.erase order k)
  | .cons t s rest =>
    if order s k = .gt then .cons (t.erase order k) s rest else .cons t s (rest.erase order k)

end

def Children.separators : Children → List Bytes
  | .last _ => []
  | .cons _ s rest => s :: rest.separators

def Children.splitAt? : Nat → Children → Option (Children × Bytes × Children)
  | _, .last _ => none
  | 0, .cons t s rest => some (.last t, s, rest)
  | n + 1, .cons t s rest => (rest.splitAt? n).map fun (left, m, right) => (.cons t s left, m, right)

def Growth.ofEntries (es : List Entry) : Growth :=
  if es.length ≤ maxKeys then .whole (.leaf es)
  else
    match es.drop (es.length / 2) with
    | [] => .whole (.leaf es)
    | e :: right => .split (.leaf (es.take (es.length / 2))) e.1 (.leaf (e :: right))

def Growth.ofChildren (cs : Children) : Growth :=
  if cs.separators.length ≤ maxKeys then .whole (.node cs)
  else
    match cs.splitAt? (cs.separators.length / 2) with
    | none => .whole (.node cs)
    | some (left, s, right) => .split (.node left) s (.node right)

def Growth.asLast : Growth → Children
  | .whole t => .last t
  | .split l s r => .cons l s (.last r)

def Growth.before (separator : Bytes) (rest : Children) : Growth → Children
  | .whole t => .cons t separator rest
  | .split l s r => .cons l s (.cons r separator rest)

mutual

def Tree.grow (order : KeyOrder) (k v : Bytes) : Tree → Growth
  | .leaf es => .ofEntries (Dictionary.insert order k v es)
  | .node cs => .ofChildren (cs.grow order k v)

def Children.grow (order : KeyOrder) (k v : Bytes) : Children → Children
  | .last t => (t.grow order k v).asLast
  | .cons t s rest =>
    if order s k = .gt then (t.grow order k v).before s rest else .cons t s (rest.grow order k v)

end

def Growth.tree : Growth → Tree
  | .whole t => t
  | .split l s r => .node (.cons l s (.last r))

def Tree.insert (order : KeyOrder) (k v : Bytes) (t : Tree) : Tree := (t.grow order k v).tree

end ObjectGraph
