namespace ObjectGraph.EditDistance

structure Rows (n : Nat) where
  current : Vector Nat (n + 1)
  spare : Vector Nat (n + 1)

namespace Rows

variable {n : Nat}

def start (n : Nat) : Rows n := ⟨Vector.ofFn Fin.val, Vector.replicate (n + 1) 0⟩

def fill (target : Vector Char n) (c : Char) (first : Nat) (r : Rows n) : (k : Nat) → k ≤ n → Rows n
  | 0, _ => { r with spare := r.spare.set 0 first }
  | k + 1, h =>
    let r := fill target c first r k (Nat.le_of_succ_le h)
    let replaced := r.current[k] + if c = target[k] then 0 else 1
    let here := min (min replaced (r.current[k + 1] + 1)) (r.spare[k] + 1)
    { r with spare := r.spare.set (k + 1) here }

def swap (r : Rows n) : Rows n := ⟨r.spare, r.current⟩

def next (target : Vector Char n) (r : Rows n) (c : Char × Nat) : Rows n :=
  (r.fill target c.1 (c.2 + 1) n (Nat.le_refl n)).swap

end Rows

def distance (a b : String) : Nat :=
  let target := b.toList.toArray.toVector
  (a.toList.zipIdx.foldl (Rows.next target) (Rows.start _)).current.back

def similarity (a b : String) : Float :=
  let longest := max a.length b.length
  if longest = 0 then 1 else 1 - Float.ofNat (distance a b) / Float.ofNat longest

end ObjectGraph.EditDistance
