/-!
Dictionaries as association lists in ascending order of their keys. Keys that the order calls equal
are one key, and a later insertion replaces both the key and what is stored under it.
-/

namespace ObjectGraph.Dictionary

variable {κ ν : Type} (order : κ → κ → Ordering)

def find? (k : κ) : List (κ × ν) → Option (κ × ν)
  | [] => none
  | e :: d =>
    match order k e.1 with
    | .lt => none
    | .eq => some e
    | .gt => find? k d

def get? (k : κ) (d : List (κ × ν)) : Option ν := (find? order k d).map Prod.snd

def insert (k : κ) (v : ν) : List (κ × ν) → List (κ × ν)
  | [] => [(k, v)]
  | e :: d =>
    match order k e.1 with
    | .lt => (k, v) :: e :: d
    | .eq => (k, v) :: d
    | .gt => e :: insert k v d

def erase (k : κ) : List (κ × ν) → List (κ × ν)
  | [] => []
  | e :: d =>
    match order k e.1 with
    | .lt => e :: d
    | .eq => d
    | .gt => e :: erase k d

def startingAt (k : κ) (d : List (κ × ν)) : List (κ × ν) :=
  d.dropWhile fun e => order k e.1 = .gt

end ObjectGraph.Dictionary
