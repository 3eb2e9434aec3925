namespace ObjectGraph.Distinct

variable {α : Type} [Ord α]

def insert (a : α) : List α → List α
  | [] => [a]
  | b :: l =>
    match compare a b with
    | .lt => a :: b :: l
    | .eq => b :: l
    | .gt => b :: insert a l

def ofList (l : List α) : List α := l.foldr insert []

end ObjectGraph.Distinct
