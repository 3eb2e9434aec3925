import ObjectGraph.Ordered.Distinct
import ObjectGraph.Search.IndexKey
import ObjectGraph.Text.Utf8
import ObjectGraph.Value

namespace ObjectGraph

def trigrams : List Char → List String
  | a :: b :: c :: rest => String.ofList [a, b, c] :: trigrams (b :: c :: rest)
  | _ => []

def ngrams (s : String) : List String := Distinct.ofList (trigrams s.toList)

def reversed (s : String) : String := String.ofList s.toList.reverse

def indexForms (raw : Bytes) : Except Corruption (List (Variant × Bytes)) := do
  match ← Value.decode raw with
  | none => return []
  | some (.string s) =>
    return (.normal, Utf8.encode s) :: (.reverse, Utf8.encode (reversed s)) ::
      (ngrams s).map fun g => (.ngram, Utf8.encode g)
  | some _ => return [(.scalar, raw)]

end ObjectGraph
