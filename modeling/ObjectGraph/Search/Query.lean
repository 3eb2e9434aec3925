import ObjectGraph.Catalog
import ObjectGraph.Key
import ObjectGraph.Search.EditDistance
import ObjectGraph.Search.Entries

namespace ObjectGraph

inductive Criterion where
  | exact (text : String)
  | startsWith (text : String)
  | endsWith (text : String)
  | contains (text : String)
  | similar (text : String) (cutoff : Option Decimal)
  | range (min max : Option Value)

def Criterion.IsTextual : Criterion → Prop
  | range .. => False
  | _ => True

instance : DecidablePred Criterion.IsTextual := fun c => by
  unfold Criterion.IsTextual
  split <;> infer_instance

inductive Verdict where
  | keep
  | skip
  | stop
deriving DecidableEq

def occurs (part : List Char) : List Char → Bool
  | [] => part.isEmpty
  | c :: cs => part.isPrefixOf (c :: cs) || occurs part cs

def includes (s part : String) : Bool := occurs part.toList s.toList

structure Searcher where
  snapshot : Snapshot
  catalog : Catalog

namespace Searcher

def judgeEach (v : Variant) (field : Id) (judge : Bytes → Except Error Verdict) :
    List Entry → Except Error (List Id)
  | [] => .ok []
  | e :: rest =>
    match IndexKey.ofBytes? e.1 with
    | none => .error (.corrupted .indexKey)
    | some k =>
      if k.Is v field then do
        match ← judge k.value with
        | .stop => return []
        | .skip => judgeEach v field judge rest
        | .keep => return k.object :: (← judgeEach v field judge rest)
      else .ok []

def scan (q : Searcher) (v : Variant) (field : Id) (start : Bytes)
    (judge : Bytes → Except Error Verdict) : Except Error (List Id) := do
  let entries := (q.snapshot.table q.catalog.tables.search).startingAt (IndexKey.seekKey v field start)
  return Distinct.ofList (← judgeEach v field judge entries)

def holding (q : Searcher) (v : Variant) (field : Id) (value : Bytes) : Except Error (List Id) :=
  q.scan v field value fun found => .ok (if found = value then .keep else .stop)

def extending (q : Searcher) (v : Variant) (field : Id) (value : Bytes) : Except Error (List Id) :=
  q.scan v field value fun found => .ok (if value.isPrefixOf found then .keep else .stop)

def passing (q : Searcher) (field : Id) (test : String → Bool) : Except Error (List Id) :=
  q.scan .normal field [] fun found =>
    match Utf8.decode? found with
    | none => .error (.corrupted .indexText)
    | some s => .ok (if test s then .keep else .skip)

def narrow (q : Searcher) (field : Id) (found : List Id) : List String → Except Error (List Id)
  | [] => .ok found
  | g :: grams =>
    if found.isEmpty then .ok found
    else do
      let more ← q.holding .ngram field (Utf8.encode g)
      q.narrow field (found.filter (· ∈ more)) grams

def confirm (q : Searcher) (field : Id) (text : String) : List Id → Except Error (List Id)
  | [] => .ok []
  | o :: found => do
    let stored := (q.snapshot.table q.catalog.tables.objects).get? (Key.field o field).bytes
    match Value.decode (stored.getD []) with
    | .error cause => throw (.corrupted cause)
    | .ok (some (.string s)) =>
      -- to hold all trigrams of a text is not enough
      if includes s text then return o :: (← q.confirm field text found)
      else q.confirm field text found
    | .ok _ => q.confirm field text found

def containing (q : Searcher) (field : Id) (text : String) : Except Error (List Id) :=
  match ngrams text with
  | [] => q.passing field (includes · text)
  | g :: grams => do
    let found ← q.holding .ngram field (Utf8.encode g)
    q.confirm field text (← q.narrow field found grams)

def similarTo (q : Searcher) (field : Id) (text : String) (cutoff : Decimal) :
    Except Error (List Id) :=
  if 0 ≤ cutoff.toFloat ∧ cutoff.toFloat ≤ 1 then
    q.passing field fun s => cutoff.toFloat ≤ EditDistance.similarity s text
  else .error (.invalidArgument (.cutoff cutoff))

def checkBound (d : FieldDef) (bound : Value) : Except Error Unit :=
  if bound.type = d.type then .ok ()
  else .error (.typeMismatch d.id (.boundType bound.type d.type))

def between (q : Searcher) (d : FieldDef) (min max : Option Value) : Except Error (List Id) := do
  min.forM (checkBound d)
  max.forM (checkBound d)
  if d.type = .string then
    let least := Utf8.encode ((min.bind Value.text?).getD "")
    let greatest := (max.bind Value.text?).map Utf8.encode
    q.scan .normal d.id least fun found =>
      .ok (if greatest.any (compare found · = .gt) then .stop else .keep)
  else
    let least := (min.map Value.encode).getD []
    let greatest := max.map Value.encode
    q.scan .scalar d.id least fun found =>
      .ok (if greatest.any (compareScalar found · = .gt) then .stop else .keep)

def find (q : Searcher) (field : Id) (criterion : Criterion) : Except Error (List Id) := do
  let d ← q.catalog.indexedField field
  if criterion.IsTextual ∧ d.type ≠ .string then
    throw (.typeMismatch field (.textCriterion d.type))
  match criterion with
  | .exact text => q.holding .normal field (Utf8.encode text)
  | .startsWith text => q.extending .normal field (Utf8.encode text)
  | .endsWith text => q.extending .reverse field (Utf8.encode (reversed text))
  | .contains text => q.containing field text
  | .similar text cutoff => q.similarTo field text (cutoff.getD q.catalog.config.cutoff)
  | .range min max => q.between d min max

end Searcher

end ObjectGraph
