import ObjectGraph.DataType
import ObjectGraph.Decimal
import ObjectGraph.Id
import ObjectGraph.KeyOrder

namespace ObjectGraph

inductive Variant where
  | normal
  | reverse
  | ngram
  | scalar
deriving DecidableEq

namespace Variant

def tag : Variant → UInt8
  | normal => 1
  | reverse => 2
  | ngram => 3
  | scalar => 4

def all : List Variant := [normal, reverse, ngram, scalar]

end Variant

structure IndexKey where
  variant : UInt8
  field : Id
  value : Bytes
  object : Id
deriving DecidableEq

namespace IndexKey

def headLength : Nat := 17

def minLength : Nat := headLength + 16

def bytes (k : IndexKey) : Bytes := k.variant :: (k.field.bytes ++ k.value ++ k.object.bytes)

def encode (v : Variant) (field : Id) (value : Bytes) (object : Id) : Bytes :=
  bytes ⟨v.tag, field, value, object⟩

def seekKey (v : Variant) (field : Id) (value : Bytes) : Bytes :=
  -- no object has a smaller identifier
  encode v field value Id.nil

def ofBytes? (bs : Bytes) : Option IndexKey :=
  if bs.length < minLength then none
  else do
    let variant ← bs.head?
    let field ← Id.readAt? bs 1
    let object ← Id.readAt? bs (bs.length - 16)
    return ⟨variant, field, (bs.drop headLength).take (bs.length - minLength), object⟩

def Is (k : IndexKey) (v : Variant) (field : Id) : Prop := k.variant = v.tag ∧ k.field = field

instance (k : IndexKey) (v : Variant) (field : Id) : Decidable (k.Is v field) :=
  inferInstanceAs (Decidable (_ ∧ _))

end IndexKey

def compareSigned (a b : Bytes) : Ordering :=
  let read (bs : Bytes) : Int := (UInt64.ofNat (Bytes.ofLittleEndian bs)).toInt64.toInt
  compare (read a) (read b)

def compareDecimal (a b : Bytes) : Ordering :=
  let read (bs : Bytes) : Decimal := ⟨UInt64.ofNat (Bytes.ofLittleEndian bs)⟩
  compare (read a) (read b)

def compareUnsigned (a b : Bytes) : Ordering :=
  compare (Bytes.ofLittleEndian a) (Bytes.ofLittleEndian b)

def comparePayload (type : Option DataType) (a b : Bytes) : Ordering :=
  let sized (width : Nat) (typed : Ordering) : Ordering :=
    if a.length = width ∧ b.length = width then typed else compare a b
  match type with
  | some .integer | some .datetime => sized 8 (compareSigned a b)
  | some .decimal => sized 8 (compareDecimal a b)
  | some .enum => sized 4 (compareUnsigned a b)
  | _ => compare a b

def compareScalar : Bytes → Bytes → Ordering
  | s :: a, t :: b => (compare s t).then (comparePayload (DataType.ofTag? s) a b)
  | a, b => compare a.length b.length

def compareIndexed (variant : UInt8) (a b : Bytes) : Ordering :=
  if variant = Variant.scalar.tag then compareScalar a b else compare a b

/-- The order of the search table: by variant, field, value and object. A byte string that is too
short for a key is compared as it is. -/
def KeyOrder.search : KeyOrder := fun a b =>
  match IndexKey.ofBytes? a, IndexKey.ofBytes? b with
  | some j, some k =>
    (compare (a.take IndexKey.headLength) (b.take IndexKey.headLength)).then <|
      (compareIndexed j.variant j.value k.value).then (compare j.object k.object)
  | _, _ => compare a b

end ObjectGraph
