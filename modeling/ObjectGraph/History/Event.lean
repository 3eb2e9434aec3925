import ObjectGraph.Id

namespace ObjectGraph

inductive Event where
  | created (type : Id)
  | deleted (type : Id)
  | changed (field : Id) (old new : Bytes)
  | linked (field other otherField : Id)
  | unlinked (field other otherField : Id)
deriving DecidableEq

namespace Event

def kind : Event → UInt8
  | created _ => 1
  | deleted _ => 2
  | changed .. => 3
  | linked .. => 4
  | unlinked .. => 5

def headLength : Nat := 8

def bodyLength : Event → Nat
  | created _ | deleted _ => 16
  | changed .. => 32
  | linked .. | unlinked .. => 48

def payload : Event → Bytes
  | changed _ old new => old ++ new
  | _ => []

def pointer (offset : Nat) (payload : Bytes) : Bytes :=
  Bytes.littleEndian 4 (if payload.isEmpty then 0 else offset) ++
    Bytes.littleEndian 4 payload.length

def body (offset : Nat) : Event → Bytes
  | created type | deleted type => type.bytes
  | changed field old new =>
    field.bytes ++ pointer offset old ++ pointer (offset + old.length) new
  | linked field other otherField | unlinked field other otherField =>
    field.bytes ++ other.bytes ++ otherField.bytes

end Event

end ObjectGraph
