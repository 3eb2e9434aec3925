import ObjectGraph.Text.Utf16

namespace ObjectGraph

inductive Value where
  | integer (n : Int64)
  | decimal (x : Decimal)
  | string (s : String)
  | datetime (n : Int64)
  | boolean (b : Bool)
  | id (i : Id)
  | enum (n : UInt32)
deriving DecidableEq

namespace Value

def type : Value → DataType
  | integer _ => .integer
  | decimal _ => .decimal
  | string _ => .string
  | datetime _ => .datetime
  | boolean _ => .boolean
  | id _ => .id
  | enum _ => .enum

def text? : Value → Option String
  | string s => some s
  | _ => none

def payload : Value → Bytes
  | integer n | datetime n => Bytes.littleEndian 8 n.toUInt64.toNat
  | decimal x => Bytes.littleEndian 8 x.bits.toNat
  | string s => Utf16.encode s
  | boolean b => [b.toUInt8]
  | id i => i.bytes
  | enum n => Bytes.littleEndian 4 n.toNat

def encode (v : Value) : Bytes := v.type.tag :: v.payload

def signed (payload : Bytes) : Int64 := (UInt64.ofNat (Bytes.ofLittleEndian payload)).toInt64

def ofPayload (type : DataType) (payload : Bytes) : Except Corruption Value :=
  match type with
  | .integer => .ok (integer (signed payload))
  | .decimal => .ok (decimal ⟨UInt64.ofNat (Bytes.ofLittleEndian payload)⟩)
  | .string => (Utf16.decode payload).map string
  | .datetime => .ok (datetime (signed payload))
  | .boolean => .ok (boolean (payload ≠ [0]))
  | .id =>
    match Id.ofBytes? payload with
    | some i => .ok (id i)
    | none => .error (.payloadLength .id payload.length 16)
  | .enum => .ok (enum (UInt32.ofNat (Bytes.ofLittleEndian payload)))
  | .association => .error .associationValue

def decode : Bytes → Except Corruption (Option Value)
  | [] => .ok none
  | tag :: payload =>
    match DataType.ofTag? tag with
    | none => .error (.valueTag tag)
    | some type =>
      match type.payloadLength? with
      | some length =>
        if payload.length = length then (ofPayload type payload).map some
        else .error (.payloadLength type payload.length length)
      | none => (ofPayload type payload).map some

end Value

end ObjectGraph
