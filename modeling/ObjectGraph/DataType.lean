namespace ObjectGraph

inductive DataType where
  | integer
  | decimal
  | string
  | datetime
  | boolean
  | id
  | enum
  | association
deriving DecidableEq, Repr

namespace DataType

def tag : DataType → UInt8
  | integer => 1
  | decimal => 2
  | string => 3
  | datetime => 4
  | boolean => 5
  | id => 6
  | enum => 7
  | association => 8

def ofTag? : UInt8 → Option DataType
  | 1 => some integer
  | 2 => some decimal
  | 3 => some string
  | 4 => some datetime
  | 5 => some boolean
  | 6 => some id
  | 7 => some enum
  | 8 => some association
  | _ => none

def name : DataType → String
  | integer => "integer"
  | decimal => "decimal"
  | string => "string"
  | datetime => "datetime"
  | boolean => "boolean"
  | id => "id"
  | enum => "enum"
  | association => "association"

def IsScalar (t : DataType) : Prop := t ≠ association

instance (t : DataType) : Decidable t.IsScalar :=
  inferInstanceAs (Decidable (t ≠ association))

def payloadLength? : DataType → Option Nat
  | integer | decimal | datetime => some 8
  | boolean => some 1
  | id => some 16
  | enum => some 4
  | string | association => none

end DataType

end ObjectGraph
