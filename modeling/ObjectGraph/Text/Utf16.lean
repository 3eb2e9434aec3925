import ObjectGraph.Bytes
import ObjectGraph.Error

namespace ObjectGraph.Utf16

def unitsOfChar (c : Char) : List Nat :=
  if c.toNat < 0x10000 then [c.toNat]
  else [0xD800 + (c.toNat - 0x10000) / 0x400, 0xDC00 + (c.toNat - 0x10000) % 0x400]

def units (s : String) : List Nat := s.toList.flatMap unitsOfChar

def encode (s : String) : Bytes := (units s).flatMap (Bytes.littleEndian 2)

def IsHigh (u : Nat) : Prop := 0xD800 ≤ u ∧ u < 0xDC00

def IsLow (u : Nat) : Prop := 0xDC00 ≤ u ∧ u < 0xE000

instance (u : Nat) : Decidable (IsHigh u) := inferInstanceAs (Decidable (_ ∧ _))

instance (u : Nat) : Decidable (IsLow u) := inferInstanceAs (Decidable (_ ∧ _))

def pair (high low : Nat) : Char :=
  Char.ofNat (0x10000 + (high - 0xD800) * 0x400 + (low - 0xDC00))

def chars? : List Nat → Option (List Char)
  | [] => some []
  | [u] => if IsHigh u ∨ IsLow u then none else some [Char.ofNat u]
  | u :: v :: rest =>
    if IsHigh u then
      if IsLow v then (chars? rest).map (pair u v :: ·) else none
    else if IsLow u then none
    else (chars? (v :: rest)).map (Char.ofNat u :: ·)

def unitsOfBytes? : Bytes → Option (List Nat)
  | [] => some []
  | [_] => none
  | a :: b :: rest => (unitsOfBytes? rest).map (Bytes.ofLittleEndian [a, b] :: ·)

def decode (bs : Bytes) : Except Corruption String :=
  match unitsOfBytes? bs with
  | none => .error .oddText
  | some us =>
    match chars? us with
    | none => .error .invalidText
    | some cs => .ok (String.ofList cs)

end ObjectGraph.Utf16
