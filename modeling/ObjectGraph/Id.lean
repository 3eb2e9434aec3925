import ObjectGraph.Bytes

namespace ObjectGraph

structure Id where
  bytes : Bytes
  length_bytes : bytes.length = 16
deriving DecidableEq

namespace Id

instance : Ord Id := ⟨fun a b => compare a.bytes b.bytes⟩

def toNat (a : Id) : Nat := Bytes.ofBigEndian a.bytes

def ofNat (n : Nat) : Id := ⟨Bytes.bigEndian 16 n, Bytes.length_bigEndian 16 n⟩

def nil : Id := ofNat 0

instance : Inhabited Id := ⟨nil⟩

def ofBytes? (bs : Bytes) : Option Id :=
  if h : bs.length = 16 then some ⟨bs, h⟩ else none

def readAt? (bs : Bytes) (offset : Nat) : Option Id :=
  ofBytes? ((bs.drop offset).take 16)

def next? (a : Id) : Option Id :=
  if a.toNat + 1 < 1 <<< 128 then some (ofNat (a.toNat + 1)) else none

def text (a : Id) : String :=
  let group (start length : Nat) : List Char := ((a.bytes.drop start).take length).flatMap hexByte
  String.ofList <| ['-'].intercalate [group 0 4, group 4 2, group 6 2, group 8 2, group 10 6]

instance : ToString Id := ⟨text⟩

def version (a : Id) : Nat := (a.bytes.getD 6 0).toNat / 16

def HasStandardVariant (a : Id) : Prop := (a.bytes.getD 8 0).toNat / 64 = 2

instance (a : Id) : Decidable a.HasStandardVariant :=
  inferInstanceAs (Decidable ((a.bytes.getD 8 0).toNat / 64 = 2))

def ofRandom (a : Id) : Id where
  bytes := (a.bytes.modify 6 (· % 16 + 64)).modify 8 (· % 64 + 128)
  length_bytes := by simp [a.length_bytes]

end Id

end ObjectGraph
