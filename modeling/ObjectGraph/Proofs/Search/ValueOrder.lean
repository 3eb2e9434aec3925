import Mathlib.Algebra.Order.Ring.Nat
import ObjectGraph.Proofs.Search.Derived
import ObjectGraph.Proofs.Value
import ObjectGraph.Text.Utf8

namespace ObjectGraph

namespace Decimal

def MagnitudeLe (x y : Decimal) : Prop :=
  x.exponentField < y.exponentField ∨
    x.exponentField = y.exponentField ∧ x.fractionField ≤ y.fractionField

instance (x y : Decimal) : Decidable (x.MagnitudeLe y) := inferInstanceAs (Decidable (_ ∨ _))

def TotalLe (x y : Decimal) : Prop :=
  if x.IsNegative then ¬ y.IsNegative ∨ y.MagnitudeLe x else ¬ y.IsNegative ∧ x.MagnitudeLe y

instance (x y : Decimal) : Decidable (x.TotalLe y) := by
  unfold TotalLe
  split <;> infer_instance

variable {x y : Decimal}

theorem magnitude_eq (x : Decimal) :
    x.bits.toNat % 2 ^ 63 = x.exponentField * 2 ^ 52 + x.fractionField := by
  rw [exponentField, fractionField, hiddenBit, Nat.shiftRight_eq_div_pow, Nat.one_shiftLeft]
  omega

theorem magnitudeLe_iff : x.MagnitudeLe y ↔ x.bits.toNat % 2 ^ 63 ≤ y.bits.toNat % 2 ^ 63 := by
  have hx : x.fractionField < 2 ^ 52 := Nat.mod_lt _ (by decide)
  have hy : y.fractionField < 2 ^ 52 := Nat.mod_lt _ (by decide)
  rw [magnitude_eq, magnitude_eq, MagnitudeLe]
  omega

theorem rank_le_iff : x.rank ≤ y.rank ↔ x.TotalLe y := by
  have hx := x.bits.toNat_lt
  have hy := y.bits.toNat_lt
  rw [TotalLe, magnitudeLe_iff, magnitudeLe_iff]
  simp only [rank, IsNegative, signBit, Nat.one_shiftLeft]
  split <;> split <;> split <;> omega

end Decimal

namespace Value

def Le : Value → Value → Prop
  | integer m, integer n => m.toInt ≤ n.toInt
  | decimal x, decimal y => x.TotalLe y
  | string s, string t => (compare (Utf8.encode s) (Utf8.encode t)).isLE
  | datetime m, datetime n => m.toInt ≤ n.toInt
  | boolean b, boolean c => b ≤ c
  | id i, id j => i.toNat ≤ j.toNat
  | enum m, enum n => m.toNat ≤ n.toNat
  | _, _ => False

instance (v w : Value) : Decidable (v.Le w) := by
  unfold Le
  split <;> infer_instance

end Value

namespace IndexRank

open Value (Le)

variable {raw : Bytes} {v w : Value}

theorem scalar_encode (v : Value) :
    scalar v.encode = (v.type.tag.toNat : Int) :: payload (some v.type) v.payload := by
  rw [Value.encode, scalar, Value.ofTag?_tag]

theorem isLE_nil_scalar (bs : Bytes) : (compare (scalar []) (scalar bs)).isLE := by
  cases bs <;> rfl

theorem isLE_singleton {x y : Int} : (compare [x] [y]).isLE ↔ x ≤ y := by
  rw [compare_singleton, Std.isLE_compare]

theorem signed_littleEndian (n : Int64) : signed (Bytes.littleEndian 8 n.toUInt64.toNat) = n.toInt :=
  congrArg Int64.toInt (Value.signed_littleEndian n)

theorem decimal_littleEndian (x : Decimal) : decimal (Bytes.littleEndian 8 x.bits.toNat) = x.rank := by
  have hlt : x.bits.toNat < Nat.pow 256 8 := x.bits.toNat_lt
  rw [decimal, Bytes.ofLittleEndian_littleEndian hlt, UInt64.ofNat_toNat]

theorem ofLittleEndian_enum (n : UInt32) :
    Bytes.ofLittleEndian (Bytes.littleEndian 4 n.toNat) = n.toNat :=
  Bytes.ofLittleEndian_littleEndian n.toNat_lt

theorem isLE_encode_iff (htype : v.type = w.type) (hstring : v.type ≠ .string) :
    (compare (scalar v.encode) (scalar w.encode)).isLE ↔ v.Le w := by
  rw [scalar_encode, scalar_encode, htype, List.compare_cons_cons, Std.ReflOrd.compare_self,
    Ordering.eq_then]
  cases v with
  | string s => contradiction
  | integer m =>
    cases w with
    | integer n =>
      simp only [Value.type, Value.payload, payload, signed_littleEndian, isLE_singleton, Le]
    | _ => contradiction
  | datetime m =>
    cases w with
    | datetime n =>
      simp only [Value.type, Value.payload, payload, signed_littleEndian, isLE_singleton, Le]
    | _ => contradiction
  | decimal x =>
    cases w with
    | decimal y =>
      simp only [Value.type, Value.payload, payload, decimal_littleEndian, isLE_singleton, Le,
        Int.ofNat_le, Decimal.rank_le_iff]
    | _ => contradiction
  | boolean b =>
    cases w with
    | boolean c => cases b <;> cases c <;> decide
    | _ => contradiction
  | id i =>
    cases w with
    | id j =>
      simp only [Value.type, Value.payload, payload, compare_ofBytes, Le, Id.compare_bytes, Std.isLE_compare]
    | _ => contradiction
  | enum m =>
    cases w with
    | enum n =>
      simp only [Value.type, Value.payload, payload, ofLittleEndian_enum, isLE_singleton, Le,
        Int.ofNat_le]
    | _ => contradiction

theorem isLE_boolean {j k : UInt8} :
    (compare (scalar [DataType.boolean.tag, j]) (scalar [DataType.boolean.tag, k])).isLE ↔ j ≤ k := by
  have hscalar (k : UInt8) : scalar [DataType.boolean.tag, k] = [5, (k.toNat : Int)] := rfl
  rw [hscalar, hscalar, List.compare_cons_cons, Std.ReflOrd.compare_self, Ordering.eq_then,
    isLE_singleton, Int.ofNat_le, UInt8.le_iff_toNat_le]

theorem isLE_of_encode_iff (h : Value.decode raw = .ok (some v)) (htype : w.type = v.type)
    (hstring : v.type ≠ .string) : (compare (scalar w.encode) (scalar raw)).isLE ↔ w.Le v := by
  by_cases hboolean : v.type = .boolean
  · cases v with
    | boolean b =>
      cases w with
      | boolean c =>
        obtain ⟨k, rfl, rfl⟩ := Value.exists_of_decode_boolean h
        rw [Value.encode, Value.type, Value.payload, isLE_boolean, Le]
        by_cases hk : k = 0
        · subst hk
          cases c <;> decide
        · have hpos : 0 < k.toNat := Nat.pos_of_ne_zero fun hzero => hk (UInt8.toNat_inj.mp hzero)
          have hfalse : Bool.toUInt8 false = 0 := rfl
          have htrue : Bool.toUInt8 true = 1 := rfl
          cases c
          · simp [hfalse, hk]
          · simp [htrue, hk, UInt8.le_iff_toNat_le]
            omega
      | _ => contradiction
    | _ => contradiction
  · rw [Value.encode_of_decode h hstring hboolean]
    exact isLE_encode_iff htype (htype ▸ hstring)

theorem isLE_to_encode_iff (h : Value.decode raw = .ok (some v)) (htype : v.type = w.type)
    (hstring : v.type ≠ .string) : (compare (scalar raw) (scalar w.encode)).isLE ↔
      v.Le w ∧ (w = .boolean true → raw = v.encode) := by
  by_cases hboolean : v.type = .boolean
  · cases v with
    | boolean b =>
      cases w with
      | boolean c =>
        obtain ⟨k, rfl, rfl⟩ := Value.exists_of_decode_boolean h
        rw [Value.encode, Value.type, Value.payload, isLE_boolean, Le]
        by_cases hk : k = 0
        · subst hk
          cases c <;> decide
        · have hpos : 0 < k.toNat := Nat.pos_of_ne_zero fun hzero => hk (UInt8.toNat_inj.mp hzero)
          have hfalse : Bool.toUInt8 false = 0 := rfl
          have htrue : Bool.toUInt8 true = 1 := rfl
          cases c
          · have hnot : ¬ true ≤ false := by decide
            simp [hfalse, hk, hnot]
          · simp [htrue, hk, Value.encode, Value.type, Value.payload, UInt8.le_iff_toNat_le,
              ← UInt8.toNat_inj]
            omega
      | _ => contradiction
    | _ => contradiction
  · have hraw := Value.encode_of_decode h hstring hboolean
    rw [hraw, isLE_encode_iff htype hstring]
    exact (and_iff_left fun _ => rfl).symm

end IndexRank

end ObjectGraph
