import ObjectGraph.Bytes

namespace ObjectGraph.Bytes

theorem ofLittleEndian_lt (bs : Bytes) : ofLittleEndian bs < Nat.pow 256 bs.length := by
  induction bs with
  | nil => decide
  | cons b bs ih =>
    have hb := b.toNat_lt
    have hpow : Nat.pow 256 (b :: bs).length = Nat.pow 256 bs.length * 256 := rfl
    rw [ofLittleEndian, hpow]
    omega

theorem ofLittleEndian_injective {a b : Bytes} (hlength : a.length = b.length)
    (h : ofLittleEndian a = ofLittleEndian b) : a = b := by
  induction a generalizing b with
  | nil => exact (List.length_eq_zero_iff.mp hlength.symm).symm
  | cons x a ih =>
    cases b with
    | nil => contradiction
    | cons y b =>
      have hx := x.toNat_lt
      have hy := y.toNat_lt
      rw [ofLittleEndian, ofLittleEndian] at h
      have hxy : x = y := UInt8.toNat_inj.mp (by omega)
      have hab : a = b := ih (Nat.succ.inj hlength) (by omega)
      rw [hxy, hab]

theorem ofLittleEndian_littleEndian {width n : Nat} (h : n < Nat.pow 256 width) :
    ofLittleEndian (littleEndian width n) = n := by
  induction width generalizing n with
  | zero =>
    have hn : n < 1 := h
    rw [littleEndian, ofLittleEndian]
    omega
  | succ width ih =>
    have hpow : Nat.pow 256 (width + 1) = Nat.pow 256 width * 256 := rfl
    have hdiv : n / 256 < Nat.pow 256 width := by omega
    rw [littleEndian, ofLittleEndian, ih hdiv, UInt8.toNat_ofNat']
    omega

theorem littleEndian_ofLittleEndian (bs : Bytes) : littleEndian bs.length (ofLittleEndian bs) = bs :=
  ofLittleEndian_injective (length_littleEndian _ _) (ofLittleEndian_littleEndian (ofLittleEndian_lt bs))

theorem ofLittleEndian_append (a b : Bytes) :
    ofLittleEndian (a ++ b) = ofLittleEndian a + Nat.pow 256 a.length * ofLittleEndian b := by
  induction a with
  | nil => simp [ofLittleEndian]
  | cons x a ih =>
    have hpow : Nat.pow 256 (x :: a).length = 256 * Nat.pow 256 a.length := Nat.mul_comm _ _
    rw [List.cons_append, ofLittleEndian, ofLittleEndian, ih, hpow, Nat.mul_add, Nat.mul_assoc,
      Nat.add_assoc]

theorem ofBigEndian_cons (b : UInt8) (bs : Bytes) :
    ofBigEndian (b :: bs) = ofBigEndian bs + Nat.pow 256 bs.length * b.toNat := by
  rw [ofBigEndian, ofBigEndian, List.reverse_cons, ofLittleEndian_append, List.length_reverse]
  rfl

theorem ofBigEndian_lt (bs : Bytes) : ofBigEndian bs < Nat.pow 256 bs.length := by
  rw [ofBigEndian, ← List.length_reverse]
  exact ofLittleEndian_lt bs.reverse

theorem compare_ofBigEndian {a b : Bytes} (h : a.length = b.length) :
    compare (ofBigEndian a) (ofBigEndian b) = compare a b := by
  induction a generalizing b with
  | nil =>
    rw [List.length_eq_zero_iff.mp h.symm]
    rfl
  | cons x a ih =>
    cases b with
    | nil => contradiction
    | cons y b =>
      have hlength : a.length = b.length := Nat.succ.inj h
      have ha := ofBigEndian_lt a
      have hb := ofBigEndian_lt b
      rw [List.compare_cons_cons, ofBigEndian_cons, ofBigEndian_cons]
      rw [hlength] at ha ⊢
      rcases Nat.lt_trichotomy x.toNat y.toNat with hxy | hxy | hxy
      · have hgap := Nat.mul_le_mul_left (Nat.pow 256 b.length) hxy
        rw [Nat.mul_succ] at hgap
        have hcompare : compare x y = .lt := Std.compare_eq_lt.mpr (UInt8.lt_iff_toNat_lt.mpr hxy)
        rw [hcompare, Nat.compare_eq_lt.mpr (by omega)]
        rfl
      · rw [UInt8.toNat_inj.mp hxy, Std.ReflOrd.compare_self, ← ih hlength]
        simp only [compare, compareOfLessAndEq, Nat.add_lt_add_iff_right, Nat.add_right_cancel_iff]
        rfl
      · have hgap := Nat.mul_le_mul_left (Nat.pow 256 b.length) hxy
        rw [Nat.mul_succ] at hgap
        have hcompare : compare x y = .gt := Std.compare_eq_gt.mpr (UInt8.lt_iff_toNat_lt.mpr hxy)
        rw [hcompare, Nat.compare_eq_gt.mpr (by omega)]
        rfl

end ObjectGraph.Bytes
