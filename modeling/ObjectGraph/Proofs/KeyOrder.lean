import ObjectGraph.KeyOrder

namespace ObjectGraph.KeyOrder

instance : Std.TransCmp lexicographic := inferInstanceAs (Std.TransOrd Bytes)

instance : Std.LawfulEqCmp lexicographic := inferInstanceAs (Std.LawfulEqOrd Bytes)

instance : Std.TransCmp ignoringLast := inferInstanceAs (Std.TransCmp (compareOn List.dropLast))

theorem lexicographic_eq_iff {a b : Bytes} : lexicographic a b = .eq ↔ a = b := by
  constructor
  · exact Std.LawfulEqCmp.eq_of_compare
  · rintro rfl
    exact Std.ReflCmp.compare_self

theorem then_congr {o p q : Ordering} (h : o = .eq → p = q) : o.then p = o.then q := by
  cases o with
  | lt => rfl
  | eq => rw [h rfl]
  | gt => rfl

theorem compare_append {a b : Bytes} (h : a.length = b.length) (s t : Bytes) :
    compare (a ++ s) (b ++ t) = (compare a b).then (compare s t) := by
  induction a generalizing b with
  | nil =>
    rw [List.length_eq_zero_iff.mp h.symm]
    rfl
  | cons x a ih =>
    cases b with
    | nil => contradiction
    | cons y b =>
      rw [List.cons_append, List.cons_append, List.compare_cons_cons, List.compare_cons_cons,
        ih (Nat.succ.inj h), Ordering.then_assoc]

theorem compare_append_left (s a b : Bytes) : compare (s ++ a) (s ++ b) = compare a b := by
  rw [compare_append rfl, Std.ReflOrd.compare_self]
  rfl

theorem compare_self_append (s t : Bytes) : compare s (s ++ t) = compare [] t := by
  have hempty : compare (s ++ []) (s ++ t) = compare [] t := compare_append_left s [] t
  rwa [List.append_nil] at hempty

theorem isLE_of_prefix {s a : Bytes} (h : s <+: a) : (compare s a).isLE := by
  obtain ⟨rest, rfl⟩ := h
  rw [compare_self_append]
  cases rest <;> rfl

theorem prefix_of_between {s a b : Bytes} (hsa : (compare s a).isLE) (hab : (compare a b).isLE)
    (hsb : s <+: b) : s <+: a := by
  induction s generalizing a b with
  | nil => exact List.nil_prefix
  | cons c s ih =>
    obtain ⟨rest, rfl⟩ := hsb
    cases a with
    | nil => contradiction
    | cons x a =>
      rw [List.compare_cons_cons] at hsa
      rw [List.cons_append, List.compare_cons_cons] at hab
      have hcx : (compare c x).isLE := Ordering.isLE_left_of_isLE_then hsa
      have hxc : (compare x c).isLE := Ordering.isLE_left_of_isLE_then hab
      obtain rfl := Std.LawfulEqOrd.eq_of_compare (Std.OrientedCmp.isLE_antisymm hcx hxc)
      rw [Std.ReflOrd.compare_self] at hsa hab
      exact List.cons_prefix_cons.mpr ⟨rfl, ih hsa hab (List.prefix_append _ _)⟩

theorem zeros_isLE {n : Nat} {a : Bytes} (h : n ≤ a.length) :
    (compare (List.replicate n (0 : UInt8)) a).isLE := by
  induction n generalizing a with
  | zero => cases a <;> rfl
  | succ n ih =>
    cases a with
    | nil => contradiction
    | cons b a =>
      rw [List.replicate_succ, List.compare_cons_cons, Ordering.isLE_then_iff_or]
      by_cases hb : b = 0
      · exact .inr ⟨by rw [hb]; rfl, ih (Nat.le_of_succ_le_succ h)⟩
      · have hlt : (0 : UInt8) < b := UInt8.pos_iff_ne_zero.mpr hb
        exact .inl (by simp [compare, compareOfLessAndEq, hlt])

def Contiguous (order : KeyOrder) (p : Bytes → Prop) : Prop :=
  ∀ a b c, p a → p c → (order a b).isLE → (order b c).isLE → p b

theorem contiguous_prefix (s : Bytes) : lexicographic.Contiguous (s <+: ·) := by
  intro a b c hsa hsc hab hbc
  have hle : (compare s a).isLE := isLE_of_prefix hsa
  have hsb : (compare s b).isLE := Std.TransCmp.isLE_trans hle hab
  exact prefix_of_between hsb hbc hsc

section Bounds

open Std (TransCmp)

def AtLeast (order : KeyOrder) (lo : Option Bytes) (k : Bytes) : Prop := ∀ l ∈ lo, (order l k).isLE

def Above (order : KeyOrder) (lo : Option Bytes) (k : Bytes) : Prop := ∀ l ∈ lo, order l k = .lt

def Below (order : KeyOrder) (hi : Option Bytes) (k : Bytes) : Prop := ∀ h ∈ hi, order k h = .lt

variable {order : KeyOrder} {lo hi : Option Bytes} {j k : Bytes}

theorem atLeast_some : order.AtLeast (some j) k ↔ (order j k).isLE := by simp [AtLeast]

theorem above_some : order.Above (some j) k ↔ order j k = .lt := by simp [Above]

theorem below_some : order.Below (some j) k ↔ order k j = .lt := by simp [Below]

variable [TransCmp order]

theorem Above.trans (h : order.Above lo j) (hjk : order j k = .lt) : order.Above lo k :=
  fun l hl => TransCmp.lt_trans (h l hl) hjk

theorem Above.atLeast (h : order.Above lo j) (hjk : (order j k).isLE) : order.AtLeast lo k :=
  fun l hl => Ordering.isLE_of_eq_lt (TransCmp.lt_of_lt_of_isLE (h l hl) hjk)

theorem AtLeast.above (h : order.AtLeast lo j) (hjk : order j k = .lt) : order.Above lo k :=
  fun l hl => TransCmp.lt_of_isLE_of_lt (h l hl) hjk

theorem Below.trans (h : order.Below hi k) (hjk : order j k = .lt) : order.Below hi j :=
  fun b hb => TransCmp.lt_trans hjk (h b hb)

end Bounds

end ObjectGraph.KeyOrder
