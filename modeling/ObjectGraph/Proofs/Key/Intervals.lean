import ObjectGraph.Proofs.Key

namespace ObjectGraph

namespace Id

variable {a b : Id}

theorem toNat_injective (h : a.toNat = b.toNat) : a = b :=
  Std.LawfulEqOrd.eq_of_compare (Std.OrientedCmp.isLE_antisymm
    (isLE_compare_iff.mpr (Nat.le_of_eq h)) (isLE_compare_iff.mpr (Nat.le_of_eq h.symm)))

theorem toNat_of_next? (h : a.next? = some b) : b.toNat = a.toNat + 1 := by
  rw [next?] at h
  split at h
  next hroom =>
    cases h
    exact toNat_ofNat hroom
  · contradiction

theorem le_of_next?_eq_none (h : a.next? = none) (b : Id) : b.toNat ≤ a.toNat := by
  rw [next?] at h
  split at h
  · cases h
  next hlast =>
    have hlt := Bytes.ofBigEndian_lt b.bytes
    rw [b.length_bytes] at hlt
    exact Nat.le_of_not_lt fun hab => hlast (Nat.lt_of_le_of_lt hab hlt)

theorem next?_eq_none_iff : a.next? = none ↔ ∀ b : Id, (compare b a).isLE := by
  simp only [isLE_compare_iff]
  constructor
  · exact le_of_next?_eq_none
  · intro hgreatest
    cases hnext : a.next? with
    | none => rfl
    | some b =>
      have hle := hgreatest b
      rw [toNat_of_next? hnext] at hle
      exact absurd hle (Nat.not_succ_le_self _)

theorem compare_append_lt_iff {rest : Bytes} :
    compare (a.bytes ++ rest) b.bytes = .lt ↔ a.toNat < b.toNat := by
  rw [← List.append_nil b.bytes, compare_append, Ordering.then_eq_lt, compare_bytes_eq_lt, or_iff_left]
  rintro ⟨-, hnil⟩
  cases rest <;> contradiction

theorem isLE_compare_append_iff {rest : Bytes} :
    (compare a.bytes (b.bytes ++ rest)).isLE ↔ a.toNat ≤ b.toNat := by
  have hlt : compare (b.bytes ++ rest) a.bytes = .lt ↔ b.toNat < a.toNat := compare_append_lt_iff
  rw [← Nat.not_lt, ← hlt, ← Std.OrientedCmp.gt_iff_lt, Ordering.isLE_iff_ne_gt]

theorem exists_eq_append {s : Bytes} (h : 16 ≤ s.length) : ∃ (b : Id) (rest : Bytes), s = b.bytes ++ rest :=
  ⟨⟨s.take 16, List.length_take_of_le h⟩, s.drop 16, (List.take_append_drop 16 s).symm⟩

end Id

namespace Key

open KeyOrder (lexicographic)

variable {a b : Id} {k : Bytes}

theorem owner?_eq_some_iff : owner? k = some a ↔ a.bytes <+: k := by
  constructor
  · intro howner
    have ha : a.bytes = k.take 16 := Id.bytes_of_ofBytes? howner
    rw [ha]
    exact List.take_prefix 16 k
  · rintro ⟨rest, rfl⟩
    exact Id.readAt?_append [] a rest rfl

theorem owner?_bytes (k : Key) : owner? k.bytes = some k.owner := by
  obtain ⟨rest, hrest⟩ := k.bytes_eq_owner_append
  exact owner?_eq_some_iff.mpr ⟨rest, hrest.symm⟩

theorem owner_lt_of_lt {k : Key} (h : compare k.bytes a.bytes = .lt) : k.owner.toNat < a.toNat := by
  obtain ⟨rest, hrest⟩ := k.bytes_eq_owner_append
  rw [hrest] at h
  exact Id.compare_append_lt_iff.mp h

theorem le_length_of_owner? (h : owner? k = some a) : 16 ≤ k.length := by
  have hle := (owner?_eq_some_iff.mp h).length_le
  rwa [a.length_bytes] at hle

def Interval (a : Id) (k : Bytes) : Prop :=
  lexicographic.AtLeast (some (object a).bytes) k ∧ lexicographic.Below (afterOwner? a) k

theorem below_afterOwner_iff {rest : Bytes} :
    lexicographic.Below (afterOwner? a) (b.bytes ++ rest) ↔ b.toNat ≤ a.toNat := by
  cases hnext : a.next? with
  | none =>
    rw [afterOwner?, hnext]
    exact iff_of_true (fun _ h => nomatch h) (Id.le_of_next?_eq_none hnext b)
  | some c =>
    have hc : c.toNat = a.toNat + 1 := Id.toNat_of_next? hnext
    rw [afterOwner?, hnext, Option.map_some, KeyOrder.below_some, ← Nat.lt_add_one_iff, ← hc]
    exact Id.compare_append_lt_iff

theorem interval_append_iff {rest : Bytes} : Interval a (b.bytes ++ rest) ↔ b = a := by
  rw [Interval, KeyOrder.atLeast_some, below_afterOwner_iff]
  constructor
  · rintro ⟨hle, hba⟩
    have hab : a.toNat ≤ b.toNat := Id.isLE_compare_append_iff.mp hle
    exact Id.toNat_injective (Nat.le_antisymm hba hab)
  · rintro rfl
    exact ⟨Id.isLE_compare_append_iff.mpr (Nat.le_refl _), Nat.le_refl _⟩

theorem owner?_eq_some_iff_interval (h : 16 ≤ k.length) : owner? k = some a ↔ Interval a k := by
  obtain ⟨b, rest, rfl⟩ := Id.exists_eq_append h
  rw [interval_append_iff, owner?_eq_some_iff.mpr (List.prefix_append _ _), Option.some.injEq]

/-- Of the byte strings that are long enough to have an owner, an interval holds those of its own. It lacks
an end only for the greatest identifier. What extends the key of a field is in it, with nothing in between. -/
theorem owner_interval (a : Id) :
    (∀ k : Bytes, owner? k = some a ↔ 16 ≤ k.length ∧ Interval a k) ∧
    (afterOwner? a = none ↔ ∀ b : Id, (compare b a).isLE) ∧
    ∀ f : Id, lexicographic.Contiguous ((field a f).bytes <+: ·) ∧
      ∀ k : Bytes, (field a f).bytes <+: k → Interval a k := by
  refine ⟨fun k => ?_, ?_, fun f => ⟨KeyOrder.contiguous_prefix _, fun k hk => ?_⟩⟩
  · constructor
    · intro howner
      have hlength := le_length_of_owner? howner
      exact ⟨hlength, (owner?_eq_some_iff_interval hlength).mp howner⟩
    · rintro ⟨hlength, hin⟩
      exact (owner?_eq_some_iff_interval hlength).mpr hin
  · rw [afterOwner?, Option.map_eq_none_iff]
    exact Id.next?_eq_none_iff
  · have howner : owner? k = some a := owner?_eq_some_iff.mpr ((List.prefix_append _ _).trans hk)
    exact (owner?_eq_some_iff_interval (le_length_of_owner? howner)).mp howner

theorem owner_interval_carries :
    let a := Id.ofNat 0x1ffff
    let f := Id.ofNat 0x1001
    let edge := (association ⟨a, f, Id.ofNat 1, f⟩).bytes
    let k := (field a f).bytes ++ [7]
    let next := (Id.ofNat 0x20000).bytes
    afterOwner? a = some next ∧ Interval a k ∧ owner? k = some a ∧ ¬ Interval a next ∧
      (lexicographic (field a f).bytes edge).isLE ∧ (lexicographic edge k).isLE ∧
      (field a f).bytes <+: edge := by
  intro a f edge k next
  obtain ⟨howns, -, hfield⟩ := owner_interval a
  obtain ⟨hcontiguous, hwithin⟩ := hfield f
  have hprefix : (field a f).bytes <+: k := List.prefix_append _ _
  have hin : Interval a k := hwithin k hprefix
  have hbefore : (lexicographic (field a f).bytes edge).isLE := by decide +kernel
  have hafter : (lexicographic edge k).isLE := by decide +kernel
  refine ⟨by decide +kernel, hin, (howns k).mpr ⟨by decide, hin⟩, fun hnext => ?_, hbefore, hafter,
    hcontiguous _ edge _ List.prefix_rfl hprefix hbefore hafter⟩
  have howner : owner? next = some a := (howns next).mpr ⟨by decide, hnext⟩
  exact absurd howner (by decide +kernel)

end Key

end ObjectGraph
