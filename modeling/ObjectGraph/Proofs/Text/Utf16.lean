import ObjectGraph.Proofs.Bytes
import ObjectGraph.Text.Utf16

namespace ObjectGraph.Utf16

theorem unitsOfBytes?_flatMap {us : List Nat} (h : ∀ u ∈ us, u < 0x10000) :
    unitsOfBytes? (us.flatMap (Bytes.littleEndian 2)) = some us := by
  induction us with
  | nil => rfl
  | cons u us ih =>
    obtain ⟨hu, hus⟩ := List.forall_mem_cons.mp h
    have hunit : Bytes.ofLittleEndian (Bytes.littleEndian 2 u) = u :=
      Bytes.ofLittleEndian_littleEndian hu
    have hread : unitsOfBytes? (Bytes.littleEndian 2 u ++ us.flatMap (Bytes.littleEndian 2)) =
      (unitsOfBytes? (us.flatMap (Bytes.littleEndian 2))).map
        (Bytes.ofLittleEndian (Bytes.littleEndian 2 u) :: ·) := rfl
    rw [List.flatMap_cons, hread, ih hus, hunit]
    rfl

theorem chars?_cons {u : Nat} (hhigh : ¬ IsHigh u) (hlow : ¬ IsLow u) (us : List Nat) :
    chars? (u :: us) = (chars? us).map (Char.ofNat u :: ·) := by
  cases us with
  | nil => simp [chars?, hhigh, hlow]
  | cons v us => simp only [chars?, if_neg hhigh, if_neg hlow]

theorem chars?_pair {u v : Nat} (hhigh : IsHigh u) (hlow : IsLow v) (us : List Nat) :
    chars? (u :: v :: us) = (chars? us).map (pair u v :: ·) := by
  simp only [chars?, if_pos hhigh, if_pos hlow]

theorem chars?_unitsOfChar (c : Char) (us : List Nat) :
    chars? (unitsOfChar c ++ us) = (chars? us).map (c :: ·) := by
  have hvalid : c.toNat < 0xD800 ∨ 0xDFFF < c.toNat ∧ c.toNat < 0x110000 := c.valid
  rw [unitsOfChar]
  split
  next hsmall =>
    have hhigh : ¬ IsHigh c.toNat := by
      rw [IsHigh]
      omega
    have hlow : ¬ IsLow c.toNat := by
      rw [IsLow]
      omega
    rw [List.singleton_append, chars?_cons hhigh hlow, Char.ofNat_toNat]
  next hlarge =>
    have hhigh : IsHigh (0xD800 + (c.toNat - 0x10000) / 0x400) := by
      rw [IsHigh]
      omega
    have hlow : IsLow (0xDC00 + (c.toNat - 0x10000) % 0x400) := by
      rw [IsLow]
      omega
    have hpair : pair (0xD800 + (c.toNat - 0x10000) / 0x400)
        (0xDC00 + (c.toNat - 0x10000) % 0x400) = c := by
      have hcode : 0x10000 + (0xD800 + (c.toNat - 0x10000) / 0x400 - 0xD800) * 0x400 +
        (0xDC00 + (c.toNat - 0x10000) % 0x400 - 0xDC00) = c.toNat := by omega
      rw [pair, hcode, Char.ofNat_toNat]
    rw [List.cons_append, List.singleton_append, chars?_pair hhigh hlow, hpair]

theorem unitsOfChar_lt (c : Char) : ∀ u ∈ unitsOfChar c, u < 0x10000 := by
  have hvalid : c.toNat < 0xD800 ∨ 0xDFFF < c.toNat ∧ c.toNat < 0x110000 := c.valid
  rw [unitsOfChar]
  split
  next hsmall =>
    intro u hu
    rwa [List.mem_singleton.mp hu]
  next hlarge =>
    simp only [List.forall_mem_cons, List.not_mem_nil, false_implies, implies_true, and_true]
    omega

theorem chars?_units (cs : List Char) : chars? (cs.flatMap unitsOfChar) = some cs := by
  induction cs with
  | nil => rfl
  | cons c cs ih =>
    rw [List.flatMap_cons, chars?_unitsOfChar, ih]
    rfl

theorem decode_encode (s : String) : decode (encode s) = .ok s := by
  have hunits : ∀ u ∈ units s, u < 0x10000 := by
    intro u hu
    obtain ⟨c, -, hu⟩ := List.mem_flatMap.mp hu
    exact unitsOfChar_lt c u hu
  have hchars : chars? (units s) = some s.toList := chars?_units s.toList
  rw [decode, encode, unitsOfBytes?_flatMap hunits]
  simp only [hchars, String.ofList_toList]

def Lone (us : List Nat) (i : Nat) : Prop :=
  ∃ u, us[i]? = some u ∧
    (IsHigh u ∧ (∀ v, us[i + 1]? = some v → ¬ IsLow v) ∨
      IsLow u ∧ ∀ j v, j + 1 = i → us[j]? = some v → ¬ IsHigh v)

theorem IsHigh.not_isLow {u : Nat} (h : IsHigh u) : ¬ IsLow u := by
  rw [IsHigh] at h
  rw [IsLow]
  omega

theorem lone_cons_succ_succ {u i : Nat} {us : List Nat} : Lone (u :: us) (i + 2) ↔ Lone us (i + 1) := by
  have hbefore (P : Nat → Prop) : (∀ j v, j + 1 = i + 2 → (u :: us)[j]? = some v → P v) ↔
      ∀ j v, j + 1 = i + 1 → us[j]? = some v → P v := by
    constructor
    · intro h j v hj hv
      exact h (j + 1) v (by omega) hv
    · intro h j v hj hv
      obtain ⟨j, rfl⟩ : ∃ j', j = j' + 1 := ⟨i, by omega⟩
      exact h j v (by omega) hv
  simp only [Lone, List.getElem?_cons_succ, hbefore]

theorem lone_cons_succ {u i : Nat} {us : List Nat} (hu : ¬ IsHigh u) :
    Lone (u :: us) (i + 1) ↔ Lone us i := by
  cases i with
  | succ i => exact lone_cons_succ_succ
  | zero =>
    have hbefore : ∀ j v, j + 1 = 0 + 1 → (u :: us)[j]? = some v → ¬ IsHigh v := by
      intro j v hj hv
      cases hj
      cases hv
      exact hu
    simp only [Lone, List.getElem?_cons_succ, iff_true_intro hbefore, and_true]
    simp

theorem exists_lone_cons {u : Nat} {us : List Nat} (hu : ¬ IsHigh u) (hzero : ¬ Lone (u :: us) 0) :
    (∃ i, Lone (u :: us) i) ↔ ∃ i, Lone us i := by
  constructor
  · rintro ⟨i, hi⟩
    cases i with
    | zero => exact absurd hi hzero
    | succ i => exact ⟨i, (lone_cons_succ hu).mp hi⟩
  · rintro ⟨i, hi⟩
    exact ⟨i + 1, (lone_cons_succ hu).mpr hi⟩

theorem exists_lone_plain {u : Nat} {us : List Nat} (hhigh : ¬ IsHigh u) (hlow : ¬ IsLow u) :
    (∃ i, Lone (u :: us) i) ↔ ∃ i, Lone us i :=
  exists_lone_cons hhigh (by simp [Lone, hhigh, hlow])

theorem exists_lone_pair {u v : Nat} {us : List Nat} (hhigh : IsHigh u) (hlow : IsLow v) :
    (∃ i, Lone (u :: v :: us) i) ↔ ∃ i, Lone us i := by
  have hv : ¬ IsHigh v := fun h => h.not_isLow hlow
  have hzero : ¬ Lone (u :: v :: us) 0 := by simp [Lone, hhigh.not_isLow, hlow]
  have hone : ¬ Lone (u :: v :: us) 1 := by
    rintro ⟨w, hw, ⟨hwhigh, -⟩ | ⟨-, hbefore⟩⟩
    · cases hw
      exact hv hwhigh
    · exact hbefore 0 u rfl rfl hhigh
  constructor
  · rintro ⟨i, hi⟩
    match i with
    | 0 => exact absurd hi hzero
    | 1 => exact absurd hi hone
    | i + 2 => exact ⟨i, (lone_cons_succ hv).mp (lone_cons_succ_succ.mp hi)⟩
  · rintro ⟨i, hi⟩
    exact ⟨i + 2, lone_cons_succ_succ.mpr ((lone_cons_succ hv).mpr hi)⟩

theorem chars?_eq_none_iff {us : List Nat} : chars? us = none ↔ ∃ i, Lone us i := by
  fun_induction chars? us with
  | case1 => simp [Lone]
  | case2 u hsurrogate =>
    refine iff_of_true rfl ⟨0, u, rfl, ?_⟩
    exact hsurrogate.imp (fun h => ⟨h, nofun⟩) fun h => ⟨h, nofun⟩
  | case3 u hplain =>
    obtain ⟨hhigh, hlow⟩ := not_or.mp hplain
    rw [exists_lone_plain hhigh hlow]
    simp [Lone]
  | case4 u v rest hu hv ih => rw [Option.map_eq_none_iff, ih, exists_lone_pair hu hv]
  | case5 u v rest hu hv =>
    refine iff_of_true rfl ⟨0, u, rfl, .inl ⟨hu, ?_⟩⟩
    rintro _ ⟨⟩
    exact hv
  | case6 u v rest hu hlow => exact iff_of_true rfl ⟨0, u, rfl, .inr ⟨hlow, nofun⟩⟩
  | case7 u v rest hu hlow ih => rw [Option.map_eq_none_iff, ih, exists_lone_plain hu hlow]

theorem toNat_ofNat {n : Nat} (h : n.isValidChar) : (Char.ofNat n).toNat = n := by
  rw [Char.ofNat, dif_pos h]
  rfl

theorem unitsOfChar_ofNat {u : Nat} (hu : u < 0x10000) (hhigh : ¬ IsHigh u) (hlow : ¬ IsLow u) :
    unitsOfChar (Char.ofNat u) = [u] := by
  rw [IsHigh] at hhigh
  rw [IsLow] at hlow
  have hvalid : u.isValidChar := by
    rw [Nat.isValidChar]
    omega
  rw [unitsOfChar, toNat_ofNat hvalid, if_pos hu]

theorem unitsOfChar_pair {u v : Nat} (hu : IsHigh u) (hv : IsLow v) : unitsOfChar (pair u v) = [u, v] := by
  rw [IsHigh] at hu
  rw [IsLow] at hv
  have hvalid : (0x10000 + (u - 0xD800) * 0x400 + (v - 0xDC00)).isValidChar := by
    rw [Nat.isValidChar]
    omega
  rw [unitsOfChar, pair, toNat_ofNat hvalid, if_neg (by omega)]
  have hhigh : 0xD800 + (0x10000 + (u - 0xD800) * 0x400 + (v - 0xDC00) - 0x10000) / 0x400 = u := by omega
  have hlow : 0xDC00 + (0x10000 + (u - 0xD800) * 0x400 + (v - 0xDC00) - 0x10000) % 0x400 = v := by omega
  rw [hhigh, hlow]

theorem eq_of_chars? {us : List Nat} {cs : List Char} (hus : ∀ u ∈ us, u < 0x10000)
    (h : chars? us = some cs) : us = cs.flatMap unitsOfChar := by
  fun_induction chars? us generalizing cs with
  | case1 =>
    cases h
    rfl
  | case2 | case5 | case6 => contradiction
  | case3 u hplain =>
    obtain ⟨hhigh, hlow⟩ := not_or.mp hplain
    cases h
    rw [List.flatMap_singleton, unitsOfChar_ofNat (hus u List.mem_cons_self) hhigh hlow]
  | case4 u v rest hu hv ih =>
    obtain ⟨cs, hcs, rfl⟩ := Option.map_eq_some_iff.mp h
    have hrest := ih (fun w hw => hus w (List.mem_cons_of_mem _ (List.mem_cons_of_mem _ hw))) hcs
    rw [List.flatMap_cons, unitsOfChar_pair hu hv, ← hrest]
    rfl
  | case7 u v rest hu hlow ih =>
    obtain ⟨cs, hcs, rfl⟩ := Option.map_eq_some_iff.mp h
    have hrest := ih (fun w hw => hus w (List.mem_cons_of_mem _ hw)) hcs
    rw [List.flatMap_cons, unitsOfChar_ofNat (hus u List.mem_cons_self) hu hlow, ← hrest]
    rfl

theorem flatMap_of_unitsOfBytes? {bs : Bytes} {us : List Nat} (h : unitsOfBytes? bs = some us) :
    bs = us.flatMap (Bytes.littleEndian 2) ∧ ∀ u ∈ us, u < 0x10000 := by
  fun_induction unitsOfBytes? bs generalizing us with
  | case1 =>
    cases h
    exact ⟨rfl, nofun⟩
  | case2 => contradiction
  | case3 a b rest ih =>
    obtain ⟨us, hus, rfl⟩ := Option.map_eq_some_iff.mp h
    obtain ⟨hrest, hlt⟩ := ih hus
    have hunit : Bytes.littleEndian 2 (Bytes.ofLittleEndian [a, b]) = [a, b] :=
      Bytes.littleEndian_ofLittleEndian [a, b]
    have hunit' : Bytes.ofLittleEndian [a, b] < Nat.pow 256 2 := Bytes.ofLittleEndian_lt [a, b]
    refine ⟨?_, List.forall_mem_cons.mpr ⟨hunit', hlt⟩⟩
    rw [List.flatMap_cons, hunit, ← hrest]
    rfl

theorem unitsOfBytes?_eq_none_iff {bs : Bytes} : unitsOfBytes? bs = none ↔ bs.length % 2 = 1 := by
  fun_induction unitsOfBytes? bs with
  | case1 => simp
  | case2 => simp
  | case3 a b rest ih =>
    rw [Option.map_eq_none_iff, ih, List.length_cons, List.length_cons]
    omega

theorem decode_eq_ok_iff {bs : Bytes} {s : String} : decode bs = .ok s ↔ bs = encode s := by
  constructor
  · intro h
    rw [decode] at h
    split at h
    · contradiction
    next us hus =>
      split at h
      · contradiction
      next cs hcs =>
        cases h
        obtain ⟨rfl, hlt⟩ := flatMap_of_unitsOfBytes? hus
        rw [encode, units, String.toList_ofList, ← eq_of_chars? hlt hcs]
  · rintro rfl
    exact decode_encode s

inductive Refused : Bytes → Corruption → Prop where
  | odd {bs : Bytes} : bs.length % 2 = 1 → Refused bs .oddText
  | lone {us : List Nat} {i : Nat} : (∀ u ∈ us, u < 0x10000) → Lone us i →
      Refused (us.flatMap (Bytes.littleEndian 2)) .invalidText

theorem decode_eq_error_iff {bs : Bytes} {c : Corruption} : decode bs = .error c ↔ Refused bs c := by
  constructor
  · intro h
    rw [decode] at h
    split at h
    next hodd =>
      cases h
      exact .odd (unitsOfBytes?_eq_none_iff.mp hodd)
    next us hus =>
      split at h
      next hchars =>
        cases h
        obtain ⟨i, hi⟩ := chars?_eq_none_iff.mp hchars
        obtain ⟨rfl, hlt⟩ := flatMap_of_unitsOfBytes? hus
        exact .lone hlt hi
      · contradiction
  · intro h
    cases h with
    | odd hodd => rw [decode, unitsOfBytes?_eq_none_iff.mpr hodd]
    | lone hlt hi => simp only [decode, unitsOfBytes?_flatMap hlt, chars?_eq_none_iff.mpr ⟨_, hi⟩]

end ObjectGraph.Utf16
