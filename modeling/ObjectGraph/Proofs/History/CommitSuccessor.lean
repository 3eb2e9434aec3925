import Mathlib.Algebra.Order.Ring.Nat
import ObjectGraph.Proofs.Bytes
import ObjectGraph.Proofs.History.CommitSequence

namespace ObjectGraph

theorem Bytes.toNat_getD {bs : Bytes} {i : Nat} (h : i < bs.length) :
    (bs.getD i 0).toNat = ofBigEndian bs / Nat.pow 256 (bs.length - 1 - i) % 256 := by
  induction bs generalizing i with
  | nil => contradiction
  | cons b bs ih =>
    have hb := b.toNat_lt
    have hrest := ofBigEndian_lt bs
    have hpos (n : Nat) : 0 < Nat.pow 256 n := Nat.pow_pos (by decide)
    rw [ofBigEndian_cons, List.length_cons, Nat.add_sub_cancel]
    cases i with
    | zero =>
      rw [List.getD_cons_zero, Nat.sub_zero, Nat.add_mul_div_left _ _ (hpos _), Nat.div_eq_of_lt hrest]
      omega
    | succ i =>
      rw [List.length_cons] at h
      have hpow : Nat.pow 256 bs.length = Nat.pow 256 (bs.length - (i + 1)) * (256 * Nat.pow 256 i) := by
        have hsplit : bs.length = bs.length - (i + 1) + (i + 1) := by omega
        conv_lhs => rw [hsplit]
        exact (Nat.pow_add 256 _ _).trans (congrArg _ (Nat.pow_succ'))
      have hlength : bs.length - 1 - i = bs.length - (i + 1) := by omega
      rw [List.getD_cons_succ, ih (by omega), hlength, hpow, Nat.mul_assoc,
        Nat.add_mul_div_left _ _ (hpos _), Nat.mul_assoc, Nat.add_mul_mod_self_left]

namespace CommitId

def IsVersion7 (c : CommitId) : Prop := c.version = 7 ∧ c.HasStandardVariant

instance (c : CommitId) : Decidable c.IsVersion7 := inferInstanceAs (Decidable (_ ∧ _))

/-- There is no version 7 identifier between the two. -/
structure IsNext (p c : CommitId) : Prop where
  version7 : c.IsVersion7
  above : compare p c = .lt
  least : ∀ d : CommitId, d.IsVersion7 → compare p d = .lt → (compare c d).isLE

variable {p c : CommitId} {m m' n k k' : Nat}

theorem version_eq (c : CommitId) : c.version = versionBits c.toNat := by
  have hbyte : (c.bytes.getD 6 0).toNat = c.toNat / Nat.pow 256 (c.bytes.length - 1 - 6) % 256 :=
    Bytes.toNat_getD (by rw [c.length_bytes]; decide)
  have hpow : Nat.pow 256 (16 - 1 - 6) = 2 ^ 72 := by decide
  rw [c.length_bytes, hpow] at hbyte
  rw [Id.version, hbyte, versionBits, Nat.shiftRight_eq_div_pow, Nat.shiftLeft_eq]
  omega

theorem hasStandardVariant_iff (c : CommitId) : c.HasStandardVariant ↔ variantBits c.toNat = 2 := by
  have hbyte : (c.bytes.getD 8 0).toNat = c.toNat / Nat.pow 256 (c.bytes.length - 1 - 8) % 256 :=
    Bytes.toNat_getD (by rw [c.length_bytes]; decide)
  have hpow : Nat.pow 256 (16 - 1 - 8) = 2 ^ 56 := by decide
  rw [c.length_bytes, hpow] at hbyte
  rw [Id.HasStandardVariant, hbyte, variantBits, Nat.shiftRight_eq_div_pow, Nat.shiftLeft_eq]
  omega

theorem proper_iff_bits (h : n < 1 <<< 128) : Proper n ↔ versionBits n = 7 ∧ variantBits n = 2 := by
  constructor
  · rintro ⟨m, k, -, hk, rfl⟩
    rw [counterLimit_eq] at hk
    have hversion : layout m k / 2 ^ 76 = m * 16 + 7 := by
      rw [layout_eq]
      omega
    have hvariant : layout m k / 2 ^ 62 = m * 2 ^ 18 + 7 * 2 ^ 14 + k / 2 ^ 62 * 2 ^ 2 + 2 := by
      rw [layout_eq]
      omega
    simp only [versionBits, variantBits, Nat.shiftLeft_eq, Nat.shiftRight_eq_div_pow, hversion, hvariant]
    omega
  · rintro ⟨hversion, hvariant⟩
    have hparts := parts_eq n
    have hmillis : n >>> 80 < 1 <<< 48 := by
      simp only [Nat.shiftLeft_eq, Nat.shiftRight_eq_div_pow] at h ⊢
      omega
    refine ⟨n >>> 80, counter n, hmillis, ?_, ?_⟩
    · rw [counterLimit_eq]
      exact counter_lt n
    · have hbit : 2 * 2 ^ 62 = 2 ^ 63 := rfl
      rw [hversion, hvariant, hbit] at hparts
      rwa [layout_eq]

theorem proper_iff : Proper c.toNat ↔ c.IsVersion7 := by
  rw [IsVersion7, version_eq, hasStandardVariant_iff]
  exact proper_iff_bits c.toNat_lt

theorem isVersion7_ofNat (h : Proper n) : IsVersion7 (Id.ofNat n) :=
  proper_iff.mp (by rwa [Id.toNat_ofNat h.lt])

theorem layout_lt_layout_iff (hk : k < counterLimit) (hk' : k' < counterLimit) :
    layout m k < layout m' k' ↔ m < m' ∨ m = m' ∧ k < k' := by
  rw [counterLimit_eq] at hk hk'
  rw [layout_eq, layout_eq]
  omega

theorem Proper.successor_le (hn : Proper n) (hm : Proper m) (h : n < m) : successor n ≤ m := by
  obtain ⟨a, k, ha, hk, rfl⟩ := hn
  obtain ⟨b, l, hb, hl, rfl⟩ := hm
  have hlater := (layout_lt_layout_iff hk hl).mp h
  rw [successor, counter_layout hk, layout_shiftRight hk]
  split
  next hfull =>
    -- A full counter has no room for `l`, so that the milliseconds are greater.
    have hab : a < b := by omega
    rw [Nat.mod_eq_of_lt (by omega), ← Nat.not_lt, layout_lt_layout_iff hl (by decide)]
    omega
  next hfull =>
    rw [← Nat.not_lt, layout_lt_layout_iff hl (by omega)]
    omega

theorem isNext_successor (hp : p.IsVersion7) (habove : ∃ d : CommitId, d.IsVersion7 ∧ compare p d = .lt) :
    p.IsNext (Id.ofNat (successor p.toNat)) := by
  have hproper := proper_iff.mpr hp
  obtain ⟨d, hd, hpd⟩ := habove
  have hgreatest : p.toNat ≠ greatest :=
    Nat.ne_of_lt (Nat.lt_of_lt_of_le (Id.compare_bytes_eq_lt.mp hpd) (proper_iff.mpr hd).le_greatest)
  obtain ⟨hsuccessor, hlt⟩ := successor_spec hproper
  have htoNat : (Id.ofNat (successor p.toNat)).toNat = successor p.toNat := Id.toNat_ofNat hsuccessor.lt
  refine ⟨isVersion7_ofNat hsuccessor, Id.compare_bytes_eq_lt.mpr ?_, fun e he hpe => ?_⟩
  · rw [htoNat]
    exact hlt hgreatest
  · rw [Id.isLE_compare_iff, htoNat]
    exact hproper.successor_le (proper_iff.mpr he) (Id.compare_bytes_eq_lt.mp hpe)

def ofStamp (stamp : Stamp) : CommitId := Id.ofNat (candidate stamp)

theorem isVersion7_ofStamp (stamp : Stamp) : IsVersion7 (ofStamp stamp) :=
  isVersion7_ofNat (proper_candidate stamp)

theorem toNat_ofStamp (stamp : Stamp) : (ofStamp stamp).toNat = candidate stamp :=
  Id.toNat_ofNat (proper_candidate stamp).lt

theorem lt_ofStamp_iff {stamp : Stamp} : compare p (ofStamp stamp) = .lt ↔ p.toNat < candidate stamp :=
  Id.compare_bytes_eq_lt.trans (by rw [toNat_ofStamp])

theorem parts_ofStamp (stamp : Stamp) :
    millis (ofStamp stamp) = stamp.millis % 2 ^ 48 ∧ counter (ofStamp stamp).toNat = stamp.random % 2 ^ 74 := by
  have hrandom : stamp.random % counterLimit < counterLimit := Nat.mod_lt _ (by decide)
  rw [millis, toNat_ofStamp, candidate, layout_shiftRight hrandom, counter_layout hrandom]
  exact ⟨rfl, rfl⟩

end CommitId

namespace CommitSequence

open CommitId (IsVersion7 IsNext ofStamp)

def continuing : Option CommitId → CommitSequence
  | none => {}
  | some floor => startingAfter floor

def previous? (floor : Option CommitId) (earlier : List Stamp) : Option CommitId :=
  ((continuing floor).ids earlier).getLast?.or floor

variable {floor : Option CommitId}

theorem latest_continuing_lt (floor : Option CommitId) : (continuing floor).latest < 1 <<< 128 := by
  cases floor with
  | none => decide
  | some p => exact p.toNat_lt

theorem continuing_next (floor : Option CommitId) (stamp : Stamp) :
    ((continuing floor).next stamp).2 = continuing ((continuing floor).next stamp).1 :=
  congrArg CommitSequence.mk (toNat_next (latest_continuing_lt floor) stamp).symm

theorem isVersion7_next (floor : Option CommitId) (stamp : Stamp) :
    IsVersion7 ((continuing floor).next stamp).1 := by
  have hlt := latest_continuing_lt floor
  rw [← CommitId.proper_iff, toNat_next hlt]
  exact proper_next hlt stamp

theorem previous?_cons (floor : Option CommitId) (stamp : Stamp) (later : List Stamp) :
    previous? floor (stamp :: later) = previous? ((continuing floor).next stamp).1 later := by
  rw [previous?, previous?, ids, continuing_next, List.getLast?_cons]
  cases (ids _ later).getLast? <;> rfl

theorem isVersion7_previous? (hfloor : ∀ p ∈ floor, IsVersion7 p) (earlier : List Stamp) :
    ∀ p ∈ previous? floor earlier, IsVersion7 p := by
  induction earlier generalizing floor with
  | nil => exact hfloor
  | cons stamp earlier ih =>
    rw [previous?_cons]
    apply ih
    rintro p ⟨⟩
    exact isVersion7_next floor stamp

theorem ids_concat (floor : Option CommitId) (earlier : List Stamp) (stamp : Stamp) :
    (continuing floor).ids (earlier ++ [stamp]) =
      (continuing floor).ids earlier ++ [((continuing (previous? floor earlier)).next stamp).1] := by
  induction earlier generalizing floor with
  | nil => rfl
  | cons a earlier ih =>
    rw [List.cons_append, ids, ids, previous?_cons, continuing_next, ih, List.cons_append]

theorem next_eq (hfloor : ∀ p ∈ floor, IsVersion7 p)
    (habove : ∀ p ∈ floor, ∃ d : CommitId, d.IsVersion7 ∧ compare p d = .lt) (stamp : Stamp) :
    let c := ((continuing floor).next stamp).1
    (c = ofStamp stamp ↔ ∀ p ∈ floor, compare p (ofStamp stamp) = .lt) ∧
      ((∃ p ∈ floor, compare p (ofStamp stamp) ≠ .lt) → ∃ p ∈ floor, p.IsNext c) := by
  cases floor with
  | none =>
    have hpos : 0 < CommitId.candidate stamp := (CommitId.proper_candidate stamp).pos
    have hc : ((continuing none).next stamp).1 = ofStamp stamp := congrArg Id.ofNat (if_pos hpos)
    exact ⟨iff_of_true hc nofun, nofun⟩
  | some p =>
    simp only [Option.mem_def, Option.some.injEq, forall_eq', exists_eq_left'] at hfloor habove ⊢
    by_cases hlater : compare p (ofStamp stamp) = .lt
    · have hc : ((continuing p).next stamp).1 = ofStamp stamp :=
        congrArg Id.ofNat (if_pos (CommitId.lt_ofStamp_iff.mp hlater))
      exact ⟨iff_of_true hc hlater, fun hlags => absurd hlater hlags⟩
    · have hc : ((continuing p).next stamp).1 = Id.ofNat (CommitId.successor p.toNat) :=
        congrArg Id.ofNat (if_neg fun hlt => hlater (CommitId.lt_ofStamp_iff.mpr hlt))
      have hnext : p.IsNext ((continuing p).next stamp).1 := hc ▸ CommitId.isNext_successor hfloor habove
      refine ⟨iff_of_false (fun heq => hlater ?_) hlater, fun _ => hnext⟩
      exact heq ▸ hnext.above

/-- The successor of an identifier is the next one above it, unless there is none. A sequence hands out
version 7 identifiers only: what the clock says where that is above the previous one, and the next one
above the previous one where it is not. -/
theorem next_least :
    (∀ p : CommitId, p.IsVersion7 → (∃ d : CommitId, d.IsVersion7 ∧ compare p d = .lt) →
      p.IsNext (Id.ofNat (CommitId.successor p.toNat))) ∧
    ∀ floor : Option CommitId, (∀ p ∈ floor, p.IsVersion7) → ∀ (earlier : List Stamp) (stamp : Stamp),
      ∃ c : CommitId,
        (continuing floor).ids (earlier ++ [stamp]) = (continuing floor).ids earlier ++ [c] ∧
        c.IsVersion7 ∧ (ofStamp stamp).IsVersion7 ∧
        CommitId.millis (ofStamp stamp) = stamp.millis % 2 ^ 48 ∧
        CommitId.counter (ofStamp stamp).toNat = stamp.random % 2 ^ 74 ∧
        ((∀ p ∈ previous? floor earlier, ∃ d : CommitId, d.IsVersion7 ∧ compare p d = .lt) →
          (c = ofStamp stamp ↔ ∀ p ∈ previous? floor earlier, compare p (ofStamp stamp) = .lt) ∧
          ((∃ p ∈ previous? floor earlier, compare p (ofStamp stamp) ≠ .lt) →
            ∃ p ∈ previous? floor earlier, p.IsNext c)) := by
  refine ⟨fun p => CommitId.isNext_successor, fun floor hfloor earlier stamp => ?_⟩
  refine ⟨_, ids_concat floor earlier stamp, isVersion7_next _ stamp, CommitId.isVersion7_ofStamp stamp,
    (CommitId.parts_ofStamp stamp).1, (CommitId.parts_ofStamp stamp).2, fun habove => ?_⟩
  exact next_eq (isVersion7_previous? hfloor earlier) habove stamp

theorem next_least_carries :
    ∃ p c : CommitId, p = Id.ofNat 0x0000000023287fffbfffffffffffffff ∧
      c = Id.ofNat 0x00000000232970008000000000000000 ∧ p.IsVersion7 ∧ c.IsVersion7 ∧
      compare p c = .lt ∧ (startingAfter p).ids [⟨0, 0⟩] = [c] ∧
      p.IsNext (Id.ofNat (CommitId.successor p.toNat)) ∧ p.IsNext c := by
  let p : CommitId := Id.ofNat 0x0000000023287fffbfffffffffffffff
  let c : CommitId := Id.ofNat 0x00000000232970008000000000000000
  have hp : p.IsVersion7 := by decide
  have hc : c.IsVersion7 := by decide
  have hpc : compare p c = .lt := by decide
  have hids : (startingAfter p).ids [⟨0, 0⟩] = [c] := by decide
  obtain ⟨hsuccessor, hsequence⟩ := next_least
  obtain ⟨c', hids', -, -, -, -, hnext⟩ := hsequence (some p) (by rintro _ ⟨⟩; exact hp) [] ⟨0, 0⟩
  obtain ⟨-, hlags⟩ := hnext (by rintro _ ⟨⟩; exact ⟨c, hc, hpc⟩)
  obtain ⟨_, ⟨⟩, hnext⟩ := hlags ⟨p, rfl, by decide⟩
  cases hids.symm.trans hids'
  exact ⟨p, c, rfl, rfl, hp, hc, hpc, hids, hsuccessor p hp ⟨c, hc, hpc⟩, hnext⟩

end CommitSequence

end ObjectGraph
