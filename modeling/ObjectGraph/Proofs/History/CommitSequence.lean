import Mathlib.Data.List.Chain
import ObjectGraph.Proofs.History.CommitId

namespace ObjectGraph

namespace CommitId

def versionBits (n : Nat) : Nat := n >>> 76 % (1 <<< 4)

def variantBits (n : Nat) : Nat := n >>> 62 % (1 <<< 2)

/-- A full counter needs one more millisecond. Any other needs version and variant bits that are not lowered
by setting them, unless the counter carries into a bit above. -/
def Climbs (n : Nat) : Prop :=
  if counter n + 1 = counterLimit then n >>> 80 + 1 < 1 <<< 48
  else versionBits n < 7 ∨ versionBits n = 7 ∧ (variantBits n ≤ 2 ∨ (n + 1) % (1 <<< 62) = 0)

variable {n : Nat}

theorem parts_eq (n : Nat) :
    n = n >>> 80 * 2 ^ 80 + versionBits n * 2 ^ 76 + counter n / 2 ^ 62 * 2 ^ 64
      + variantBits n * 2 ^ 62 + counter n % 2 ^ 62 := by
  simp only [versionBits, variantBits, counter, Nat.shiftLeft_eq, Nat.shiftRight_eq_div_pow]
  omega

theorem counter_lt (n : Nat) : counter n < 2 ^ 74 := by
  simp only [counter, Nat.shiftLeft_eq, Nat.shiftRight_eq_div_pow]
  omega

theorem proper_successor (h : n < 1 <<< 128) : Proper (successor n) := by
  have hcounter := counter_lt n
  rw [successor]
  split
  · exact ⟨_, 0, Nat.mod_lt _ (by decide), by decide, rfl⟩
  next hfull =>
    refine ⟨n >>> 80, counter n + 1, ?_, ?_, rfl⟩
    · simp only [Nat.shiftLeft_eq, Nat.shiftRight_eq_div_pow] at h ⊢
      omega
    · rw [counterLimit_eq] at hfull ⊢
      omega

theorem lt_successor_iff (h : n < 1 <<< 128) : n < successor n ↔ Climbs n := by
  have hparts := parts_eq n
  have hcounter := counter_lt n
  have hversion : versionBits n < 16 := Nat.mod_lt _ (by decide)
  have hvariant : variantBits n < 4 := Nat.mod_lt _ (by decide)
  have hmillis : n >>> 80 < 2 ^ 48 := by
    simp only [Nat.shiftLeft_eq, Nat.shiftRight_eq_div_pow] at h ⊢
    omega
  rw [successor, Climbs, counterLimit_eq]
  split
  · rw [layout_eq, Nat.shiftLeft_eq]
    omega
  · have hcarry : (n + 1) % (1 <<< 62) = 0 ↔ counter n % 2 ^ 62 + 1 = 2 ^ 62 := by
      rw [Nat.shiftLeft_eq]
      omega
    rw [layout_eq, hcarry]
    omega

theorem Proper.climbs_iff (h : Proper n) : Climbs n ↔ n ≠ greatest := by
  constructor
  · rintro hclimbs rfl
    exact absurd ((lt_successor_iff h.lt).mpr hclimbs) (by decide)
  · exact fun hne => (lt_successor_iff h.lt).mp ((successor_spec h).2 hne)

theorem Proper.le_greatest (h : Proper n) : n ≤ greatest := by
  obtain ⟨m, c, hm, hc, rfl⟩ := h
  rw [counterLimit_eq] at hc
  rw [greatest, layout_eq, layout_eq, counterLimit_eq]
  simp only [Nat.shiftLeft_eq] at hm ⊢
  omega

end CommitId

namespace CommitSequence

def ids (s : CommitSequence) : List Stamp → List CommitId
  | [] => []
  | stamp :: stamps => (s.next stamp).1 :: (s.next stamp).2.ids stamps

variable {s : CommitSequence}

theorem proper_next (h : s.latest < 1 <<< 128) (stamp : Stamp) :
    CommitId.Proper (s.next stamp).2.latest := by
  dsimp only [next]
  split
  · exact CommitId.proper_candidate stamp
  · exact CommitId.proper_successor h

theorem toNat_next (h : s.latest < 1 <<< 128) (stamp : Stamp) :
    (s.next stamp).1.toNat = (s.next stamp).2.latest :=
  Id.toNat_ofNat (proper_next h stamp).lt

theorem lt_next_iff (h : s.latest < 1 <<< 128) (stamp : Stamp) :
    s.latest < (s.next stamp).2.latest ↔
      s.latest < CommitId.candidate stamp ∨ CommitId.Climbs s.latest := by
  rw [← CommitId.lt_successor_iff h]
  dsimp only [next]
  split
  next hlater => simp only [hlater, true_or]
  next hlater => simp only [hlater, false_or]

theorem lt_next_iff_of_proper (h : CommitId.Proper s.latest) (stamp : Stamp) :
    s.latest < (s.next stamp).2.latest ↔ s.latest ≠ CommitId.greatest := by
  rw [lt_next_iff h.lt, h.climbs_iff, or_iff_right_of_imp]
  intro hlater
  exact Nat.ne_of_lt (Nat.lt_of_lt_of_le hlater (CommitId.proper_candidate stamp).le_greatest)

theorem rising_of_proper {last : CommitId} (hlast : last.toNat = s.latest)
    (h : CommitId.Proper s.latest) (stamps : List Stamp) :
    (last :: s.ids stamps).IsChain (compare · · = .lt) ↔
      ∀ c ∈ (last :: s.ids stamps).dropLast, c.toNat ≠ CommitId.greatest := by
  induction stamps generalizing s last with
  | nil => simp [ids]
  | cons stamp stamps ih =>
    have hnext := toNat_next h.lt stamp
    rw [ids, List.isChain_cons_cons, ih hnext (proper_next h.lt stamp), List.dropLast_cons_cons,
      List.forall_mem_cons]
    refine and_congr_left' ?_
    exact Id.compare_bytes_eq_lt.trans (by rw [hlast, hnext, lt_next_iff_of_proper h stamp])

theorem rising_iff (floor : CommitId) (stamps : List Stamp) :
    (floor :: (startingAfter floor).ids stamps).Pairwise (compare · · = .lt) ↔
      (∀ stamp ∈ stamps.head?, floor.toNat < CommitId.candidate stamp ∨ CommitId.Climbs floor.toNat) ∧
        ∀ c ∈ ((startingAfter floor).ids stamps).dropLast, c.toNat ≠ CommitId.greatest := by
  have hfloor : (startingAfter floor).latest < 1 <<< 128 := floor.toNat_lt
  have : IsTrans CommitId (compare · · = .lt) := ⟨fun _ _ _ => Std.TransCmp.lt_trans⟩
  rw [← List.isChain_iff_pairwise]
  cases stamps with
  | nil => simp [ids]
  | cons stamp stamps =>
    have hnext := toNat_next hfloor stamp
    rw [ids, List.isChain_cons_cons, rising_of_proper hnext (proper_next hfloor stamp)]
    refine and_congr_left' ?_
    simp only [List.head?_cons, Option.mem_def, Option.some.injEq, forall_eq']
    refine Iff.trans ?_ (lt_next_iff hfloor stamp)
    rw [← hnext]
    exact Id.compare_bytes_eq_lt

/-- The floor has a greater version number, which the successor lowers to 7. -/
theorem falls_below_floor :
    ¬ (Id.ofNat 0x00000000000180008000000000000000 ::
        (startingAfter (Id.ofNat 0x00000000000180008000000000000000)).ids [⟨0, 0⟩]).Pairwise
      (compare · · = .lt) := by
  decide

end CommitSequence

end ObjectGraph
