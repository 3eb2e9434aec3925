import Mathlib.Algebra.Order.Ring.Nat
import ObjectGraph.History.CommitId
import ObjectGraph.Proofs.Key

namespace ObjectGraph

namespace CommitId

def Proper (n : Nat) : Prop :=
  ∃ millis counter, millis < 1 <<< 48 ∧ counter < counterLimit ∧ n = layout millis counter

def greatest : Nat := layout (1 <<< 48 - 1) (counterLimit - 1)

variable {m m' c c' n : Nat}

theorem layout_eq (m c : Nat) :
    layout m c = m * 2 ^ 80 + 7 * 2 ^ 76 + c / 2 ^ 62 * 2 ^ 64 + 2 ^ 63 + c % 2 ^ 62 := by
  have hvariant : 2 <<< 62 = 2 ^ 63 := by decide
  have hwidth : 1 <<< 62 = 2 ^ 62 := by decide
  rw [layout, hvariant, hwidth, Nat.shiftLeft_eq, Nat.shiftLeft_eq, Nat.shiftLeft_eq,
    Nat.shiftRight_eq_div_pow]

theorem counterLimit_eq : counterLimit = 2 ^ 74 := rfl

theorem layout_shiftRight (h : c < counterLimit) : layout m c >>> 80 = m := by
  rw [counterLimit_eq] at h
  rw [layout_eq, Nat.shiftRight_eq_div_pow]
  omega

theorem counter_layout (h : c < counterLimit) : counter (layout m c) = c := by
  rw [counterLimit_eq] at h
  simp only [counter, layout_eq, Nat.shiftLeft_eq, Nat.shiftRight_eq_div_pow]
  omega

theorem layout_lt_of_millis (h : m < m') (hc : c < counterLimit) : layout m c < layout m' c' := by
  rw [counterLimit_eq] at hc
  rw [layout_eq, layout_eq]
  omega

theorem layout_lt_of_counter (h : c < c') : layout m c < layout m c' := by
  rw [layout_eq, layout_eq]
  omega

theorem Proper.lt (h : Proper n) : n < 1 <<< 128 := by
  obtain ⟨m, c, hm, hc, rfl⟩ := h
  rw [counterLimit_eq] at hc
  rw [layout_eq]
  simp only [Nat.shiftLeft_eq] at hm ⊢
  omega

theorem Proper.pos (h : Proper n) : 0 < n := by
  obtain ⟨m, c, -, -, rfl⟩ := h
  rw [layout_eq]
  omega

theorem proper_candidate (stamp : Stamp) : Proper (candidate stamp) :=
  ⟨_, _, Nat.mod_lt _ (by decide), Nat.mod_lt _ (by decide), rfl⟩

theorem successor_spec (h : Proper n) : Proper (successor n) ∧ (n ≠ greatest → n < successor n) := by
  obtain ⟨m, c, hm, hc, rfl⟩ := h
  rw [successor, counter_layout hc, layout_shiftRight hc]
  split
  next hfull =>
    refine ⟨⟨_, 0, Nat.mod_lt _ (by decide), by decide, rfl⟩, fun hne => ?_⟩
    have hlast : m ≠ 1 <<< 48 - 1 := by
      rintro rfl
      apply hne
      rw [greatest, ← hfull]
      rfl
    rw [Nat.mod_eq_of_lt (by omega)]
    exact layout_lt_of_millis (Nat.lt_succ_self m) hc
  · exact ⟨⟨m, c + 1, hm, by omega, rfl⟩, fun _ => layout_lt_of_counter (Nat.lt_succ_self c)⟩

end CommitId

def CommitSequence.Proper (s : CommitSequence) : Prop := s.latest = 0 ∨ CommitId.Proper s.latest

theorem CommitSequence.next_spec {s s' : CommitSequence} {stamp : Stamp} {c : CommitId}
    (h : s.Proper) (hnext : s.next stamp = (c, s')) :
    s'.Proper ∧ c.toNat = s'.latest ∧ (s.latest ≠ CommitId.greatest → s.latest < s'.latest) := by
  have hcandidate := CommitId.proper_candidate stamp
  cases hnext
  split
  next hlater => exact ⟨.inr hcandidate, Id.toNat_ofNat hcandidate.lt, fun _ => hlater⟩
  next hlater =>
    have hlatest := h.resolve_left fun hzero => hlater (hzero ▸ hcandidate.pos)
    obtain ⟨hproper, hlt⟩ := CommitId.successor_spec hlatest
    exact ⟨.inr hproper, Id.toNat_ofNat hproper.lt, hlt⟩

end ObjectGraph
