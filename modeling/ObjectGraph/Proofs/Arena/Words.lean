import ObjectGraph.Arena.Words

namespace ObjectGraph

namespace Pages

theorem write_middle {p : Pages} {before old after bs : Bytes} (hp : p.bytes = before ++ old ++ after)
    (hlength : bs.length = old.length) : (p.write before.length bs).bytes = before ++ bs ++ after := by
  have htake : p.bytes.take before.length = before := by rw [hp, List.append_assoc, List.take_left]
  have hdrop : p.bytes.drop (before.length + bs.length) = after := by
    rw [hp, hlength, ← List.length_append, List.drop_left]
  rw [write, htake, hdrop]

end Pages

namespace Words

theorem fit_of_lt {bits n : Nat} (h : n < 1 <<< bits) : fit bits n = some n := if_pos h

variable {p : Pages} {s : Span} {bs : Bytes}

theorem get_eq (hbytes : s.offset + s.length ≤ p.bytes.length) (hword : s.offset + s.length < 1 <<< 64) :
    get p s = some ((p.bytes.drop s.offset).take s.length) := by
  simp only [get, fit_of_lt hword, Option.bind_eq_bind, Option.bind_some, Nat.add_sub_cancel_left,
    Bytes.slice?, if_pos hbytes]

theorem set_eq (hbytes : s.offset + s.length ≤ p.bytes.length) (hword : s.offset + s.length < 1 <<< 64)
    (hlength : bs.length = s.length) : set p s bs = some (p.write s.offset bs) := by
  have hold : ((p.bytes.drop s.offset).take s.length).length = bs.length := by
    rw [List.length_take, List.length_drop]
    omega
  simp only [set, get_eq hbytes hword, Option.bind_eq_bind, Option.bind_some, if_pos hold]

theorem take_eq {q : Quota} (hcapacity : q.capacity ≤ Quota.maxCapacity) (length : Nat) :
    take q length = q.take length := by
  have hmax : Quota.maxCapacity < 1 <<< 64 := by decide
  by_cases hroom : q.used + length ≤ q.capacity
  · rw [take, fit_of_lt (show q.used + length < 1 <<< 64 by omega), Option.filter_some_pos (by simpa),
      Quota.take, if_pos hroom]
  · have hnone : (fit 64 (q.used + length)).filter (· ≤ q.capacity) = none := by
      rw [fit]
      split
      · exact Option.filter_some_neg (by simpa using hroom)
      · rfl
    rw [take, hnone, Quota.take, if_neg hroom]

end Words

namespace Arena

theorem count_eq {pageSize : Nat} (hpage : 0 < pageSize) (length : Nat) :
    (length + pageSize - 1) / pageSize = length / pageSize + if length % pageSize = 0 then 0 else 1 := by
  have hlength := Nat.div_add_mod length pageSize
  have hmod := Nat.mod_lt length hpage
  generalize length / pageSize = q at hlength ⊢
  generalize length % pageSize = r at hlength hmod ⊢
  split
  next hr =>
    have hsum : length + pageSize - 1 = pageSize * q + (pageSize - 1) := by omega
    rw [hsum, Nat.mul_add_div hpage, Nat.div_eq_of_lt (by omega)]
  next hr =>
    have hsum : length + pageSize - 1 = pageSize * (q + 1) + (r - 1) := by
      rw [Nat.mul_succ]
      omega
    rw [hsum, Nat.mul_add_div hpage, Nat.div_eq_of_lt (by omega), Nat.add_zero]

variable {a : Arena} {length : Nat}

theorem pagesFor_spec (a : Arena) (length : Nat) (hpage : 0 < a.pageSize) (hword : a.pageSize < 1 <<< 64)
    (hcapacity : a.quota.capacity ≤ Quota.maxCapacity) (hlength : length ≤ a.quota.capacity) :
    Words.pagesFor a length = some (a.pagesFor length) ∧ length ≤ a.pagesFor length ∧
      a.pagesFor length ≤ a.quota.capacity ∧
      (a.pageSize ∣ a.pagesFor length ∨ a.pagesFor length = a.quota.capacity) := by
  have hmax : Quota.maxCapacity < 1 <<< 32 := by decide
  have hsum := Nat.div_add_mod (length + a.pageSize - 1) a.pageSize
  have hmod := Nat.mod_lt (length + a.pageSize - 1) hpage
  have hfew : length ≤ a.pageSize → (length + a.pageSize - 1) / a.pageSize < 2 :=
    fun h => Nat.div_lt_of_lt_mul (by omega)
  have hpages : a.pagesFor length =
      min ((length + a.pageSize - 1) / a.pageSize * a.pageSize) a.quota.capacity := rfl
  have hwords : Words.pagesFor a length = do
      return min (← Words.fit 64 ((← Words.fit 64 ((length + a.pageSize - 1) / a.pageSize)) * a.pageSize))
        a.quota.capacity := by
    simp only [Words.pagesFor, if_neg (Nat.ne_of_gt hpage), count_eq hpage]
  generalize (length + a.pageSize - 1) / a.pageSize = count at hsum hfew hpages hwords
  rw [Nat.mul_comm] at hsum
  have hproduct : count * a.pageSize < 1 <<< 64 := by
    by_cases hlong : length ≤ a.pageSize
    · have hone := Nat.mul_le_mul_right a.pageSize (Nat.le_of_lt_succ (hfew hlong))
      omega
    · have : (1 <<< 32) + (1 <<< 32) ≤ 1 <<< 64 := by decide
      omega
  have hcount : count < 1 <<< 64 := Nat.lt_of_le_of_lt (Nat.le_mul_of_pos_right _ hpage) hproduct
  rw [hpages]
  refine ⟨?_, Nat.le_min.mpr ⟨by omega, hlength⟩, Nat.min_le_right _ _, ?_⟩
  · rw [hwords, Words.fit_of_lt hcount, Option.bind_eq_bind, Option.bind_some, Words.fit_of_lt hproduct]
    rfl
  · rcases Nat.le_total (count * a.pageSize) a.quota.capacity with hle | hle
    · exact .inl (by rw [Nat.min_eq_left hle]; exact Nat.dvd_mul_left _ _)
    · exact .inr (Nat.min_eq_right hle)

end Arena

end ObjectGraph
