import Mathlib.Order.Bounds.Basic
import ObjectGraph.Search.EditDistance

namespace ObjectGraph.EditDistance

inductive Edit : List Char → List Char → Prop where
  | insert (u v : List Char) (c : Char) : Edit (u ++ v) (u ++ c :: v)
  | delete (u v : List Char) (c : Char) : Edit (u ++ c :: v) (u ++ v)
  | substitute (u v : List Char) (c d : Char) : Edit (u ++ c :: v) (u ++ d :: v)

inductive Edits : Nat → List Char → List Char → Prop where
  | refl (s : List Char) : Edits 0 s s
  | step {n : Nat} {s t u : List Char} : Edit s t → Edits n t u → Edits (n + 1) s u

variable {s t u : List Char} {m n : Nat}

namespace Edit

theorem symm (h : Edit s t) : Edit t s := by
  cases h with
  | insert u v c => exact .delete u v c
  | delete u v c => exact .insert u v c
  | substitute u v c d => exact .substitute u v d c

theorem cons (h : Edit s t) (a : Char) : Edit (a :: s) (a :: t) := by
  cases h with
  | insert u v c => exact .insert (a :: u) v c
  | delete u v c => exact .delete (a :: u) v c
  | substitute u v c d => exact .substitute (a :: u) v c d

theorem reverse (h : Edit s t) : Edit s.reverse t.reverse := by
  cases h with
  | insert u v c => simpa using Edit.insert v.reverse u.reverse c
  | delete u v c => simpa using Edit.delete v.reverse u.reverse c
  | substitute u v c d => simpa using Edit.substitute v.reverse u.reverse c d

theorem length_le (h : Edit s t) : t.length ≤ s.length + 1 := by
  cases h <;> simp only [List.length_append, List.length_cons] <;> omega

end Edit

namespace Edits

theorem trans (h : Edits m s t) (h' : Edits n t u) : Edits (m + n) s u := by
  induction h with
  | refl s => rwa [Nat.zero_add]
  | step hedit _ ih =>
    rw [Nat.succ_add]
    exact .step hedit (ih h')

theorem symm (h : Edits n s t) : Edits n t s := by
  induction h with
  | refl s => exact .refl s
  | step hedit _ ih => exact ih.trans (.step hedit.symm (.refl _))

theorem cons (h : Edits n s t) (a : Char) : Edits n (a :: s) (a :: t) := by
  induction h with
  | refl s => exact .refl (a :: s)
  | step hedit _ ih => exact .step (hedit.cons a) ih

theorem reverse (h : Edits n s t) : Edits n s.reverse t.reverse := by
  induction h with
  | refl s => exact .refl s.reverse
  | step hedit _ ih => exact .step hedit.reverse ih

theorem min (h : Edits m s t) (h' : Edits n s t) : Edits (min m n) s t := by
  rcases Nat.le_total m n with hle | hle
  · rwa [Nat.min_eq_left hle]
  · rwa [Nat.min_eq_right hle]

theorem reverse_iff : Edits n s.reverse t.reverse ↔ Edits n s t := by
  refine ⟨fun h => ?_, reverse⟩
  have hback := h.reverse
  rwa [List.reverse_reverse, List.reverse_reverse] at hback

theorem length_le (h : Edits n s t) : t.length ≤ s.length + n := by
  induction h with
  | refl s => omega
  | step hedit _ ih =>
    have hlength := hedit.length_le
    omega

theorem zero_iff : Edits 0 s t ↔ s = t := by
  constructor
  · rintro ⟨⟩
    rfl
  · rintro rfl
    exact .refl s

end Edits

def cost : List Char → List Char → Nat
  | [], t => t.length
  | s, [] => s.length
  | c :: s, d :: t => min (min (cost s t + if c = d then 0 else 1) (cost s (d :: t) + 1)) (cost (c :: s) t + 1)
termination_by s t => s.length + t.length

@[simp] theorem cost_nil_left (t : List Char) : cost [] t = t.length := by rw [cost]

@[simp] theorem cost_nil_right (s : List Char) : cost s [] = s.length := by
  cases s <;> simp [cost]

theorem cost_cons_cons (c d : Char) (s t : List Char) : cost (c :: s) (d :: t) =
    min (min (cost s t + if c = d then 0 else 1) (cost s (d :: t) + 1)) (cost (c :: s) t + 1) := by
  rw [cost]

theorem cost_le_max (s t : List Char) : cost s t ≤ max s.length t.length := by
  induction s generalizing t with
  | nil => simp
  | cons c s ih =>
    cases t with
    | nil => simp
    | cons d t =>
      have hrest := ih t
      rw [cost_cons_cons]
      simp only [List.length_cons]
      split <;> omega

theorem cost_self (s : List Char) : cost s s = 0 := by
  induction s with
  | nil => simp
  | cons c s ih => simp [cost_cons_cons, ih]

theorem edits_cost (s t : List Char) : Edits (cost s t) s t := by
  induction s generalizing t with
  | nil =>
    induction t with
    | nil => simpa using Edits.refl []
    | cons d t ih =>
      simp only [cost_nil_left, List.length_cons] at ih ⊢
      exact .step (.insert [] [] d) (ih.cons d)
  | cons c s ih =>
    induction t with
    | nil =>
      have hrest := ih []
      simp only [cost_nil_right, List.length_cons] at hrest ⊢
      exact .step (.delete [] s c) hrest
    | cons d t ihrow =>
      have hdelete : Edits (cost s (d :: t) + 1) (c :: s) (d :: t) := .step (.delete [] s c) (ih (d :: t))
      have hinsert : Edits (cost (c :: s) t + 1) (c :: s) (d :: t) :=
        .step (.insert [] (c :: s) d) (ihrow.cons d)
      have hreplace : Edits (cost s t + if c = d then 0 else 1) (c :: s) (d :: t) := by
        split
        next heq => exact heq ▸ (ih t).cons c
        next => exact .step (.substitute [] s c d) ((ih t).cons d)
      rw [cost_cons_cons]
      exact (hreplace.min hdelete).min hinsert

theorem cost_cons_le (c : Char) (s t : List Char) : cost (c :: s) t ≤ cost s t + 1 := by
  cases t with
  | nil => simp
  | cons d t =>
    rw [cost_cons_cons]
    omega

theorem cost_le_cons_right (s : List Char) (d : Char) (t : List Char) :
    cost s (d :: t) ≤ cost s t + 1 := by
  cases s with
  | nil => simp
  | cons c s =>
    rw [cost_cons_cons]
    omega

theorem cost_le_cons (c : Char) (s t : List Char) : cost s t ≤ cost (c :: s) t + 1 := by
  induction t with
  | nil =>
    simp only [cost_nil_right, List.length_cons]
    omega
  | cons d t ih =>
    have hstep := cost_le_cons_right s d t
    rw [cost_cons_cons]
    split <;> omega

theorem cost_substitute (c c' : Char) (s t : List Char) : cost (c :: s) t ≤ cost (c' :: s) t + 1 := by
  induction t with
  | nil =>
    simp only [cost_nil_right, List.length_cons]
    omega
  | cons d t ih =>
    rw [cost_cons_cons, cost_cons_cons]
    split <;> split <;> omega

theorem cost_congr (h : ∀ u, cost s u ≤ cost t u + 1) (c : Char) (u : List Char) :
    cost (c :: s) u ≤ cost (c :: t) u + 1 := by
  induction u with
  | nil =>
    have hnil := h []
    simp only [cost_nil_right, List.length_cons] at hnil ⊢
    omega
  | cons d u ih =>
    have hrest := h u
    have hrow := h (d :: u)
    rw [cost_cons_cons, cost_cons_cons]
    omega

theorem cost_append (h : ∀ u, cost s u ≤ cost t u + 1) (p u : List Char) :
    cost (p ++ s) u ≤ cost (p ++ t) u + 1 := by
  induction p generalizing u with
  | nil => exact h u
  | cons c p ih => exact cost_congr ih c u

theorem Edit.cost_le (h : Edit s t) (u : List Char) : cost s u ≤ cost t u + 1 := by
  cases h with
  | insert p v c => exact cost_append (cost_le_cons c v) p u
  | delete p v c => exact cost_append (cost_cons_le c v) p u
  | substitute p v c d => exact cost_append (cost_substitute c d v) p u

theorem Edits.cost_le (h : Edits n s t) : cost s t ≤ n := by
  induction h with
  | refl s => rw [cost_self]
  | @step n s t u hedit _ ih =>
    have hstep := hedit.cost_le u
    omega

theorem isLeast_cost (s t : List Char) : IsLeast {n | Edits n s t} (cost s t) :=
  ⟨edits_cost s t, fun _ h => h.cost_le⟩

namespace Rows

variable {k : Nat} {target : Vector Char k} {p : List Char} {r : Rows k}

/-- A row that is right up to a place. Rows grow with the ends of the texts, where the recurrence takes texts
apart from the front, so both are turned around. -/
def Holds (target : Vector Char k) (p : List Char) (row : Vector Nat (k + 1)) (upto : Nat) : Prop :=
  ∀ j (hj : j < k + 1), j ≤ upto → row[j] = cost p.reverse (target.toList.take j).reverse

theorem holds_start (target : Vector Char k) : Holds target [] (start k).current k := by
  intro j hj _
  have hlength : min j k = j := by omega
  simp [start, hlength]

theorem fill_spec (hr : Holds target p r.current k) (c : Char) (upto : Nat) (hupto : upto ≤ k) :
    (r.fill target c (p.length + 1) upto hupto).current = r.current ∧
      Holds target (p ++ [c]) (r.fill target c (p.length + 1) upto hupto).spare upto := by
  induction upto with
  | zero =>
    refine ⟨rfl, fun j hj hle => ?_⟩
    obtain rfl : j = 0 := by omega
    simp [fill]
  | succ i ih =>
    obtain ⟨hcurrent, hspare⟩ := ih (by omega)
    refine ⟨hcurrent, fun j hj hle => ?_⟩
    simp only [fill, Vector.getElem_set]
    split
    next heq =>
      subst heq
      have htake : (target.toList.take (i + 1)).reverse = target[i] :: (target.toList.take i).reverse := by
        rw [List.take_succ_eq_append_getElem (by simp; omega), List.reverse_append]
        simp
      have hdiagonal := hr i (by omega) (by omega)
      have hup := hr (i + 1) hj (by omega)
      have hleft := hspare i (by omega) (by omega)
      rw [htake] at hup ⊢
      simp only [hcurrent, hdiagonal, hup, hleft, List.reverse_append, List.reverse_cons,
        List.reverse_nil, List.nil_append, List.singleton_append, cost_cons_cons]
    next hne => exact hspare j hj (by omega)

theorem holds_next (hr : Holds target p r.current k) (c : Char) :
    Holds target (p ++ [c]) (next target r (c, p.length)).current k :=
  (fill_spec hr c k (Nat.le_refl k)).2

theorem holds_foldl (hr : Holds target p r.current k) (rest : List Char) :
    Holds target (p ++ rest) ((rest.zipIdx p.length).foldl (next target) r).current k := by
  induction rest generalizing p r with
  | nil => simpa using hr
  | cons c rest ih =>
    have hrest := ih (holds_next hr c)
    rw [List.zipIdx_cons, List.foldl_cons]
    simpa using hrest

end Rows

theorem distance_eq_cost (a b : String) : distance a b = cost a.toList.reverse b.toList.reverse := by
  have hrow := Rows.holds_foldl (Rows.holds_start b.toList.toArray.toVector) a.toList
  have hlast := hrow _ (Nat.lt_succ_self _) (Nat.le_refl _)
  simpa [distance, Vector.back_eq_getElem] using hlast

variable (a b c : String)

theorem isLeast_distance : IsLeast {n | Edits n a.toList b.toList} (distance a b) := by
  rw [distance_eq_cost]
  simpa only [Edits.reverse_iff] using isLeast_cost a.toList.reverse b.toList.reverse

theorem distance_comm : distance a b = distance b a := by
  have hsame : {n | Edits n a.toList b.toList} = {n | Edits n b.toList a.toList} :=
    Set.ext fun n => ⟨Edits.symm, Edits.symm⟩
  have hleast := isLeast_distance a b
  rw [hsame] at hleast
  exact hleast.unique (isLeast_distance b a)

theorem distance_eq_zero_iff : distance a b = 0 ↔ a = b := by
  obtain ⟨hedits, hleast⟩ := isLeast_distance a b
  constructor
  · intro hzero
    rw [hzero] at hedits
    exact String.toList_inj.mp (Edits.zero_iff.mp hedits)
  · rintro rfl
    exact Nat.le_zero.mp (hleast (Edits.refl a.toList))

theorem distance_triangle : distance a c ≤ distance a b + distance b c :=
  (isLeast_distance a c).2 ((isLeast_distance a b).1.trans (isLeast_distance b c).1)

theorem length_le_length_add_distance : b.length ≤ a.length + distance a b := by
  simpa only [String.length_toList] using (isLeast_distance a b).1.length_le

theorem distance_le_max : distance a b ≤ max a.length b.length := by
  rw [distance_eq_cost]
  simpa only [List.length_reverse, String.length_toList] using
    cost_le_max a.toList.reverse b.toList.reverse

/-- The distance is the least number of edits between two texts. It is a metric, and lies between the
difference and the maximum of the lengths. -/
theorem distance_least : IsLeast {n | Edits n a.toList b.toList} (distance a b) ∧
    distance a b = distance b a ∧ (distance a b = 0 ↔ a = b) ∧
    distance a c ≤ distance a b + distance b c ∧
    max a.length b.length - min a.length b.length ≤ distance a b ∧
    distance a b ≤ max a.length b.length := by
  refine ⟨isLeast_distance a b, distance_comm a b, distance_eq_zero_iff a b, distance_triangle a b c, ?_,
    distance_le_max a b⟩
  have hright := length_le_length_add_distance a b
  have hleft := length_le_length_add_distance b a
  rw [distance_comm b a] at hleft
  omega

example : distance "kitten" "sitting" = 3 := by decide +kernel

end ObjectGraph.EditDistance
