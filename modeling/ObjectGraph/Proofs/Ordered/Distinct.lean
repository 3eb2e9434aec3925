import ObjectGraph.Ordered.Distinct

namespace ObjectGraph.Distinct

open Std (TransOrd LawfulEqOrd)

variable {α : Type} [Ord α] [LawfulEqOrd α]

theorem mem_insert {a b : α} {l : List α} : b ∈ insert a l ↔ b = a ∨ b ∈ l := by
  induction l with
  | nil => simp [insert]
  | cons c l ih =>
    simp only [insert]
    split
    next => rw [List.mem_cons]
    next heq =>
      rw [LawfulEqOrd.eq_of_compare heq, List.mem_cons, or_self_left]
    next => rw [List.mem_cons, ih, List.mem_cons, or_left_comm]

theorem mem_ofList {b : α} {l : List α} : b ∈ ofList l ↔ b ∈ l := by
  induction l with
  | nil => rfl
  | cons a l ih =>
    have hcons : ofList (a :: l) = insert a (ofList l) := rfl
    rw [hcons, mem_insert, ih, List.mem_cons]

variable [TransOrd α]

theorem ascending_insert (a : α) {l : List α} (h : l.Pairwise (compare · · = .lt)) :
    (insert a l).Pairwise (compare · · = .lt) := by
  induction l with
  | nil => exact List.pairwise_singleton ..
  | cons b l ih =>
    obtain ⟨hb, hl⟩ := List.pairwise_cons.mp h
    simp only [insert]
    split
    next hlt =>
      refine List.pairwise_cons.mpr ⟨?_, h⟩
      intro c hc
      rcases List.mem_cons.mp hc with rfl | hc
      · exact hlt
      · exact Std.TransCmp.lt_trans hlt (hb c hc)
    next => exact h
    next hgt =>
      refine List.pairwise_cons.mpr ⟨?_, ih hl⟩
      intro c hc
      rcases mem_insert.mp hc with rfl | hc
      · exact Std.OrientedCmp.lt_of_gt hgt
      · exact hb c hc

theorem ascending_ofList (l : List α) : (ofList l).Pairwise (compare · · = .lt) := by
  induction l with
  | nil => exact List.Pairwise.nil
  | cons a l ih => exact ascending_insert a ih

end ObjectGraph.Distinct
