import ObjectGraph.Arena.Basic

namespace ObjectGraph

abbrev Allocations := List Bytes

namespace Allocations

def cut : Bytes → Allocations → Allocations
  | _, [] => []
  | bs, old :: live => bs.take old.length :: cut (bs.drop old.length) live

def layout : Nat → Allocations → List Span
  | _, [] => []
  | offset, bs :: live => ⟨offset, bs.length⟩ :: layout (offset + bs.length) live

variable {live earlier later : Allocations} {offset i : Nat} {bs bs' : Bytes} {s : Span}

theorem layout_append (offset : Nat) (live later : Allocations) :
    layout offset (live ++ later) = layout offset live ++ layout (offset + live.flatten.length) later := by
  induction live generalizing offset with
  | nil => rfl
  | cons bs live ih =>
    rw [List.cons_append, layout, layout, ih, List.cons_append, List.flatten_cons, List.length_append,
      Nat.add_assoc]

theorem layout_replace (h : bs'.length = bs.length) :
    layout offset (earlier ++ bs' :: later) = layout offset (earlier ++ bs :: later) := by
  rw [layout_append, layout_append, layout, layout, h]

theorem layout_cut (h : bs.length = live.flatten.length) :
    layout offset (cut bs live) = layout offset live := by
  induction live generalizing bs offset with
  | nil => rfl
  | cons old live ih =>
    rw [List.flatten_cons, List.length_append] at h
    rw [cut, layout, layout, List.length_take, Nat.min_eq_left (by omega),
      ih (by rw [List.length_drop]; omega)]

theorem flatten_cut (h : bs.length = live.flatten.length) : (cut bs live).flatten = bs := by
  induction live generalizing bs with
  | nil => exact (List.length_eq_zero_iff.mp h).symm
  | cons old live ih =>
    rw [List.flatten_cons, List.length_append] at h
    rw [cut, List.flatten_cons, ih (by rw [List.length_drop]; omega), List.take_append_drop]

theorem layout_bounds (h : s ∈ layout offset live) :
    offset ≤ s.offset ∧ s.offset + s.length ≤ offset + live.flatten.length := by
  induction live generalizing offset with
  | nil => cases h
  | cons bs live ih =>
    rw [List.flatten_cons, List.length_append]
    rcases List.mem_cons.mp h with rfl | h
    · exact ⟨Nat.le_refl _, by dsimp only; omega⟩
    · have := ih h
      omega

theorem layout_disjoint (offset : Nat) (live : Allocations) :
    (layout offset live).Pairwise fun s t => s.offset + s.length ≤ t.offset := by
  induction live generalizing offset with
  | nil => exact .nil
  | cons bs live ih => exact List.pairwise_cons.mpr ⟨fun t ht => (layout_bounds ht).1, ih _⟩

theorem map_layout (offset : Nat) (live : Allocations) (before after : Bytes) (h : before.length = offset) :
    (layout offset live).map (fun s => ((before ++ live.flatten ++ after).drop s.offset).take s.length) =
      live := by
  induction live generalizing before offset with
  | nil => rfl
  | cons bs live ih =>
    have hrest := ih (offset + bs.length) (before ++ bs) (by rw [List.length_append, h])
    simp only [List.append_assoc] at hrest
    simp only [layout, List.map_cons, List.flatten_cons, List.append_assoc, hrest]
    congr 1
    rw [List.drop_left' h, List.take_left]

theorem length_layout (offset : Nat) (live : Allocations) : (layout offset live).length = live.length := by
  induction live generalizing offset with
  | nil => rfl
  | cons bs live ih => rw [layout, List.length_cons, List.length_cons, ih]

theorem getElem?_layout (live : Allocations) (i : Nat) :
    (layout 0 live)[i]? = none ∧ live[i]? = none ∨
      ∃ earlier bs later, live = earlier ++ bs :: later ∧ earlier.length = i ∧ live[i]? = some bs ∧
        (layout 0 live)[i]? = some ⟨earlier.flatten.length, bs.length⟩ := by
  by_cases hi : i < live.length
  · right
    have hlive : live = live.take i ++ live[i] :: live.drop (i + 1) := by
      rw [← List.drop_eq_getElem_cons hi, List.take_append_drop]
    have hlength : (live.take i).length = i := List.length_take_of_le (Nat.le_of_lt hi)
    have hi' : i = (layout 0 (live.take i)).length := by rw [length_layout, hlength]
    refine ⟨live.take i, live[i], live.drop (i + 1), hlive, hlength, List.getElem?_eq_getElem hi, ?_⟩
    calc (layout 0 live)[i]?
        = (layout 0 (live.take i ++ live[i] :: live.drop (i + 1)))[i]? := by rw [← hlive]
      _ = some ⟨0 + (live.take i).flatten.length, live[i].length⟩ := by
          rw [layout_append, List.getElem?_append_right (Nat.le_of_eq hi'.symm), ← hi', Nat.sub_self]
          rfl
      _ = some ⟨(live.take i).flatten.length, live[i].length⟩ := by rw [Nat.zero_add]
  · left
    rw [List.getElem?_eq_none_iff, List.getElem?_eq_none_iff, length_layout]
    omega

end Allocations

end ObjectGraph
