import Mathlib.Logic.Function.Iterate
import ObjectGraph.Overlay.Cursor
import ObjectGraph.Proofs.Overlay.Contents

namespace ObjectGraph

inductive OverlayMove where
  | seekFirst
  | seek (k : Bytes)
  | advance

namespace OverlayCursor

open Std (OrientedCmp)

def move (c : OverlayCursor) : OverlayMove → OverlayCursor
  | .seekFirst => c.seekFirst
  | .seek k => c.seek k
  | .advance => c.advance

def Settled (c : OverlayCursor) : Prop := ∀ es ∈ c.leaves.head?, c.slot < es.length

def remaining (c : OverlayCursor) : List Entry :=
  match c.leaves with
  | [] => []
  | es :: later => es.drop c.slot ++ later.flatten

@[simp] theorem remaining_nil (o : Overlay) (n : Nat) : remaining ⟨o, [], n⟩ = [] := rfl

@[simp] theorem remaining_cons (o : Overlay) (es : List Entry) (later : List (List Entry)) (n : Nat) :
    remaining ⟨o, es :: later, n⟩ = es.drop n ++ later.flatten := rfl

theorem remaining_zero (o : Overlay) (leaves : List (List Entry)) :
    remaining ⟨o, leaves, 0⟩ = leaves.flatten := by cases leaves <;> simp

variable {c : OverlayCursor}

theorem skipExhausted_spec (o : Overlay) (leaves : List (List Entry)) (n : Nat) :
    (skipExhausted o leaves n).overlay = o ∧ (skipExhausted o leaves n).Settled ∧
      (skipExhausted o leaves n).remaining = remaining ⟨o, leaves, n⟩ := by
  induction leaves generalizing n with
  | nil => simp [skipExhausted, Settled]
  | cons es later ih =>
    rw [skipExhausted]
    split
    next hn => simpa [Settled] using hn
    next hn =>
      obtain ⟨hoverlay, hsettled, hremaining⟩ := ih 0
      refine ⟨hoverlay, hsettled, hremaining.trans ?_⟩
      rw [remaining_zero, remaining_cons, List.drop_eq_nil_of_le (Nat.le_of_not_lt hn),
        List.nil_append]

theorem overlay_seek (c : OverlayCursor) (k : Bytes) : (c.seek k).overlay = c.overlay := by
  rw [seek]
  split
  · rfl
  · exact (skipExhausted_spec _ _ _).1

theorem overlay_move (c : OverlayCursor) (m : OverlayMove) : (c.move m).overlay = c.overlay := by
  cases m with
  | seekFirst => exact (skipExhausted_spec _ _ _).1
  | seek k => exact c.overlay_seek k
  | advance =>
    rw [move, advance]
    split
    · rfl
    · exact (skipExhausted_spec _ _ _).1

theorem overlay_moves (moves : List OverlayMove) : (moves.foldl move c).overlay = c.overlay := by
  induction moves generalizing c with
  | nil => rfl
  | cons m moves ih => rw [List.foldl_cons, ih, overlay_move]

theorem Settled.current?_eq (h : c.Settled) : c.current? = c.remaining.head? := by
  obtain ⟨o, leaves, n⟩ := c
  cases leaves with
  | nil => rfl
  | cons es later =>
    have hn : n < es.length := h es rfl
    rw [remaining_cons, List.head?_append, List.head?_drop, List.getElem?_eq_getElem hn, Option.some_or]
    exact List.getElem?_eq_getElem hn

theorem Settled.advance (h : c.Settled) :
    c.advance.Settled ∧ c.advance.remaining = c.remaining.tail := by
  obtain ⟨o, leaves, n⟩ := c
  cases leaves with
  | nil => exact ⟨h, rfl⟩
  | cons es later =>
    have hn : n < es.length := h es rfl
    obtain ⟨-, hsettled, hremaining⟩ := skipExhausted_spec o (es :: later) (n + 1)
    refine ⟨hsettled, hremaining.trans ?_⟩
    rw [remaining_cons, remaining_cons, List.drop_eq_getElem_cons hn, List.cons_append, List.tail_cons]

theorem Settled.current?_iterate (h : c.Settled) (n : Nat) :
    (OverlayCursor.advance^[n] c).current? = c.remaining[n]? := by
  induction n generalizing c with
  | zero => rw [Function.iterate_zero_apply, h.current?_eq, List.head?_eq_getElem?]
  | succ n ih =>
    obtain ⟨hsettled, hremaining⟩ := h.advance
    rw [Function.iterate_succ_apply, ih hsettled, hremaining, List.getElem?_tail]

theorem seekFirst_spec (c : OverlayCursor) :
    c.seekFirst.Settled ∧ c.seekFirst.remaining = c.overlay.entries := by
  obtain ⟨-, hsettled, hremaining⟩ := skipExhausted_spec c.overlay c.overlay.tree.leaves 0
  refine ⟨hsettled, ?_⟩
  rw [seekFirst, hremaining, remaining_zero, Overlay.entries, Tree.entries]

theorem drop_takeWhile_eq_startingAt {order : KeyOrder} [OrientedCmp order] (k : Bytes)
    (es : List Entry) :
    es.drop (es.takeWhile fun e => order e.1 k = .lt).length = Dictionary.startingAt order k es := by
  have hsame : (fun e : Entry => decide (order k e.1 = .gt)) = fun e => decide (order e.1 k = .lt) := by
    funext e
    exact decide_eq_decide.mpr OrientedCmp.gt_iff_lt
  have hsplit : es = (es.takeWhile fun e => order e.1 k = .lt) ++ Dictionary.startingAt order k es := by
    rw [Dictionary.startingAt, hsame, List.takeWhile_append_dropWhile]
  calc es.drop (es.takeWhile fun e => order e.1 k = .lt).length
      = ((es.takeWhile fun e => order e.1 k = .lt) ++ Dictionary.startingAt order k es).drop
          (es.takeWhile fun e => order e.1 k = .lt).length := by rw [← hsplit]
    _ = Dictionary.startingAt order k es := List.drop_left

theorem seek_spec [OrientedCmp c.overlay.order] (k : Bytes) :
    (c.seek k).Settled ∧ (c.seek k).remaining = c.overlay.startingAt k := by
  rw [seek, Overlay.startingAt]
  cases c.overlay.tree.leavesFrom c.overlay.order k with
  | nil => simp [create, Settled]
  | cons es later =>
    obtain ⟨-, hsettled, hremaining⟩ := skipExhausted_spec c.overlay (es :: later)
      (es.takeWhile fun e => c.overlay.order e.1 k = .lt).length
    refine ⟨hsettled, hremaining.trans ?_⟩
    rw [remaining_cons, drop_takeWhile_eq_startingAt]

end OverlayCursor

end ObjectGraph
