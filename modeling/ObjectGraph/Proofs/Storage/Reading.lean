import Mathlib.Data.List.Basic
import Mathlib.Logic.Function.Iterate
import ObjectGraph.Proofs.Ordered.Dictionary
import ObjectGraph.Storage.Reading

namespace ObjectGraph

open Dictionary (Ascending)
open Std (OrientedCmp ReflCmp)

structure Table.Valid (order : KeyOrder) (t : Table) : Prop where
  order_eq : t.order = order
  ascending : Ascending order t.entries

variable {order : KeyOrder}

namespace Table.Valid

variable {t : Table}

theorem find?_eq (h : t.Valid order) (k : Bytes) :
    t.find? k = Dictionary.find? order k t.entries := by rw [Table.find?, h.order_eq]

theorem get?_eq (h : t.Valid order) (k : Bytes) :
    t.get? k = Dictionary.get? order k t.entries := by rw [Table.get?, h.order_eq]

theorem startingAt_eq (h : t.Valid order) (k : Bytes) :
    t.startingAt k = Dictionary.startingAt order k t.entries := by rw [Table.startingAt, h.order_eq]

theorem firstAfter?_eq [OrientedCmp order] (h : t.Valid order) {e : Entry} {d : List Entry}
    (hd : e :: d <:+ t.entries) : t.firstAfter? e.1 = d.head? := by
  obtain ⟨before, hentries⟩ := hd
  have hascending := h.ascending
  rw [← hentries] at hascending
  obtain ⟨-, hrest, hbefore⟩ := List.pairwise_append.mp hascending
  have hlower : ∀ a ∈ before, ¬ order e.1 a.1 = .lt := by
    intro a ha
    exact OrientedCmp.not_lt_of_lt (hbefore a ha e List.mem_cons_self)
  have hself : ¬ order e.1 e.1 = .lt := by simp [@ReflCmp.compare_self _ order]
  rw [firstAfter?, h.order_eq, ← hentries, List.find?_append,
    List.find?_eq_none.mpr (by simpa using hlower), Option.none_or,
    List.find?_cons_of_neg (by simpa using hself)]
  cases d with
  | nil => rfl
  | cons a d =>
    have hnext : order e.1 a.1 = .lt := List.rel_of_pairwise_cons hrest List.mem_cons_self
    rw [List.find?_cons_of_pos (by simpa using hnext), List.head?_cons]

end Table.Valid

inductive TableMove where
  | seekFirst
  | seekLast
  | seek (k : Bytes)
  | advance

namespace TableCursor

def move (c : TableCursor) : TableMove → TableCursor
  | .seekFirst => c.seekFirst
  | .seekLast => c.seekLast
  | .seek k => c.seek k
  | .advance => c.advance

variable {c : TableCursor} {d : List Entry}

theorem table_move (c : TableCursor) (m : TableMove) : (c.move m).table = c.table := by
  cases m with
  | advance =>
    rw [move, advance]
    split <;> rfl
  | _ => rfl

theorem table_moves (moves : List TableMove) : (moves.foldl move c).table = c.table := by
  induction moves generalizing c with
  | nil => rfl
  | cons m moves ih => rw [List.foldl_cons, ih, table_move]

structure Before (d : List Entry) (c : TableCursor) : Prop where
  suffix : d <:+ c.table.entries
  current?_eq : c.current? = d.head?

theorem Before.advance [OrientedCmp order] (h : c.Before d) (hc : c.table.Valid order) :
    c.advance.Before d.tail := by
  have hcurrent := h.current?_eq
  rw [TableCursor.advance]
  cases d with
  | nil =>
    rw [hcurrent]
    exact h
  | cons e d =>
    rw [hcurrent]
    exact ⟨(List.suffix_cons e d).trans h.suffix, hc.firstAfter?_eq h.suffix⟩

theorem Before.current?_iterate [OrientedCmp order] (h : c.Before d) (hc : c.table.Valid order) (n : Nat) :
    (TableCursor.advance^[n] c).current? = d[n]? := by
  induction n generalizing c d with
  | zero => rw [Function.iterate_zero_apply, h.current?_eq, List.head?_eq_getElem?]
  | succ n ih =>
    rw [Function.iterate_succ_apply, ih (h.advance hc) ((c.table_move .advance).symm ▸ hc),
      List.getElem?_tail]

theorem before_create (t : Table) : (create t).Before [] := ⟨List.nil_suffix, rfl⟩

theorem before_seekFirst (c : TableCursor) : c.seekFirst.Before c.table.entries :=
  ⟨List.suffix_refl _, rfl⟩

theorem before_seek (c : TableCursor) (k : Bytes) : (c.seek k).Before (c.table.startingAt k) :=
  ⟨List.dropWhile_suffix _, rfl⟩

theorem before_seekLast (c : TableCursor) : c.seekLast.Before c.table.last := by
  refine ⟨?_, rfl⟩
  change c.table.entries.getLast?.toList <:+ c.table.entries
  cases hlast : c.table.entries.getLast? with
  | none => exact List.nil_suffix
  | some e => exact ⟨c.table.entries.dropLast, List.dropLast_append_getLast? e hlast⟩

end TableCursor

end ObjectGraph
