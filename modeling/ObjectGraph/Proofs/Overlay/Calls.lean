import Mathlib.Data.Set.Card
import ObjectGraph.Proofs.KeyOrder
import ObjectGraph.Proofs.Overlay.Cursor

namespace ObjectGraph

inductive OverlayCall where
  | put (k v : Bytes)
  | putParts (k : Bytes) (parts : List Bytes)
  | remove (k : Bytes)
  | reset

inductive OverlayAnswer where
  | done
  | removed (found : Bool)
  | failed (e : Error)

namespace Overlay

def putCall (o : Overlay) (r : Except Error Overlay) : OverlayAnswer × Overlay :=
  match r with
  | .ok o' => (.done, o')
  | .error e => (.failed e, o)

def call (o : Overlay) : OverlayCall → OverlayAnswer × Overlay
  | .put k v => o.putCall (o.put k v)
  | .putParts k parts => o.putCall (o.putParts k parts)
  | .remove k => (.removed (o.remove k).1, (o.remove k).2)
  | .reset => (.done, o.reset)

def calls (o : Overlay) : List OverlayCall → List OverlayAnswer × Overlay
  | [] => ([], o)
  | c :: cs =>
    let (answers, last) := (o.call c).2.calls cs
    ((o.call c).1 :: answers, last)

def cursorAfter (o : Overlay) (moves : List OverlayMove) : OverlayCursor :=
  moves.foldl OverlayCursor.move (.create o)

end Overlay

/-- The writes since the last reset, the latest first: insertions that found room, and removals. -/
abbrev WriteLog := List (Bytes × Option Bytes)

namespace WriteLog

def find? (order : KeyOrder) (k : Bytes) (log : WriteLog) : Option Entry :=
  match List.find? (fun w => order k w.1 = .eq) log with
  | some (j, some v) => some (j, v)
  | _ => none

def charge : Bytes × Option Bytes → Nat
  | (k, some v) => k.length + v.length
  | (_, none) => 0

def used (log : WriteLog) : Nat := (log.map charge).sum

def classes (order : KeyOrder) (log : WriteLog) : Set (Set Bytes) :=
  {s | ∃ k, (log.find? order k).isSome ∧ s = {j | order k j = .eq}}

def put (capacity : Nat) (k v : Bytes) (log : WriteLog) : OverlayAnswer × WriteLog :=
  if capacity < log.used + k.length + v.length then
    (.failed (.arenaExhausted (k.length + v.length) log.used capacity), log)
  else (.done, (k, some v) :: log)

def call (order : KeyOrder) (capacity : Nat) (log : WriteLog) : OverlayCall → OverlayAnswer × WriteLog
  | .put k v => log.put capacity k v
  | .putParts k parts => log.put capacity k parts.flatten
  | .remove k => (.removed (log.find? order k).isSome, (k, none) :: log)
  | .reset => (.done, [])

def calls (order : KeyOrder) (capacity : Nat) (log : WriteLog) :
    List OverlayCall → List OverlayAnswer × WriteLog
  | [] => ([], log)
  | c :: cs =>
    let (answers, last) := calls order capacity (log.call order capacity c).2 cs
    ((log.call order capacity c).1 :: answers, last)

variable {order : KeyOrder} {j k : Bytes}

theorem used_cons (w : Bytes × Option Bytes) (log : WriteLog) :
    used (w :: log) = charge w + log.used := by
  rw [used, used, List.map_cons, List.sum_cons]

theorem find?_put (v : Bytes) (log : WriteLog) : find? order j ((k, some v) :: log) =
    if order j k = .eq then some (k, v) else log.find? order j := by
  simp only [find?, List.find?_cons]
  by_cases h : order j k = .eq <;> simp [h]

theorem find?_removal (log : WriteLog) : find? order j ((k, none) :: log) =
    if order j k = .eq then none else log.find? order j := by
  simp only [find?, List.find?_cons]
  by_cases h : order j k = .eq <;> simp [h]

end WriteLog

namespace Overlay

open Dictionary (Ascending)
open Std (TransCmp OrientedCmp ReflCmp)

structure Reads (order : KeyOrder) (o : Overlay) (log : WriteLog) : Prop where
  get?_eq : ∀ k, o.get? k = (log.find? order k).map Prod.snd
  size_eq : o.size = (log.classes order).ncard
  size_eq_zero : o.size = 0 ↔ ∀ k, log.find? order k = none
  used_eq : o.quota.used = log.used
  ascending : Ascending order o.entries
  mem_entries : ∀ e, e ∈ o.entries ↔ log.find? order e.1 = some e
  seekFirst : ∀ (moves : List OverlayMove) (n : Nat),
    (OverlayCursor.advance^[n] (o.cursorAfter moves).seekFirst).current? = o.entries[n]?
  seek : ∀ (moves : List OverlayMove) (k : Bytes) (n : Nat),
    (OverlayCursor.advance^[n] ((o.cursorAfter moves).seek k)).current? =
      (o.entries.filter fun e => order e.1 k ≠ .lt)[n]?

structure Logged (order : KeyOrder) (capacity : Nat) (o : Overlay) (log : WriteLog) : Prop where
  valid : o.Valid order
  capacity_eq : o.quota.capacity = capacity
  used_eq : o.quota.used = log.used
  find?_eq : ∀ k, Dictionary.find? order k o.entries = log.find? order k

variable {order : KeyOrder} {capacity : Nat} {o : Overlay} {log : WriteLog}

theorem create_eq_ok {pageSize : Nat} (hpage : pageSize ≠ 0) :
    create order capacity pageSize =
      .ok ⟨order, ⟨min capacity Quota.maxCapacity, 0⟩, Tree.empty, 0⟩ := by
  simp only [create, Quota.create, if_neg hpage]
  rfl

theorem logged_create {pageSize : Nat} (h : create order capacity pageSize = .ok o) :
    o.Logged order (min capacity Quota.maxCapacity) [] := by
  obtain ⟨hvalid, hentries⟩ := create_spec h
  have hpage : pageSize ≠ 0 := by
    rintro rfl
    cases h
  cases (create_eq_ok hpage).symm.trans h
  exact ⟨hvalid, rfl, rfl, fun k => by rw [hentries]; rfl⟩

theorem put_of_room {k v : Bytes} (h : o.quota.used + (k.length + v.length) ≤ o.quota.capacity) :
    ∃ o', o.put k v = .ok o' ∧ o'.quota.capacity = o.quota.capacity ∧
      o'.quota.used = o.quota.used + (k.length + v.length) := by
  simp only [Overlay.put, Quota.take, if_pos h]
  exact ⟨_, rfl, rfl, rfl⟩

theorem put_of_full {k v : Bytes} (h : o.quota.capacity < o.quota.used + (k.length + v.length)) :
    o.put k v = .error (.arenaExhausted (k.length + v.length) o.quota.used o.quota.capacity) := by
  simp only [Overlay.put, Quota.take, if_neg (Nat.not_le_of_lt h)]
  rfl

theorem quota_remove (o : Overlay) (k : Bytes) : (o.remove k).2.quota = o.quota := by
  rw [Overlay.remove]
  split <;> rfl

theorem found_remove (o : Overlay) (k : Bytes) : (o.remove k).1 = (o.find? k).isSome := by
  rw [Overlay.remove]
  split
  next h => rw [h]; rfl
  next h => rw [h]; rfl

section Trans

variable [TransCmp order]

theorem Logged.put (h : o.Logged order capacity log) (k v : Bytes) :
    (o.putCall (o.put k v)).1 = (log.put capacity k v).1 ∧
      (o.putCall (o.put k v)).2.Logged order capacity (log.put capacity k v).2 := by
  obtain rfl := h.capacity_eq
  rw [WriteLog.put, Nat.add_assoc, ← h.used_eq]
  split
  next hfull =>
    rw [put_of_full hfull]
    exact ⟨rfl, h⟩
  next hroom =>
    obtain ⟨o', hput, hcapacity, hused⟩ := put_of_room (Nat.le_of_not_lt hroom)
    obtain ⟨hvalid, hentries⟩ := h.valid.put hput
    rw [hput]
    refine ⟨rfl, hvalid, hcapacity, ?_, fun j => ?_⟩
    · rw [putCall, hused, h.used_eq, WriteLog.used_cons, WriteLog.charge, Nat.add_comm]
    · rw [putCall, hentries, Dictionary.find?_insert h.valid.ascending, WriteLog.find?_put, h.find?_eq]

theorem Logged.remove (h : o.Logged order capacity log) (k : Bytes) :
    (o.remove k).1 = (log.find? order k).isSome ∧
      (o.remove k).2.Logged order capacity ((k, none) :: log) := by
  obtain ⟨hvalid, hentries⟩ := h.valid.remove k
  have hquota := o.quota_remove k
  refine ⟨?_, hvalid, hquota ▸ h.capacity_eq, ?_, fun j => ?_⟩
  · rw [found_remove, h.valid.find?_eq, h.find?_eq]
  · rw [hquota, h.used_eq, WriteLog.used_cons, WriteLog.charge, Nat.zero_add]
  · rw [hentries, Dictionary.find?_erase h.valid.ascending, WriteLog.find?_removal, h.find?_eq]

omit [TransCmp order] in
theorem Logged.reset (h : o.Logged order capacity log) : o.reset.Logged order capacity [] :=
  ⟨h.valid.reset.1, h.capacity_eq, rfl, fun k => by rw [h.valid.reset.2]; rfl⟩

theorem Logged.call (h : o.Logged order capacity log) (c : OverlayCall) :
    (o.call c).1 = (log.call order capacity c).1 ∧
      (o.call c).2.Logged order capacity (log.call order capacity c).2 := by
  cases c with
  | put k v => exact h.put k v
  | putParts k parts => exact h.put k parts.flatten
  | remove k => exact ⟨congrArg _ (h.remove k).1, (h.remove k).2⟩
  | reset => exact ⟨rfl, h.reset⟩

theorem Logged.calls (h : o.Logged order capacity log) (cs : List OverlayCall) :
    (o.calls cs).1 = (log.calls order capacity cs).1 ∧
      (o.calls cs).2.Logged order capacity (log.calls order capacity cs).2 := by
  induction cs generalizing o log with
  | nil => exact ⟨rfl, h⟩
  | cons c cs ih =>
    obtain ⟨hanswer, hlogged⟩ := h.call c
    obtain ⟨hanswers, hlast⟩ := ih hlogged
    exact ⟨congrArg₂ _ hanswer hanswers, hlast⟩

theorem Logged.mem_entries (h : o.Logged order capacity log) (e : Entry) :
    e ∈ o.entries ↔ log.find? order e.1 = some e := by
  rw [← h.find?_eq, Dictionary.find?_eq_some_iff h.valid.ascending]
  simp [@ReflCmp.compare_self _ order]

theorem Logged.ncard_classes (h : o.Logged order capacity log) :
    (log.classes order).ncard = o.size := by
  have himage : log.classes order = (fun e : Entry => {j | order e.1 j = .eq}) '' {e | e ∈ o.entries} := by
    ext s
    constructor
    · rintro ⟨k, hk, rfl⟩
      obtain ⟨e, he⟩ := Option.isSome_iff_exists.mp hk
      obtain ⟨hmem, hke⟩ := Dictionary.mem_and_eq_of_find? ((h.find?_eq k).trans he)
      refine ⟨e, hmem, Set.ext fun j => ?_⟩
      rw [Set.mem_ofPred_eq, Set.mem_ofPred_eq, TransCmp.congr_left hke]
    · rintro ⟨e, he, rfl⟩
      exact ⟨e.1, by rw [(h.mem_entries e).mp he]; rfl, rfl⟩
  have hinj : Set.InjOn (fun e : Entry => {j | order e.1 j = .eq}) {e | e ∈ o.entries} := by
    intro e he e' he' hsame
    have heq : e'.1 ∈ {j | order e.1 j = .eq} := by
      rw [show {j | order e.1 j = .eq} = {j | order e'.1 j = .eq} from hsame]
      exact ReflCmp.compare_self
    have hfind := (Dictionary.find?_eq_some_iff h.valid.ascending).mpr ⟨he', heq⟩
    rw [h.find?_eq, (h.mem_entries e).mp he] at hfind
    exact Option.some.inj hfind
  rw [himage, hinj.ncard_image, ← List.coe_toFinset, Set.ncard_coe_finset,
    List.toFinset_card_of_nodup h.valid.ascending.nodup, h.valid.size_eq]

theorem Logged.size_eq_zero_iff (h : o.Logged order capacity log) :
    o.size = 0 ↔ ∀ k, log.find? order k = none := by
  rw [h.valid.size_eq_zero_iff]
  constructor
  · intro hempty k
    rw [← h.find?_eq, hempty]
    rfl
  · intro hnone
    apply List.eq_nil_iff_forall_not_mem.mpr
    intro e he
    rw [h.mem_entries, hnone] at he
    contradiction

theorem Logged.filter_eq (h : o.Logged order capacity log) (k : Bytes) :
    (o.entries.filter fun e => order e.1 k ≠ .lt) = o.startingAt k := by
  rw [h.valid.startingAt_eq, Dictionary.startingAt_eq_filter h.valid.ascending]

theorem Logged.reads (h : o.Logged order capacity log) : o.Reads order log where
  get?_eq k := by rw [h.valid.get?_eq, Dictionary.get?, h.find?_eq]
  size_eq := h.ncard_classes.symm
  size_eq_zero := h.size_eq_zero_iff
  used_eq := h.used_eq
  ascending := h.valid.ascending
  mem_entries := h.mem_entries
  seekFirst moves n := by
    obtain ⟨hsettled, hremaining⟩ := (o.cursorAfter moves).seekFirst_spec
    rw [hsettled.current?_iterate, hremaining, cursorAfter, OverlayCursor.overlay_moves]
    rfl
  seek moves k n := by
    have hoverlay : (o.cursorAfter moves).overlay = o := OverlayCursor.overlay_moves moves
    have : OrientedCmp (o.cursorAfter moves).overlay.order := by
      rw [hoverlay, h.valid.order_eq]
      infer_instance
    obtain ⟨hsettled, hremaining⟩ := (o.cursorAfter moves).seek_spec k
    rw [hsettled.current?_iterate, hremaining, hoverlay, h.filter_eq]

end Trans

/-- Whatever calls have been made, every answer was the one that the log gives, a refused insertion
included, and all that can be read is read off the log. -/
theorem calls_agree {order : KeyOrder} [TransCmp order] {capacity pageSize : Nat}
    (hpage : pageSize ≠ 0) :
    ∃ o₀, create order capacity pageSize = .ok o₀ ∧ ∀ cs : List OverlayCall,
      (o₀.calls cs).1 = (WriteLog.calls order (min capacity Quota.maxCapacity) [] cs).1 ∧
        (o₀.calls cs).2.Reads order (WriteLog.calls order (min capacity Quota.maxCapacity) [] cs).2 := by
  have hcreate : create order capacity pageSize = .ok _ := create_eq_ok hpage
  refine ⟨_, hcreate, fun cs => ?_⟩
  obtain ⟨hanswers, hlogged⟩ := (logged_create hcreate).calls cs
  exact ⟨hanswers, hlogged.reads⟩

theorem calls_agree_ignoringLast :
    ∃ (o₀ o : Overlay) (log : WriteLog), create KeyOrder.ignoringLast 10 4 = .ok o₀ ∧
      o₀.calls [.put [1, 0] [5], .putParts [1, 9] [[6], [7]], .remove [2, 2], .put [4, 4] [1, 1],
        .put [3, 1] [8]] = ([.done, .done, .removed false, .failed (.arenaExhausted 4 7 10), .done], o) ∧
      log = [([3, 1], some [8]), ([2, 2], none), ([1, 9], some [6, 7]), ([1, 0], some [5])] ∧
      o.Reads KeyOrder.ignoringLast log ∧ o.entries = [([1, 9], [6, 7]), ([3, 1], [8])] ∧
      o.quota.used = 10 ∧ (o.cursorAfter [.seekFirst, .seek [2, 0]]).current? = some ([3, 1], [8]) := by
  let cs : List OverlayCall := [.put [1, 0] [5], .putParts [1, 9] [[6], [7]], .remove [2, 2],
    .put [4, 4] [1, 1], .put [3, 1] [8]]
  obtain ⟨o₀, hcreate, hcalls⟩ := @calls_agree KeyOrder.ignoringLast _ 10 4 (by decide)
  cases hcreate
  exact ⟨_, _, _, rfl, rfl, rfl, (hcalls cs).2, rfl, rfl, rfl⟩

end Overlay

end ObjectGraph
