import Mathlib.Logic.Function.Iterate
import ObjectGraph.Proofs.KeyOrder
import ObjectGraph.Proofs.Workspace.Replay
/-!
Every way to read a workspace, and replaying it into a table, agree with one reference map, whatever
calls have led to the workspace. Under one pinned version the map is what the same writes would have
made of that version.
-/

namespace ObjectGraph

open Dictionary (Ascending)
open Std (TransCmp)

inductive KeyWrite where
  | put (k v : Bytes)
  | delete (k : Bytes)

def KeyWrite.apply (order : KeyOrder) (d : List Entry) : KeyWrite → List Entry
  | put k v => Dictionary.insert order k v d
  | delete k => Dictionary.erase order k d

inductive WorkspaceCall where
  | write (change : KeyWrite)
  | reset
  | refresh (base : Table)

def WorkspaceCall.apply (order : KeyOrder) : Table × List Entry → WorkspaceCall → Table × List Entry
  | (base, staged), .write (.put k v) => (base, Dictionary.insert order k (Staged.upsert v) staged)
  | (base, staged), .write (.delete k) =>
    if (Dictionary.find? order k base.entries).isSome then
      (base, Dictionary.insert order k Staged.tombstone staged)
    else (base, Dictionary.erase order k staged)
  | (base, _), .reset => (base, [])
  | (_, staged), .refresh base => (base, staged)

inductive CursorMove where
  | seekFirst
  | seek (k : Bytes)
  | advance

def MergedCursor.move (c : MergedCursor) : CursorMove → MergedCursor
  | .seekFirst => c.seekFirst
  | .seek k => c.seek k
  | .advance => c.advance

namespace Workspace

def call (w : Workspace) : WorkspaceCall → Except Error Workspace
  | .write (.put k v) => w.put k v
  | .write (.delete k) => w.delete k
  | .reset => .ok w.reset
  | .refresh base => .ok (w.refresh base)

def run (w : Workspace) (calls : List WorkspaceCall) : Except Error Workspace := calls.foldlM call w

def cursorAfter (w : Workspace) (moves : List CursorMove) : MergedCursor :=
  moves.foldl MergedCursor.move w.cursor

structure Reads (order : KeyOrder) (w : Workspace) (m : List Entry) : Prop where
  ascending : Ascending order m
  get?_eq : ∀ k, w.get? k = Dictionary.get? order k m
  contains_eq : ∀ k, w.contains k = (Dictionary.get? order k m).isSome
  seekFirst : ∀ (moves : List CursorMove) (n : Nat),
    (MergedCursor.advance^[n] (w.cursorAfter moves).seekFirst).current? = m[n]?
  seek : ∀ (moves : List CursorMove) (k : Bytes) (n : Nat),
    (MergedCursor.advance^[n] ((w.cursorAfter moves).seek k)).current? =
      (Dictionary.startingAt order k m)[n]?

/-- Replayed into a transaction that holds the entries of the pinned version, the staged entries make a
map of them, touch no other table and are counted; with room for their bytes and no observer to object
they are replayed. -/
def Publishes (w : Workspace) (m : List Entry) : Prop :=
  ∀ (σ : Type) (t : TableId) (observers : List (Observer σ)) (x : WriteTxn) (s : σ) (table : Table),
    x.working.tables[t]? = some table → table.order = w.base.order → table.entries = w.base.entries →
    (∀ n x' s', (w.replay t observers).run (x, s) = (.ok n, x', s') →
      n = w.pending ∧ x'.working.tables[t]? = some (table.withEntries m) ∧
        ∀ u ≠ t, x'.working.tables[u]? = x.working.tables[u]?) ∧
    (x.working.size + totalSize w.overlay.entries ≤ x.mapSize →
      ∃ x', (w.replay t ([] : List (Observer σ))).run (x, s) = (.ok w.pending, x', s))

end Workspace

namespace Position

def Settled (p : Position) : Prop := p.current? = none → p.source = .exhausted

theorem settled_settle (order : KeyOrder) (base staged : List Entry) :
    (settle order base staged).Settled := by
  fun_induction settle order base staged <;> simp_all [Settled, current?]

theorem Settled.advance {p : Position} (h : p.Settled) (order : KeyOrder) :
    (p.advance order).Settled := by
  rw [Position.advance]
  split
  · exact settled_settle _ _ _
  · exact settled_settle _ _ _
  · exact settled_settle _ _ _
  · exact h

theorem Settled.current?_iterate {p : Position} (h : p.Settled) (order : KeyOrder) (n : Nat) :
    ((Position.advance order)^[n] p).current? = (p.remaining order)[n]? := by
  induction n generalizing p with
  | zero =>
    cases hp : p.current? with
    | none => simp [hp, remaining_of_exhausted hp]
    | some e => simp [hp, remaining_of_current? hp]
  | succ n ih =>
    rw [Function.iterate_succ_apply, ih (h.advance order)]
    cases hp : p.current? with
    | none =>
      have hend : p.advance order = p := by simp [Position.advance, h hp]
      simp [hend, remaining_of_exhausted hp]
    | some e => rw [remaining_of_current? hp, List.getElem?_cons_succ]

end Position

namespace MergedCursor

variable {c : MergedCursor}

theorem current?_iterate (h : c.position.Settled) (n : Nat) :
    (advance^[n] c).current? = c.remaining[n]? := by
  have hposition : (advance^[n] c).position =
      (Position.advance c.overlay.order)^[n] c.position := by
    induction n generalizing c with
    | zero => rfl
    | succ n ih =>
      rw [Function.iterate_succ_apply, Function.iterate_succ_apply]
      exact ih (h.advance _)
  rw [current?, hposition, h.current?_iterate, remaining]

theorem foldl_move (moves : List CursorMove) :
    (moves.foldl move c).base = c.base ∧ (moves.foldl move c).overlay = c.overlay := by
  induction moves generalizing c with
  | nil => exact ⟨rfl, rfl⟩
  | cons m moves ih =>
    rw [List.foldl_cons]
    cases m <;> exact ih

end MergedCursor

namespace Workspace

variable {order : KeyOrder} {w w' : Workspace}

theorem seekFirst_cursorAfter (w : Workspace) (moves : List CursorMove) :
    (w.cursorAfter moves).seekFirst = w.cursor.seekFirst := by
  obtain ⟨hbase, hoverlay⟩ := MergedCursor.foldl_move (c := w.cursor) moves
  simp only [cursorAfter, MergedCursor.seekFirst, hbase, hoverlay]

theorem seek_cursorAfter (w : Workspace) (moves : List CursorMove) (k : Bytes) :
    (w.cursorAfter moves).seek k = w.cursor.seek k := by
  obtain ⟨hbase, hoverlay⟩ := MergedCursor.foldl_move (c := w.cursor) moves
  simp only [cursorAfter, MergedCursor.seek, hbase, hoverlay]

variable [TransCmp order]

theorem Valid.reads (h : w.Valid order) : w.Reads order w.view where
  ascending := h.ascending_view
  get?_eq := h.get?_eq
  contains_eq k := by rw [h.contains_eq, Dictionary.isSome_get?]
  seekFirst moves n := by
    rw [seekFirst_cursorAfter, MergedCursor.current?_iterate (Position.settled_settle _ _ _),
      h.remaining_seekFirst]
  seek moves k n := by
    rw [seek_cursorAfter, MergedCursor.current?_iterate (Position.settled_settle _ _ _),
      h.remaining_seek]

omit [TransCmp order] in
theorem Valid.publishes (h : w.Valid order) : w.Publishes w.view := by
  intro σ t observers x s table ht horder hentries
  refine ⟨fun n x' s' hrun => ?_, fun hroom => ?_⟩
  · obtain ⟨hn, -, hreplaces⟩ := replay_eq_ok ht hrun
    refine ⟨hn.trans h.overlay.size_eq.symm, ?_, fun u hu => hreplaces.getElem?_ne hu⟩
    rw [hreplaces.getElem?_self ht, horder, hentries, view]
  · obtain ⟨x', hrun⟩ := Replay.entries_isOk (s := s) ht hroom
    refine ⟨x', Stateful.run_bind_eq_ok.mpr ⟨⟨⟩, _, hrun, ?_⟩⟩
    rw [pending, h.overlay.size_eq]
    rfl

theorem Valid.call (h : w.Valid order) {c : WorkspaceCall}
    (hc : ∀ base, c = .refresh base → base.Valid order) (hcall : w.call c = .ok w') :
    w'.Valid order := by
  cases c with
  | write change =>
    cases change with
    | put k v => exact (h.put hcall).1
    | delete k => exact (h.delete hcall).1
  | reset =>
    cases hcall
    exact h.reset.1
  | refresh base =>
    cases hcall
    exact h.refresh (hc base rfl)

theorem Valid.run (h : w.Valid order) {calls : List WorkspaceCall}
    (hc : ∀ base, .refresh base ∈ calls → base.Valid order) (hrun : w.run calls = .ok w') :
    w'.Valid order := by
  induction calls generalizing w with
  | nil =>
    cases hrun
    exact h
  | cons c calls ih =>
    rw [Workspace.run, List.foldlM_cons] at hrun
    obtain ⟨v, hv, hrest⟩ := Stateful.bind_eq_ok.mp hrun
    refine ih (h.call (fun base hb => hc base ?_) hv) (fun base hb => hc base ?_) hrest
    · simp [hb]
    · exact List.mem_cons_of_mem _ hb

theorem Valid.held_after_call (h : w.Valid order) {c : WorkspaceCall} (hcall : w.call c = .ok w') :
    (w'.base, w'.overlay.entries) = c.apply order (w.base, w.overlay.entries) := by
  cases c with
  | write change =>
    cases change with
    | put k v =>
      obtain ⟨o, ho, rfl⟩ := put_eq_ok hcall
      exact congrArg (Prod.mk w.base) (h.overlay.put ho).2
    | delete k =>
      have hheld : (w.base.get? k).isSome = (Dictionary.find? order k w.base.entries).isSome := by
        rw [h.base.get?_eq, Dictionary.isSome_get?]
      rcases delete_eq_ok hcall with ⟨hsome, o, ho, rfl⟩ | ⟨hnone, rfl⟩
      · rw [WorkspaceCall.apply, if_pos (hheld ▸ hsome)]
        exact congrArg (Prod.mk w.base) (h.overlay.put ho).2
      · rw [WorkspaceCall.apply, if_neg (by simp [← hheld, hnone])]
        exact congrArg (Prod.mk w.base) (h.overlay.remove k).2
  | reset =>
    cases hcall
    exact congrArg (Prod.mk w.base) h.overlay.reset.2
  | refresh base =>
    cases hcall
    rfl

theorem Valid.held_after_run (h : w.Valid order) {calls : List WorkspaceCall}
    (hc : ∀ base, .refresh base ∈ calls → base.Valid order) (hrun : w.run calls = .ok w') :
    (w'.base, w'.overlay.entries) =
      calls.foldl (WorkspaceCall.apply order) (w.base, w.overlay.entries) := by
  induction calls generalizing w with
  | nil =>
    cases hrun
    rfl
  | cons c calls ih =>
    rw [Workspace.run, List.foldlM_cons] at hrun
    obtain ⟨v, hv, hrest⟩ := Stateful.bind_eq_ok.mp hrun
    have hvalid : v.Valid order := h.call (fun base hb => hc base (by simp [hb])) hv
    rw [List.foldl_cons, ← h.held_after_call hv]
    exact ih hvalid (fun base hb => hc base (List.mem_cons_of_mem _ hb)) hrest

theorem Valid.run_writes (h : w.Valid order) {writes : List KeyWrite}
    (hrun : w.run (writes.map .write) = .ok w') :
    w'.base = w.base ∧ w'.view = writes.foldl (KeyWrite.apply order) w.view := by
  induction writes generalizing w with
  | nil =>
    cases hrun
    exact ⟨rfl, rfl⟩
  | cons change writes ih =>
    rw [List.map_cons, Workspace.run, List.foldlM_cons] at hrun
    obtain ⟨v, hv, hrest⟩ := Stateful.bind_eq_ok.mp hrun
    obtain ⟨hvalid, hbase, hview⟩ : v.Valid order ∧ v.base = w.base ∧
        v.view = change.apply order w.view := by
      cases change with
      | put k b => exact h.put hv
      | delete k => exact h.delete hv
    obtain ⟨hbase', hview'⟩ := ih hvalid hrest
    exact ⟨hbase'.trans hbase, by rw [hview', hview, List.foldl_cons]⟩

/-- Point reads, cursors and replay agree on what the calls have made of the pinned version: a key
that is staged is there with its payload or not at all, every other one as in that version. Since the
overlay was last empty, writes have had the effect that they have on a table. The version that is
pinned, what is staged over it and its count are as the calls have left them. -/
theorem run_agrees {order : KeyOrder} [TransCmp order] {base : Table} (hbase : base.Valid order)
    {capacity pageSize : Nat} {w₀ w : Workspace} (hcreate : create base capacity pageSize = .ok w₀)
    {calls : List WorkspaceCall} (hrefresh : ∀ t, .refresh t ∈ calls → t.Valid order)
    (hrun : w₀.run calls = .ok w) :
    w.Reads order w.view ∧ w.Publishes w.view ∧
      (∀ k, Dictionary.find? order k w.view =
        match Dictionary.find? order k w.overlay.entries with
        | some e => (Staged.payload? e.2).map (e.1, ·)
        | none => Dictionary.find? order k w.base.entries) ∧
      (∀ (earlier : List WorkspaceCall) (writes : List KeyWrite) (w₁ : Workspace),
        calls = earlier ++ writes.map .write → w₀.run earlier = .ok w₁ → w₁.pending = 0 →
          w.view = writes.foldl (KeyWrite.apply order) w.base.entries) ∧
      (w.base, w.overlay.entries) = calls.foldl (WorkspaceCall.apply order) (base, []) ∧
      w.pending = w.overlay.entries.length := by
  obtain ⟨hvalid₀, hbase₀, hstaged₀⟩ := create_spec hbase hcreate
  have hvalid : w.Valid order := hvalid₀.run hrefresh hrun
  have hheld := hvalid₀.held_after_run hrefresh hrun
  rw [hbase₀, hstaged₀] at hheld
  refine ⟨hvalid.reads, hvalid.publishes, hvalid.find?_view, ?_, hheld, hvalid.overlay.size_eq⟩
  rintro earlier writes w₁ rfl hearlier hempty
  have hvalid₁ : w₁.Valid order :=
    hvalid₀.run (fun t ht => hrefresh t (List.mem_append_left _ ht)) hearlier
  rw [run, List.foldlM_append, ← run, hearlier] at hrun
  obtain ⟨hsame, hview⟩ := hvalid₁.run_writes hrun
  rw [hview, hsame, view_of_entries_eq_nil (hvalid₁.pending_eq_zero_iff.mp hempty)]

theorem run_agrees_ignoringLast :
    ∃ (base : Table) (w₀ w : Workspace) (calls : List WorkspaceCall),
      base.Valid KeyOrder.ignoringLast ∧ create base 100 10 = .ok w₀ ∧ w₀.run calls = .ok w ∧
        base.entries = [([1, 1], [10]), ([2, 1], [20])] ∧ w.view = [([1, 2], [11]), ([3, 0], [30])] ∧
        w.Reads KeyOrder.ignoringLast w.view ∧ w.Publishes w.view := by
  let base : Table := ⟨"remarks", KeyOrder.ignoringLast, [([1, 1], [10]), ([2, 1], [20])]⟩
  have hbase : base.Valid KeyOrder.ignoringLast := ⟨rfl, by decide⟩
  let calls : List WorkspaceCall := [.write (.put [4, 0] [40]), .reset, .refresh base,
    .write (.put [1, 2] [11]), .write (.delete [2, 2]), .write (.put [3, 0] [30])]
  have hrefresh : ∀ t, .refresh t ∈ calls → t.Valid KeyOrder.ignoringLast := by
    intro t ht
    obtain rfl : t = base := by simpa [calls] using ht
    exact hbase
  have hcreate : create base 100 10 = .ok _ := rfl
  have hagrees := run_agrees hbase hcreate hrefresh rfl
  exact ⟨base, _, _, calls, hbase, rfl, rfl, rfl, rfl, hagrees.1, hagrees.2.1⟩

end Workspace

end ObjectGraph
