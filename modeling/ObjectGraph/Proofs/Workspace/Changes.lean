import ObjectGraph.Proofs.Workspace.ReadYourWrites

namespace ObjectGraph

open Dictionary (Ascending)
open Stateful
open Std (OrientedCmp TransCmp)

variable {σ : Type} {t : TableId} {observers : List (Observer σ)} {x x' : WriteTxn} {s s' : σ}
  {table : Table} {e : Entry} {order : KeyOrder}

def Workspace.changes (w : Workspace) (table : Table) : List Change :=
  w.overlay.entries.map (Replay.changeOf table)

def watch (observers : List (Observer σ)) (changes : List Change) : ExceptT Error (StateM σ) Unit :=
  changes.forM fun c => observers.forM fun observer => observer c

namespace Replay

inductive Stops (t : TableId) (observers : List (Observer σ)) (c : Change) (x : WriteTxn) (s s' : σ)
    (cause : Error) : Prop where
  | refused : (observers.forM fun observer => observer c).run s = (.error cause, s') →
      Stops t observers c x s s' cause
  | unwritten {v : Bytes} : (observers.forM fun observer => observer c).run s = (.ok ⟨⟩, s') →
      c.new = some v → x.put t c.key v = .error cause → Stops t observers c x s s' cause

theorem entry_error {cause : Error} (ht : x.working.tables[t]? = some table)
    (h : (entry t observers e).run (x, s) = (.error cause, x', s')) :
    x' = x ∧ Stops t observers (changeOf table e) x s s' cause := by
  rw [entry_run ht, run_bind, announceAll_run] at h
  rcases hseen : (observers.forM fun observer => observer (changeOf table e)).run s with ⟨result, s₁⟩
  rw [hseen] at h
  cases result with
  | error cause' =>
    cases h
    exact ⟨rfl, .refused hseen⟩
  | ok _ =>
    obtain ⟨rfl, rfl, v, hnew, hput⟩ := write_error ht h
    exact ⟨rfl, .unwritten hseen hnew hput⟩

theorem accepted_of_entry (ht : x.working.tables[t]? = some table)
    (h : (entry t observers e).run (x, s) = (.ok ⟨⟩, x', s')) :
    (observers.forM fun observer => observer (changeOf table e)).run s = (.ok ⟨⟩, s') := by
  have hseen := (entry_eq_ok ht h).1
  rw [announceAll_run, Prod.mk.injEq, Prod.mk.injEq] at hseen
  exact Prod.ext hseen.1 hseen.2.2

variable [TransCmp order]

theorem watch_of_entries {es : List Entry} (hes : Ascending order es)
    (ht : x.working.tables[t]? = some table) (htable : table.Valid order)
    (h : (es.forM (entry t observers)).run (x, s) = (.ok ⟨⟩, x', s')) :
    (watch observers (es.map (changeOf table))).run s = (.ok ⟨⟩, s') := by
  induction es generalizing x s table with
  | nil =>
    cases h
    rfl
  | cons e es ih =>
    obtain ⟨_, ⟨y, s₁⟩, hentry, hrest⟩ := run_bind_eq_ok.mp h
    obtain ⟨-, hreplaces⟩ := entry_eq_ok ht hentry
    have hwatch := ih hes.tail (hreplaces.getElem?_self ht) (htable.apply e) hrest
    rw [List.map_congr_left fun _ ha => changeOf_apply htable (hes.head_lt ha)] at hwatch
    exact run_bind_eq_ok.mpr ⟨⟨⟩, s₁, accepted_of_entry ht hentry, hwatch⟩

theorem stops_of_entries {es : List Entry} (hes : Ascending order es)
    (ht : x.working.tables[t]? = some table) (htable : table.Valid order) {cause : Error}
    (h : (es.forM (entry t observers)).run (x, s) = (.error cause, x', s')) :
    ∃ before e after s₁, es = before ++ e :: after ∧
      x.Replaces t (Staged.override table.order table.entries before) x' ∧
      (watch observers (before.map (changeOf table))).run s = (.ok ⟨⟩, s₁) ∧
      Stops t observers (changeOf table e) x' s₁ s' cause := by
  induction es generalizing x s table with
  | nil => cases h
  | cons e es ih =>
    change ((entry t observers e >>= fun _ => es.forM (entry t observers)).run (x, s)) = _ at h
    rw [run_bind] at h
    rcases hentry : (entry t observers e).run (x, s) with ⟨cause' | _, y, s₁⟩
    · rw [hentry] at h
      cases h
      obtain ⟨rfl, hstops⟩ := entry_error ht hentry
      exact ⟨[], e, es, s, rfl, .refl ht, rfl, hstops⟩
    · rw [hentry] at h
      obtain ⟨-, hreplaces⟩ := entry_eq_ok ht hentry
      obtain ⟨before, b, after, s₂, rfl, hreplaces', hwatch, hstops⟩ :=
        ih hes.tail (hreplaces.getElem?_self ht) (htable.apply e) h
      -- the keys yet to come are above the one just written, so they are shown as they were
      have hsame : ∀ a ∈ before ++ b :: after, changeOf _ a = changeOf table a :=
        fun _ ha => changeOf_apply htable (hes.head_lt ha)
      rw [List.map_congr_left fun a ha => hsame a (List.mem_append_left _ ha)] at hwatch
      rw [hsame b (by simp)] at hstops
      exact ⟨e :: before, b, after, s₂, rfl, hreplaces.trans hreplaces',
        run_bind_eq_ok.mpr ⟨⟨⟩, s₁, accepted_of_entry ht hentry, hwatch⟩, hstops⟩

end Replay

structure Amends (order : KeyOrder) (d : List Entry) (changes : List Change) (d' : List Entry) : Prop where
  ascending : Ascending order d'
  find?_of_mem : ∀ c ∈ changes, ∀ k, order k c.key = .eq →
    Dictionary.find? order k d' = c.new.map (c.key, ·)
  find?_of_ne : ∀ k, (∀ c ∈ changes, order k c.key ≠ .eq) →
    Dictionary.find? order k d' = Dictionary.find? order k d

theorem amends_override [TransCmp order] (htable : table.Valid order) {es : List Entry}
    (hes : Ascending order es) : Amends order table.entries (es.map (Replay.changeOf table))
      (Staged.override order table.entries es) where
  ascending := Staged.ascending_override htable.ascending
  find?_of_mem c hc k hk := by
    obtain ⟨e, he, rfl⟩ := List.mem_map.mp hc
    rw [Staged.find?_override htable.ascending hes, (Dictionary.find?_eq_some_iff hes).mpr ⟨he, hk⟩]
    rfl
  find?_of_ne k hk := by
    have hnone : Dictionary.find? order k es = none :=
      (Dictionary.find?_eq_none_iff hes).mpr fun e he => hk _ (List.mem_map_of_mem he)
    rw [Staged.find?_override htable.ascending hes, hnone]

namespace Workspace

def Grounded (order : KeyOrder) (d : List Entry) (w : Workspace) : Prop :=
  ∀ e ∈ w.overlay.entries, Staged.payload? e.2 = none → (Dictionary.get? order e.1 d).isSome

variable [TransCmp order] {w w' : Workspace}

theorem grounded_of_call {call : WorkspaceCall} (hvalid : w.Valid order)
    (hgrounded : w.Grounded order w.base.entries)
    (hrefresh : ∀ base, call = .refresh base → base.entries = w.base.entries)
    (hcall : w.call call = .ok w') :
    w'.base.entries = w.base.entries ∧ w'.Grounded order w.base.entries := by
  cases call with
  | write change =>
    cases change with
    | put k v =>
      obtain ⟨o, ho, rfl⟩ := put_eq_ok hcall
      refine ⟨rfl, fun e he hnone => ?_⟩
      change e ∈ o.entries at he
      rw [(hvalid.overlay.put ho).2, Dictionary.mem_insert hvalid.overlay.ascending] at he
      rcases he with rfl | ⟨he, -⟩
      · contradiction
      · exact hgrounded e he hnone
    | delete k =>
      rcases delete_eq_ok hcall with ⟨hsome, o, ho, rfl⟩ | ⟨-, rfl⟩
      · refine ⟨rfl, fun e he hnone => ?_⟩
        change e ∈ o.entries at he
        rw [(hvalid.overlay.put ho).2, Dictionary.mem_insert hvalid.overlay.ascending] at he
        rcases he with rfl | ⟨he, -⟩
        · rwa [hvalid.base.get?_eq] at hsome
        · exact hgrounded e he hnone
      · refine ⟨rfl, fun e he hnone => ?_⟩
        change e ∈ (w.overlay.remove k).2.entries at he
        rw [(hvalid.overlay.remove k).2, Dictionary.mem_erase hvalid.overlay.ascending] at he
        exact hgrounded e he.1 hnone
  | reset =>
    cases hcall
    refine ⟨rfl, fun e he => ?_⟩
    change e ∈ w.overlay.reset.entries at he
    rw [hvalid.overlay.reset.2] at he
    contradiction
  | refresh base =>
    cases hcall
    exact ⟨hrefresh base rfl, hgrounded⟩

theorem grounded_of_run {calls : List WorkspaceCall} {d : List Entry} (hvalid : w.Valid order)
    (hbase : w.base.entries = d) (hgrounded : w.Grounded order d)
    (hrefresh : ∀ base, .refresh base ∈ calls → base.Valid order ∧ base.entries = d)
    (hrun : w.run calls = .ok w') : w'.Grounded order d := by
  induction calls generalizing w with
  | nil =>
    cases hrun
    exact hgrounded
  | cons call calls ih =>
    rw [run, List.foldlM_cons] at hrun
    obtain ⟨v, hcall, hrun⟩ := Stateful.bind_eq_ok.mp hrun
    subst hbase
    obtain ⟨hbase', hgrounded'⟩ := grounded_of_call hvalid hgrounded
      (fun base hb => (hrefresh base (by simp [hb])).2) hcall
    refine ih (hvalid.call (fun base hb => (hrefresh base (by simp [hb])).1) hcall) hbase' hgrounded'
      (fun base hb => hrefresh base (List.mem_cons_of_mem _ hb)) hrun

theorem entries_of_replay_error {cause : Error}
    (h : (w.replay t observers).run (x, s) = (.error cause, x', s')) :
    (w.overlay.entries.forM (Replay.entry t observers)).run (x, s) = (.error cause, x', s') := by
  rw [replay, run_bind] at h
  rcases hentries : (w.overlay.entries.forM (Replay.entry t observers)).run (x, s) with ⟨_ | _, y⟩
  · rw [hentries] at h
    cases h
    rfl
  · rw [hentries] at h
    cases h

omit [TransCmp order] in
theorem new_of_mem_changes {c : Change} (hc : c ∈ w.changes table) (htable : table.Valid order)
    (hgrounded : w.Grounded order table.entries) : c.old ≠ none ∨ c.new ≠ none := by
  obtain ⟨e, he, rfl⟩ := List.mem_map.mp hc
  by_cases hnew : Staged.payload? e.2 = none
  · left
    have hsome := hgrounded e he hnew
    rw [← htable.get?_eq] at hsome
    exact Option.isSome_iff_ne_none.mp hsome
  · exact .inr hnew

/-- A replay shows each change once, in the order of the keys, with the value that the table had before.
It returns their number and leaves the table with them made; or it stops at one of them, where those
before it were shown and made, and an observer refuses it or it cannot be written. If all that is staged
has been staged over the entries that the table has, each change has something before or after it. -/
theorem replay_shows {order : KeyOrder} [TransCmp order] {base : Table} (hbase : base.Valid order)
    {capacity pageSize : Nat} {w₀ w : Workspace} (hcreate : create base capacity pageSize = .ok w₀)
    {calls : List WorkspaceCall} (hrefresh : ∀ b, .refresh b ∈ calls → b.Valid order)
    (hrun : w₀.run calls = .ok w) (ht : x.working.tables[t]? = some table) (htable : table.Valid order)
    (observers : List (Observer σ)) (s : σ) :
    ((w.changes table).map Change.key).Pairwise (order · · = .lt) ∧
    (∀ n x' s', (w.replay t observers).run (x, s) = (.ok n, x', s') →
      n = w.pending ∧ n = (w.changes table).length ∧
      (watch observers (w.changes table)).run s = (.ok ⟨⟩, s') ∧
      ∃ d, Amends order table.entries (w.changes table) d ∧ x.Replaces t d x') ∧
    (∀ cause x' s', (w.replay t observers).run (x, s) = (.error cause, x', s') →
      ∃ before c after s₁, w.changes table = before ++ c :: after ∧
        (watch observers before).run s = (.ok ⟨⟩, s₁) ∧ Replay.Stops t observers c x' s₁ s' cause ∧
        ∃ d, Amends order table.entries before d ∧ x.Replaces t d x') ∧
    ∀ earlier later w₁, calls = earlier ++ later → w₀.run earlier = .ok w₁ → w₁.pending = 0 →
      w₁.base.entries = table.entries → (∀ b, .refresh b ∈ later → b.entries = table.entries) →
        ∀ c ∈ w.changes table, c.old ≠ none ∨ c.new ≠ none := by
  have hvalid₀ : w₀.Valid order := (create_spec hbase hcreate).1
  have hvalid : w.Valid order := hvalid₀.run hrefresh hrun
  have hstaged := hvalid.overlay.ascending
  refine ⟨?_, ?_, ?_, ?_⟩
  · rw [changes, List.map_map]
    exact List.pairwise_map.mpr hstaged
  · intro n x' s' hreplay
    obtain ⟨hn, hentries, hreplaces⟩ := replay_eq_ok ht hreplay
    rw [htable.order_eq] at hreplaces
    exact ⟨hn.trans hvalid.overlay.size_eq.symm, hn.trans (List.length_map _).symm,
      Replay.watch_of_entries hstaged ht htable hentries, _, amends_override htable hstaged, hreplaces⟩
  · intro cause x' s' hreplay
    obtain ⟨before, e, after, s₁, hentries, hreplaces, hwatch, hstops⟩ :=
      Replay.stops_of_entries hstaged ht htable (entries_of_replay_error hreplay)
    rw [htable.order_eq] at hreplaces
    have hbefore : Ascending order before := by
      rw [hentries] at hstaged
      exact List.Pairwise.sublist (List.sublist_append_left _ _) hstaged
    refine ⟨before.map (Replay.changeOf table), Replay.changeOf table e,
      after.map (Replay.changeOf table), s₁, ?_, hwatch, hstops, _, amends_override htable hbefore, hreplaces⟩
    rw [changes, hentries, List.map_append, List.map_cons]
  · rintro earlier later w₁ rfl hearlier hempty hsame hlater c hc
    have hvalid₁ := hvalid₀.run (fun b hb => hrefresh b (List.mem_append_left _ hb)) hearlier
    rw [run, List.foldlM_append, ← run, hearlier] at hrun
    have hgrounded₁ : w₁.Grounded order table.entries := by
      intro e he
      rw [hvalid₁.pending_eq_zero_iff.mp hempty] at he
      contradiction
    refine new_of_mem_changes hc htable (grounded_of_run hvalid₁ hsame hgrounded₁ ?_ hrun)
    exact fun b hb => ⟨hrefresh b (List.mem_append_right _ hb), hlater b hb⟩

theorem replay_shows_refusal : ∃ (base : Table) (w₀ w : Workspace) (calls : List WorkspaceCall)
    (x x' : WriteTxn) (observer : Observer (List Change)) (cause : Error) (c : Change),
      create base 100 10 = .ok w₀ ∧ w₀.run calls = .ok w ∧
      base.entries = [([1, 1], [10]), ([2, 1], [20])] ∧
      w.changes base = [c, ⟨[2, 2], some [20], none⟩, ⟨[3, 0], none, some [30]⟩] ∧
      c = ⟨[1, 2], some [10], some [11]⟩ ∧
      (w.replay 0 [observer]).run (x, []) = (.error cause, x', [c]) ∧
      (∃ before c' after d, w.changes base = before ++ c' :: after ∧
        Amends KeyOrder.ignoringLast base.entries before d ∧ x.Replaces 0 d x') ∧
      ∀ c ∈ w.changes base, c.old ≠ none ∨ c.new ≠ none := by
  let base : Table := ⟨"remarks", KeyOrder.ignoringLast, [([1, 1], [10]), ([2, 1], [20])]⟩
  have hbase : base.Valid KeyOrder.ignoringLast := ⟨rfl, by decide⟩
  let calls : List WorkspaceCall :=
    [.write (.put [1, 2] [11]), .write (.delete [2, 2]), .write (.put [3, 0] [30])]
  have hcreate : create base 100 10 = .ok _ := rfl
  let x : WriteTxn := ⟨100, [base], 6⟩
  let observer : Observer (List Change) := fun c =>
    if c.new = none then throw (.invalidArgument .zeroPageSize) else modify (· ++ [c])
  have hrefresh : ∀ b, .refresh b ∈ calls → b.Valid KeyOrder.ignoringLast := by
    intro b hb
    simp [calls] at hb
  have htable : x.working.tables[0]? = some base := rfl
  obtain ⟨-, -, hstops, hchanged⟩ := replay_shows hbase hcreate hrefresh rfl htable hbase [observer] []
  obtain ⟨before, c', after, -, hchanges, -, -, d, hamends, hreplaces⟩ := hstops _ _ _ rfl
  exact ⟨base, _, _, calls, x, _, observer, _, _, rfl, rfl, rfl, rfl, rfl, rfl,
    ⟨before, c', after, d, hchanges, hamends, hreplaces⟩,
    hchanged [] calls _ rfl rfl rfl rfl fun b hb => by simp [calls] at hb⟩

end Workspace

end ObjectGraph
