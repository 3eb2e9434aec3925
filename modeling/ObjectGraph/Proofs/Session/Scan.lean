import ObjectGraph.Proofs.Schema.Ancestry
import ObjectGraph.Proofs.Session.Enumeration
import ObjectGraph.Proofs.Workspace.ReadYourWrites
import ObjectGraph.Session.Scan

namespace ObjectGraph

open Dictionary (Ascending startingAt)

theorem Key.lt_afterOwner {bs next : Bytes} {a : Id} (howner : owner? bs = some a)
    (hnext : afterOwner? a = some next) : compare bs next = .lt := by
  have hin := (owner?_eq_some_iff_interval (le_length_of_owner? howner)).mp howner
  exact hin.2 next hnext

theorem startingAt_afterOwner {passed rest : List Entry} {e : Entry} {a : Id} {next : Bytes}
    (hd : Ascending KeyOrder.lexicographic (passed ++ e :: rest)) (howner : Key.owner? e.1 = some a)
    (hnext : Key.afterOwner? a = some next) :
    startingAt KeyOrder.lexicographic next (passed ++ e :: rest) =
      rest.dropWhile (compare ·.1 next = .lt) := by
  have he := Key.lt_afterOwner howner hnext
  have hbelow : ∀ x ∈ passed ++ [e], KeyOrder.lexicographic next x.1 = .gt := by
    intro x hx
    apply Std.OrientedCmp.gt_of_lt
    rcases List.mem_append.mp hx with hx | hx
    · have hxe := (List.pairwise_append.mp hd).2.2 x hx e List.mem_cons_self
      exact Std.TransCmp.lt_trans hxe he
    · rwa [List.mem_singleton.mp hx]
  rw [List.append_cons, Dictionary.startingAt_append_right hbelow, startingAt]
  congr 1
  funext x
  exact decide_eq_decide.mpr Std.OrientedCmp.gt_iff_lt

variable {schema : Schema} {type owner : Id} {c : MergedCursor} {found : List Id} {e : Entry}

theorem MergedCursor.current?_eq_head? : c.current? = c.remaining.head? := by
  cases hc : c.position.current? with
  | none => rw [current?, remaining, Position.remaining_of_exhausted hc, hc, List.head?_nil]
  | some e => rw [current?, remaining, Position.remaining_of_current? hc, hc, List.head?_cons]

namespace Scan

def EndsWithin (schema : Schema) (type : Id) (n : Nat) (s : Scan) (outcome : Except Error (List Id)) : Prop :=
  ∃ m ≤ n, (step schema type)^[m] s = done outcome

variable {s : Scan} {n : Nat} {outcome : Except Error (List Id)}

theorem endsWithin_done (outcome : Except Error (List Id)) : EndsWithin schema type n (done outcome) outcome :=
  ⟨0, Nat.zero_le n, rfl⟩

theorem EndsWithin.of_step (h : EndsWithin schema type n (step schema type s) outcome) :
    EndsWithin schema type (n + 1) s outcome := by
  obtain ⟨m, hm, hend⟩ := h
  exact ⟨m + 1, Nat.succ_le_succ hm, hend⟩

theorem step_of_owner {isA : Bool} (hcurrent : c.current? = some e) (howner : Key.owner? e.1 = some owner)
    (hisA : entryIsA schema type owner e = .ok isA) :
    step schema type (ahead c found) =
      match Key.afterOwner? owner with
      | none => done (.ok (found ++ if isA then [owner] else []))
      | some next => ahead (c.seek next) (found ++ if isA then [owner] else []) := by
  have hfound : (if isA then found ++ [owner] else found) = found ++ if isA then [owner] else [] := by
    cases isA <;> simp
  cases hnext : Key.afterOwner? owner <;> simp only [step, hcurrent, howner, hisA, hfound, hnext]

end Scan

namespace Workspace

open Scan (EndsWithin)

variable {w : Workspace} {passed : List Entry}

theorem Valid.scan_ends (h : w.Valid KeyOrder.lexicographic) (hseek : ∀ k, c.seek k = w.cursor.seek k)
    (hview : w.view = passed ++ c.remaining) (found : List Id) :
    EndsWithin schema type (c.remaining.length + 1) (.ahead c found)
      ((objectsAmong schema type c.remaining).map (found ++ ·)) := by
  -- each seek leaves fewer entries ahead of the cursor
  induction hlength : c.remaining.length using Nat.strongRecOn generalizing c passed found with
  | _ n ih =>
    apply EndsWithin.of_step
    have hcurrent := c.current?_eq_head?
    cases hremaining : c.remaining with
    | nil =>
      rw [hremaining, List.head?_nil] at hcurrent
      rw [objectsAmong, Except.map, List.append_nil]
      simp only [Scan.step, hcurrent]
      exact Scan.endsWithin_done _
    | cons e rest =>
      rw [hremaining, List.head?_cons] at hcurrent
      cases howner : Key.owner? e.1 with
      | none =>
        rw [objectsAmong]
        simp only [Scan.step, hcurrent, howner]
        exact Scan.endsWithin_done _
      | some owner =>
        cases hisA : entryIsA schema type owner e with
        | error cause =>
          rw [objectsAmong]
          simp only [Scan.step, hcurrent, howner, hisA]
          exact Scan.endsWithin_done _
        | ok isA =>
          rw [Scan.step_of_owner hcurrent howner hisA, objectsAmong_cons howner hisA]
          cases hnext : Key.afterOwner? owner with
          | none => exact Scan.endsWithin_done _
          | some next =>
            dsimp only
            -- the seek leaves what the other enumeration keeps of the list
            have hrest : (c.seek next).remaining = rest.dropWhile (compare ·.1 next = .lt) := by
              rw [hremaining] at hview
              rw [hseek, h.remaining_seek, hview]
              exact startingAt_afterOwner (hview ▸ h.ascending_view) howner hnext
            obtain ⟨skipped, hskipped⟩ := List.dropWhile_suffix (compare ·.1 next = .lt) (l := rest)
            have hshorter : (c.seek next).remaining.length < n := by
              rw [hrest, ← hlength, hremaining]
              exact Nat.lt_succ_of_le (List.dropWhile_suffix _).length_le
            have hview' : w.view = (passed ++ e :: skipped) ++ (c.seek next).remaining := by
              rw [hview, hremaining, hrest, List.append_assoc, List.cons_append, hskipped]
            obtain ⟨m, hm, hend⟩ :=
              ih _ hshorter (c := c.seek next) hseek hview' (found ++ if isA then [owner] else []) rfl
            refine ⟨m, by omega, hend.trans (congrArg Scan.done ?_)⟩
            rw [hrest]
            cases objectsAmong schema type (rest.dropWhile (compare ·.1 next = .lt)) with
            | error cause => rfl
            | ok ids => exact congrArg Except.ok (List.append_assoc ..)

end Workspace

namespace Session

open Scan (EndsWithin)

variable {s : Session}

theorem scan_ends (h : s.workspace.Valid KeyOrder.lexicographic) (type : Id) :
    EndsWithin s.catalog.schema type (s.workspace.entries.length + 1) (s.scan type) (s.objects type) := by
  rw [scan, objects]
  split
  · exact Scan.endsWithin_done _
  · have hfirst : s.workspace.view = [] ++ s.workspace.cursor.seekFirst.remaining := h.remaining_seekFirst.symm
    have hends : EndsWithin s.catalog.schema type _ (.ahead s.workspace.cursor.seekFirst []) _ :=
      h.scan_ends (c := s.workspace.cursor.seekFirst) (fun _ => rfl) hfirst []
    have hnil (outcome : Except Error (List Id)) : outcome.map ([] ++ ·) = outcome := by cases outcome <;> rfl
    rwa [hnil] at hends

/-- Whatever a session has staged over whatever is committed, where visible keys have the lengths of keys
and those of objects hold a type, the loop ends with the objects of a type in ascending order. It misses
none, and needs no object at the head of the records of an owner. -/
theorem scan_finds_objects {base : Table} (hbase : base.Valid KeyOrder.lexicographic)
    {capacity pageSize : Nat} {w : Workspace} (hcreate : Workspace.create base capacity pageSize = .ok w)
    {calls : List WorkspaceCall} (hrefresh : ∀ t, .refresh t ∈ calls → t.Valid KeyOrder.lexicographic)
    (hrun : w.run calls = .ok s.workspace)
    (hlength : ∀ e ∈ s.workspace.entries,
      e.1.length = 16 ∧ e.2.length = 16 ∨ e.1.length = 32 ∨ e.1.length = 64)
    {type : Id} (htype : (s.catalog.schema.type? type).isSome) :
    ∃ ids, EndsWithin s.catalog.schema type (s.workspace.entries.length + 1) (s.scan type) (.ok ids) ∧
      s.objects type = .ok ids ∧ ids.Pairwise (compare · · = .lt) ∧
      ∀ a, a ∈ ids ↔ ∃ t : Id, s.get? (.object a) = some t.bytes ∧ s.catalog.schema.Inherits t type := by
  have hvalid : s.workspace.Valid KeyOrder.lexicographic :=
    (Workspace.create_spec hbase hcreate).1.run hrefresh hrun
  have hends := scan_ends hvalid type
  rw [hvalid.entries_eq] at hlength
  have hkeyed : Keyed s.workspace.view := by
    intro e he
    exact Key.exists_bytes_eq ((hlength e he).imp_left And.left)
  have htyped : ∀ (a : Id) v, (a.bytes, v) ∈ s.workspace.view → ∃ t : Id, v = t.bytes := by
    intro a v ha
    have hv : v.length = 16 := by
      have h := hlength _ ha
      simp only [a.length_bytes] at h
      omega
    exact ⟨⟨v, hv⟩, rfl⟩
  obtain ⟨ids, hids, hascending, hmem⟩ :=
    objectsAmong_spec s.catalog.schema type hvalid.ascending_view hkeyed htyped
  have hobjects : s.objects type = .ok ids := by
    rw [objects, if_neg (by simpa [Option.isSome_iff_ne_none] using htype), hvalid.entries_eq, hids]
  refine ⟨ids, hobjects ▸ hends, hobjects, hascending, fun a => ?_⟩
  rw [hmem]
  apply exists_congr
  intro t
  rw [Schema.isA_iff_inherits, get?, hvalid.get?_eq, Key.bytes,
    Dictionary.get?_eq_some_iff hvalid.ascending_view]

theorem scan_finds_last_object : ∃ (base : Table) (calls : List WorkspaceCall) (w : Workspace) (s : Session),
    let last : Id := Id.ofNat (1 <<< 128 - 1)
    base.Valid KeyOrder.lexicographic ∧ Workspace.create base 1000 100 = .ok w ∧
      w.run calls = .ok s.workspace ∧ s.workspace.entries.map Prod.fst =
        [(Id.ofNat 1).bytes, (Key.field (Id.ofNat 2) (Id.ofNat 0x2000)).bytes, (Id.ofNat 4).bytes, last.bytes] ∧
      ∃ ids, EndsWithin s.catalog.schema (Id.ofNat 0x1001) 5 (s.scan (Id.ofNat 0x1001)) (.ok ids) ∧
        ids.Pairwise (compare · · = .lt) ∧
        Id.ofNat 1 ∈ ids ∧ last ∈ ids ∧ Id.ofNat 4 ∉ ids := by
  let last : Id := Id.ofNat (1 <<< 128 - 1)
  let value : Entry := ((Key.field (Id.ofNat 2) (Id.ofNat 0x2000)).bytes, [3])
  let base : Table := ⟨"objects", KeyOrder.lexicographic,
    [((Id.ofNat 1).bytes, (Id.ofNat 0x1002).bytes), value, ((Id.ofNat 3).bytes, (Id.ofNat 0x1000).bytes)]⟩
  let calls : List WorkspaceCall := [.write (.put last.bytes (Id.ofNat 0x1001).bytes),
    .write (.delete (Id.ofNat 3).bytes), .write (.put (Id.ofNat 4).bytes (Id.ofNat 0x1003).bytes)]
  have hbase : base.Valid KeyOrder.lexicographic := ⟨rfl, by decide +kernel⟩
  have hrefresh : ∀ t, .refresh t ∈ calls → t.Valid KeyOrder.lexicographic := by simp [calls]
  obtain ⟨w, v, hcreate, hrun, hview⟩ : ∃ w v, Workspace.create base 1000 100 = .ok w ∧
      w.run calls = .ok v ∧ v.view = [((Id.ofNat 1).bytes, (Id.ofNat 0x1002).bytes), value,
        ((Id.ofNat 4).bytes, (Id.ofNat 0x1003).bytes), (last.bytes, (Id.ofNat 0x1001).bytes)] :=
    ⟨_, _, rfl, rfl, by decide +kernel⟩
  let s : Session := ⟨⟨⟨0, 1, 2, 3⟩, .tangled, {}⟩, true, Id.nil, .empty, v, ⟨none, none⟩⟩
  have hvalid : v.Valid KeyOrder.lexicographic :=
    (Workspace.create_spec hbase hcreate).1.run hrefresh hrun
  have hentries : s.workspace.entries = _ := hvalid.entries_eq.trans hview
  have hget {a t : Id} (h : Dictionary.get? compare a.bytes _ = some t.bytes) :
      s.get? (.object a) = some t.bytes := (hvalid.get?_eq a.bytes).trans ((congrArg _ hview).trans h)
  have hone := hget (a := Id.ofNat 1) (t := Id.ofNat 0x1002) (by decide +kernel)
  have hfour := hget (a := Id.ofNat 4) (t := Id.ofNat 0x1003) (by decide +kernel)
  have hlast := hget (a := last) (t := Id.ofNat 0x1001) (by decide +kernel)
  obtain ⟨ids, hends, -, hascending, hmem⟩ := scan_finds_objects hbase hcreate hrefresh (s := s) hrun
    (by rw [hentries]; decide +kernel) (show (Schema.tangled.type? (Id.ofNat 0x1001)).isSome by decide)
  rw [hentries] at hends
  refine ⟨base, calls, w, s, hbase, hcreate, hrun, by rw [hentries]; rfl, ids, hends, hascending, ?_, ?_, ?_⟩
  · exact (hmem _).mpr ⟨_, hone, Schema.isA_iff_inherits.mp (show Schema.tangled.isA _ _ = true by decide)⟩
  · exact (hmem _).mpr ⟨_, hlast, Schema.isA_iff_inherits.mp (show Schema.tangled.isA _ _ = true by decide)⟩
  · rw [hmem]
    rintro ⟨t, ht, hinherits⟩
    rw [hfour, Option.some.injEq] at ht
    rw [← Id.bytes_injective ht, ← Schema.isA_iff_inherits] at hinherits
    exact absurd hinherits (show ¬ Schema.tangled.isA _ _ = true by decide)

end Session

end ObjectGraph
