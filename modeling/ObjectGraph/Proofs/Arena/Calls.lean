import ObjectGraph.Proofs.Arena.Layout
import ObjectGraph.Proofs.Arena.Words
import ObjectGraph.Proofs.Stateful
/-!
An arena against the list of the bytes that have been allocated since the last reset. Spans lie side by
side in the order of their allocation, each keeps its bytes until it is written itself, and no number on
the way is too large for its word.
-/

namespace ObjectGraph

inductive ArenaCall where
  | alloc (bs : Bytes)
  | allocZeroed (length : Nat)
  | read (i : Nat)
  | write (i : Nat) (f : Nat → UInt8 → UInt8)
  | readAll
  | writeAll (f : Nat → UInt8 → UInt8)
  | reset

inductive ArenaAnswer where
  | placed (s : Span)
  | failed (e : Error)
  | bytes (bs : Bytes)
  | done
  | noSuchSpan
deriving DecidableEq

structure ArenaUse where
  arena : Arena
  spans : List Span

namespace ArenaUse

def place (u : ArenaUse) (r : Except Error (Span × Arena)) : ArenaAnswer × ArenaUse :=
  match r with
  | .ok (s, arena) => (.placed s, ⟨arena, u.spans ++ [s]⟩)
  | .error e => (.failed e, u)

def call (u : ArenaUse) : ArenaCall → ArenaAnswer × ArenaUse
  | .alloc bs => u.place (u.arena.alloc bs)
  | .allocZeroed length => u.place (u.arena.allocZeroed length)
  | .read i =>
    match u.spans[i]? with
    | some s => (.bytes (u.arena.get s), u)
    | none => (.noSuchSpan, u)
  | .write i f =>
    match u.spans[i]? with
    | some s => (.done, { u with arena := u.arena.set s ((u.arena.get s).mapIdx f) })
    | none => (.noSuchSpan, u)
  | .readAll => (.bytes u.arena.contents, u)
  | .writeAll f => (.done, { u with arena := u.arena.setContents (u.arena.contents.mapIdx f) })
  | .reset => (.done, ⟨u.arena.reset, []⟩)

def calls (u : ArenaUse) : List ArenaCall → List ArenaAnswer × ArenaUse
  | [] => ([], u)
  | c :: cs =>
    let (answers, last) := (u.call c).2.calls cs
    ((u.call c).1 :: answers, last)

end ArenaUse

namespace Words

def call (u : ArenaUse) : ArenaCall → Option (ArenaAnswer × ArenaUse)
  | .alloc bs => return u.place (← (alloc u.arena bs).run)
  | .allocZeroed length => return u.place (← (allocZeroed u.arena length).run)
  | .read i =>
    match u.spans[i]? with
    | some s => return (.bytes (← get u.arena.pages s), u)
    | none => return (.noSuchSpan, u)
  | .write i f =>
    match u.spans[i]? with
    | some s => do
      let pages ← set u.arena.pages s ((← get u.arena.pages s).mapIdx f)
      return (.done, { u with arena := { u.arena with pages } })
    | none => return (.noSuchSpan, u)
  | .readAll => return (.bytes (← contents u.arena), u)
  | .writeAll f => return (.done, { u with arena := ← setContents u.arena ((← contents u.arena).mapIdx f) })
  | .reset => return (.done, ⟨u.arena.reset, []⟩)

def calls (u : ArenaUse) : List ArenaCall → Option (List ArenaAnswer × ArenaUse)
  | [] => return ([], u)
  | c :: cs => do
    let (answer, next) ← call u c
    let (answers, last) ← calls next cs
    return (answer :: answers, last)

end Words

namespace Allocations

def place (capacity : Nat) (live : Allocations) (bs : Bytes) : ArenaAnswer × Allocations :=
  if live.flatten.length + bs.length ≤ capacity then
    (.placed ⟨live.flatten.length, bs.length⟩, live ++ [bs])
  else (.failed (.arenaExhausted bs.length live.flatten.length capacity), live)

def call (capacity : Nat) (live : Allocations) : ArenaCall → ArenaAnswer × Allocations
  | .alloc bs => place capacity live bs
  | .allocZeroed length => place capacity live (List.replicate length 0)
  | .read i =>
    match live[i]? with
    | some bs => (.bytes bs, live)
    | none => (.noSuchSpan, live)
  | .write i f =>
    match live[i]? with
    | some bs => (.done, live.set i (bs.mapIdx f))
    | none => (.noSuchSpan, live)
  | .readAll => (.bytes live.flatten, live)
  | .writeAll f => (.done, cut (live.flatten.mapIdx f) live)
  | .reset => (.done, [])

def calls (capacity : Nat) (live : Allocations) : List ArenaCall → List ArenaAnswer × Allocations
  | [] => ([], live)
  | c :: cs =>
    let (answers, last) := calls capacity (live.call capacity c).2 cs
    ((live.call capacity c).1 :: answers, last)

end Allocations

namespace ArenaUse

open Allocations (layout)

structure Holds (capacity pageSize : Nat) (u : ArenaUse) (live : Allocations) : Prop where
  capacity_eq : u.arena.quota.capacity = capacity
  pageSize_eq : u.arena.pageSize = pageSize
  limit_eq : u.arena.pages.limit = capacity
  committed_le : u.arena.committed ≤ capacity
  paged : pageSize ∣ u.arena.committed ∨ u.arena.committed = capacity
  used_eq : u.arena.quota.used = live.flatten.length
  spans_eq : u.spans = layout 0 live
  bytes_eq : ∃ rest, u.arena.pages.bytes = live.flatten ++ rest

variable {capacity pageSize : Nat} {u : ArenaUse} {live : Allocations}

theorem Holds.used_le (h : u.Holds capacity pageSize live) : u.arena.quota.used ≤ u.arena.committed := by
  obtain ⟨rest, hrest⟩ := h.bytes_eq
  rw [Arena.committed, hrest, h.used_eq, List.length_append]
  exact Nat.le_add_right _ _

theorem Holds.contents_eq (h : u.Holds capacity pageSize live) : u.arena.contents = live.flatten := by
  obtain ⟨rest, hrest⟩ := h.bytes_eq
  rw [Arena.contents, hrest, h.used_eq, List.take_left]

theorem Holds.map_get (h : u.Holds capacity pageSize live) : u.spans.map u.arena.get = live := by
  obtain ⟨rest, hrest⟩ := h.bytes_eq
  have hmap := Allocations.map_layout 0 live [] rest rfl
  rw [List.nil_append, ← hrest] at hmap
  rw [h.spans_eq]
  exact hmap

theorem Holds.span_le (h : u.Holds capacity pageSize live) {s : Span} (hs : s ∈ u.spans) :
    s.offset + s.length ≤ u.arena.quota.used := by
  rw [h.spans_eq] at hs
  have hbounds := (Allocations.layout_bounds hs).2
  rwa [Nat.zero_add, ← h.used_eq] at hbounds

theorem Holds.overwrite (h : u.Holds capacity pageSize live) {live' : Allocations} {pages : Pages}
    {rest : Bytes} (hbefore : u.arena.pages.bytes = live.flatten ++ rest)
    (hafter : pages.bytes = live'.flatten ++ rest) (hlimit : pages.limit = u.arena.pages.limit)
    (hlength : live'.flatten.length = live.flatten.length) (hlayout : layout 0 live' = layout 0 live) :
    Holds capacity pageSize { u with arena := { u.arena with pages } } live' := by
  have hcommitted : pages.bytes.length = u.arena.committed := by
    rw [Arena.committed, hbefore, hafter, List.length_append, List.length_append, hlength]
  refine ⟨h.capacity_eq, h.pageSize_eq, hlimit.trans h.limit_eq, ?_, ?_, h.used_eq.trans hlength.symm,
    h.spans_eq.trans hlayout.symm, rest, hafter⟩
  · rw [Arena.committed, hcommitted]
    exact h.committed_le
  · rw [Arena.committed, hcommitted]
    exact h.paged

theorem Holds.extend (h : u.Holds capacity pageSize live) (pages : Pages) {bs rest : Bytes}
    (hlimit : pages.limit = capacity) (hcommitted : pages.bytes.length ≤ capacity)
    (hpaged : pageSize ∣ pages.bytes.length ∨ pages.bytes.length = capacity)
    (hbytes : pages.bytes = live.flatten ++ bs ++ rest) :
    Holds capacity pageSize
      ⟨{ u.arena with quota := { u.arena.quota with used := u.arena.quota.used + bs.length }, pages },
        u.spans ++ [⟨u.arena.quota.used, bs.length⟩]⟩ (live ++ [bs]) := by
  have hflatten : (live ++ [bs]).flatten = live.flatten ++ bs := by simp
  refine ⟨h.capacity_eq, h.pageSize_eq, hlimit, hcommitted, hpaged, ?_, ?_, rest, ?_⟩
  · rw [hflatten, List.length_append, ← h.used_eq]
  · rw [Allocations.layout_append, ← h.spans_eq, Nat.zero_add, ← h.used_eq]
    rfl
  · rw [hflatten, hbytes]

section Calls

variable (hcapacity : capacity ≤ Quota.maxCapacity) (hpage : 0 < pageSize) (hword : pageSize < 1 <<< 64)

include hcapacity hpage hword

theorem Holds.commit (h : u.Holds capacity pageSize live) {length : Nat}
    (hroom : u.arena.quota.used + length ≤ capacity) :
    let used := u.arena.quota.used + length
    ∃ pages, (if u.arena.committed < used then u.arena.pages.commit (u.arena.pagesFor used)
        else .ok u.arena.pages) = .ok pages ∧
      (Words.reach u.arena used).run = some (.ok pages) ∧
      pages.limit = capacity ∧ used ≤ pages.bytes.length ∧ pages.bytes.length ≤ capacity ∧
      (pageSize ∣ pages.bytes.length ∨ pages.bytes.length = capacity) ∧
      ∃ more, pages.bytes = u.arena.pages.bytes ++ more := by
  intro used
  obtain ⟨hwords, hle, hcap, hpaged⟩ := Arena.pagesFor_spec u.arena used
    (by rw [h.pageSize_eq]; exact hpage) (by rw [h.pageSize_eq]; exact hword)
    (by rw [h.capacity_eq]; exact hcapacity) (by rw [h.capacity_eq]; exact hroom)
  rw [h.capacity_eq] at hcap hpaged
  rw [h.pageSize_eq] at hpaged
  by_cases hmore : u.arena.committed < used
  · have hlong : ¬ u.arena.pagesFor used ≤ u.arena.pages.bytes.length :=
      Nat.not_le.mpr (Nat.lt_of_lt_of_le hmore hle)
    have hlimit : u.arena.pagesFor used ≤ min u.arena.pages.limit Quota.maxCapacity := by
      rw [h.limit_eq]
      omega
    let more := List.replicate (u.arena.pagesFor used - u.arena.pages.bytes.length) (0 : UInt8)
    have hlength : (u.arena.pages.bytes ++ more).length = u.arena.pagesFor used := by
      rw [List.length_append, List.length_replicate]
      omega
    have hcommit : u.arena.pages.commit (u.arena.pagesFor used) =
        .ok { u.arena.pages with bytes := u.arena.pages.bytes ++ more } := by
      rw [Pages.commit, if_neg hlong, if_pos hlimit]
    refine ⟨{ u.arena.pages with bytes := u.arena.pages.bytes ++ more }, ?_, ?_, h.limit_eq, ?_⟩
    · rw [if_pos hmore, hcommit]
    · rw [Words.reach, if_pos hmore, Stateful.run_lift_bind hwords, hcommit]
      rfl
    · rw [hlength]
      exact ⟨hle, hcap, hpaged, _, rfl⟩
  · refine ⟨u.arena.pages, if_neg hmore, ?_, h.limit_eq, Nat.le_of_not_lt hmore, h.committed_le, h.paged, [],
      (List.append_nil _).symm⟩
    rw [Words.reach, if_neg hmore]
    rfl

theorem Holds.allocZeroed (h : u.Holds capacity pageSize live) {length : Nat}
    (hroom : u.arena.quota.used + length ≤ capacity) :
    ∃ a, u.arena.allocZeroed length = .ok (⟨u.arena.quota.used, length⟩, a) ∧
      (Words.allocZeroed u.arena length).run = some (.ok (⟨u.arena.quota.used, length⟩, a)) ∧
      Holds capacity pageSize ⟨a, u.spans ++ [⟨u.arena.quota.used, length⟩]⟩
        (live ++ [List.replicate length 0]) := by
  obtain ⟨pages, hpages, hreach, hlimit, hused, hcommitted, hpaged, more, hmore⟩ :=
    h.commit hcapacity hpage hword hroom
  obtain ⟨rest, hrest⟩ := h.bytes_eq
  let span : Span := ⟨u.arena.quota.used, length⟩
  let quota : Quota := { u.arena.quota with used := u.arena.quota.used + length }
  let zeros := List.replicate length (0 : UInt8)
  let a : Arena := { u.arena with quota, pages := pages.write span.offset zeros }
  have hbounds : capacity < 1 <<< 32 := Nat.lt_of_le_of_lt hcapacity (by decide)
  have hwide : 1 <<< 32 < 1 <<< 64 := by decide
  have hquota : u.arena.quota.take length = .ok quota := by
    rw [Quota.take, if_pos (by rw [h.capacity_eq]; exact hroom)]
  have hwquota : Words.take u.arena.quota length = .ok quota := by
    rw [Words.take_eq (by rw [h.capacity_eq]; exact hcapacity), hquota]
  have hset : Words.set pages span zeros = some (pages.write span.offset zeros) :=
    Words.set_eq hused (by dsimp only [span]; omega) List.length_replicate
  refine ⟨a, ?_, ?_, ?_⟩
  · rw [Arena.allocZeroed, hquota, Stateful.ok_bind]
    split at hpages
    next hmore => rw [if_pos hmore, hpages]; rfl
    next hmore => rw [if_neg hmore]; cases hpages; rfl
  · have hoffset := Words.fit_of_lt (show u.arena.quota.used < 1 <<< 32 by omega)
    have hlength := Words.fit_of_lt (show length < 1 <<< 32 by omega)
    rw [Words.allocZeroed, Stateful.run_ofExcept_bind hwquota, Stateful.run_bind_of_some_ok hreach,
      Stateful.run_lift_bind hoffset, Stateful.run_lift_bind hlength, Stateful.run_lift_bind hset]
    rfl
  · let added := (rest ++ more).take length
    let after := (rest ++ more).drop length
    have hlong := congrArg List.length hmore
    rw [hrest, List.length_append, List.length_append, ← h.used_eq] at hlong
    have hadded : zeros.length = added.length := by
      rw [List.length_replicate, List.length_take, List.length_append]
      omega
    have hbytes : pages.bytes = live.flatten ++ added ++ after := by
      rw [hmore, hrest, List.append_assoc, List.append_assoc, List.take_append_drop]
    have hwritten : (pages.write span.offset zeros).bytes = live.flatten ++ zeros ++ after := by
      rw [show span.offset = live.flatten.length from h.used_eq]
      exact Pages.write_middle hbytes hadded
    have hsame : (pages.write span.offset zeros).bytes.length = pages.bytes.length := by
      rw [hwritten, hbytes]
      simp only [List.length_append, hadded]
    have hextend := h.extend (pages.write span.offset zeros) hlimit (hsame ▸ hcommitted)
      (hsame ▸ hpaged) hwritten
    rwa [List.length_replicate] at hextend

omit hpage hword in
theorem Holds.span (h : u.Holds capacity pageSize live) {earlier later : Allocations} {old : Bytes}
    (hlive : live = earlier ++ old :: later) :
    let s : Span := ⟨earlier.flatten.length, old.length⟩
    u.arena.get s = old ∧ Words.get u.arena.pages s = some old ∧
      ∀ bs : Bytes, bs.length = old.length →
        Words.set u.arena.pages s bs = some (u.arena.pages.write s.offset bs) ∧
        Holds capacity pageSize { u with arena := u.arena.set s bs } (earlier ++ bs :: later) := by
  intro s
  obtain ⟨rest, hrest⟩ := h.bytes_eq
  have hmiddle (bs : Bytes) : (earlier ++ bs :: later).flatten ++ rest =
      earlier.flatten ++ bs ++ (later.flatten ++ rest) := by
    rw [List.flatten_append, List.flatten_cons]
    simp only [List.append_assoc]
  have hbytes : u.arena.pages.bytes = earlier.flatten ++ old ++ (later.flatten ++ rest) := by
    rw [hrest, hlive, hmiddle]
  have hinside : s.offset + s.length ≤ u.arena.pages.bytes.length := by
    rw [hbytes, List.length_append, List.length_append]
    exact Nat.le_add_right _ _
  have hsmall : s.offset + s.length < 1 <<< 64 := by
    have hcommitted : u.arena.pages.bytes.length ≤ capacity := h.committed_le
    have hmax : Quota.maxCapacity < 1 <<< 64 := by decide
    omega
  have hget : u.arena.get s = old := by
    rw [Arena.get, hbytes, List.append_assoc, List.drop_left, List.take_left]
  refine ⟨hget, (Words.get_eq hinside hsmall).trans (congrArg some hget), fun bs hlength => ⟨?_, ?_⟩⟩
  · exact Words.set_eq hinside hsmall hlength
  · subst hlive
    refine h.overwrite hrest ?_ rfl ?_ (Allocations.layout_replace hlength)
    · rw [hmiddle]
      exact Pages.write_middle hbytes hlength
    · simp only [List.flatten_append, List.flatten_cons, List.length_append, hlength]

theorem Holds.alloc (h : u.Holds capacity pageSize live) {bs : Bytes}
    (hroom : u.arena.quota.used + bs.length ≤ capacity) :
    ∃ a, u.arena.alloc bs = .ok (⟨u.arena.quota.used, bs.length⟩, a) ∧
      (Words.alloc u.arena bs).run = some (.ok (⟨u.arena.quota.used, bs.length⟩, a)) ∧
      Holds capacity pageSize ⟨a, u.spans ++ [⟨u.arena.quota.used, bs.length⟩]⟩ (live ++ [bs]) := by
  obtain ⟨a, halloc, hwords, hholds⟩ := h.allocZeroed hcapacity hpage hword hroom
  obtain ⟨-, -, hwrite⟩ := hholds.span hcapacity rfl
  obtain ⟨hset, hholds⟩ := hwrite bs List.length_replicate.symm
  rw [List.length_replicate, ← h.used_eq] at hset hholds
  refine ⟨a.set ⟨u.arena.quota.used, bs.length⟩ bs, ?_, ?_, hholds⟩
  · rw [Arena.alloc, halloc]
    rfl
  · rw [Words.alloc, Stateful.run_bind_of_some_ok hwords, Stateful.run_lift_bind hset]
    rfl

omit hpage hword in
theorem Holds.allocZeroed_full (h : u.Holds capacity pageSize live) {length : Nat}
    (hfull : ¬ live.flatten.length + length ≤ capacity) :
    let e := Error.arenaExhausted length live.flatten.length capacity
    u.arena.allocZeroed length = .error e ∧ (Words.allocZeroed u.arena length).run = some (.error e) := by
  intro e
  have hquota : u.arena.quota.take length = .error e := by
    rw [Quota.take, h.capacity_eq, h.used_eq, if_neg hfull]
  have hwquota := Words.take_eq (q := u.arena.quota) (by rw [h.capacity_eq]; exact hcapacity) length
  constructor
  · rw [Arena.allocZeroed, hquota]
    rfl
  · rw [Words.allocZeroed, hwquota, hquota]
    rfl

omit hpage hword in
theorem Holds.alloc_full (h : u.Holds capacity pageSize live) {bs : Bytes}
    (hfull : ¬ live.flatten.length + bs.length ≤ capacity) :
    let e := Error.arenaExhausted bs.length live.flatten.length capacity
    u.arena.alloc bs = .error e ∧ (Words.alloc u.arena bs).run = some (.error e) := by
  intro e
  obtain ⟨halloc, hwords⟩ := h.allocZeroed_full hcapacity hfull
  constructor
  · rw [Arena.alloc, halloc]
    rfl
  · rw [Words.alloc, ExceptT.run_bind, hwords]
    rfl

omit hcapacity hpage hword in
theorem Holds.reset (h : u.Holds capacity pageSize live) :
    Holds capacity pageSize ⟨u.arena.reset, []⟩ [] := by
  have hcommitted : u.arena.reset.committed = min (min pageSize capacity) u.arena.committed := by
    simp only [Arena.committed, Arena.reset, Pages.decommit, List.length_take, h.pageSize_eq, h.capacity_eq]
  refine ⟨h.capacity_eq, h.pageSize_eq, h.limit_eq, ?_, ?_, rfl, rfl, _, rfl⟩
  · change u.arena.reset.committed ≤ capacity
    omega
  · change pageSize ∣ u.arena.reset.committed ∨ u.arena.reset.committed = capacity
    rw [hcommitted]
    rcases Nat.le_total u.arena.committed (min pageSize capacity) with hle | hle
    · rw [Nat.min_eq_right hle]
      exact h.paged
    · rw [Nat.min_eq_left hle]
      rcases Nat.le_total pageSize capacity with hpage | hpage
      · exact .inl ⟨1, by rw [Nat.mul_one, Nat.min_eq_left hpage]⟩
      · exact .inr (Nat.min_eq_right hpage)

omit hcapacity hpage hword in
theorem Holds.contents (h : u.Holds capacity pageSize live) :
    Words.contents u.arena = some live.flatten ∧ ∀ bs : Bytes, bs.length = live.flatten.length →
      Words.setContents u.arena bs = some (u.arena.setContents bs) ∧
      Holds capacity pageSize { u with arena := u.arena.setContents bs } (Allocations.cut bs live) := by
  obtain ⟨rest, hrest⟩ := h.bytes_eq
  have hcontents : Words.contents u.arena = some live.flatten := by
    have hused : u.arena.quota.used ≤ u.arena.pages.bytes.length := h.used_le
    rw [Words.contents, Bytes.slice?, Nat.zero_add, if_pos hused, List.drop_zero, ← h.contents_eq]
    rfl
  refine ⟨hcontents, fun bs hlength => ⟨?_, ?_⟩⟩
  · rw [Words.setContents, hcontents, Option.bind_eq_bind, Option.bind_some, if_pos hlength.symm]
    rfl
  · have hflatten := Allocations.flatten_cut hlength
    refine h.overwrite hrest ?_ rfl (by rw [hflatten, hlength]) (Allocations.layout_cut hlength)
    rw [hflatten]
    have hwritten : (u.arena.pages.write ([] : Bytes).length bs).bytes = [] ++ bs ++ rest :=
      Pages.write_middle hrest hlength
    exact hwritten

theorem Holds.call (h : u.Holds capacity pageSize live) (c : ArenaCall) :
    (u.call c).1 = (live.call capacity c).1 ∧ Words.call u c = some (u.call c) ∧
      Holds capacity pageSize (u.call c).2 (live.call capacity c).2 := by
  cases c with
  | alloc bs =>
    by_cases hroom : live.flatten.length + bs.length ≤ capacity
    · obtain ⟨a, halloc, hwords, hholds⟩ := h.alloc hcapacity hpage hword (by rwa [h.used_eq])
      rw [h.used_eq] at halloc hwords hholds
      simp only [ArenaUse.call, Allocations.call, Allocations.place, if_pos hroom, halloc, Words.call, hwords]
      exact ⟨rfl, rfl, hholds⟩
    · obtain ⟨halloc, hwords⟩ := h.alloc_full hcapacity hroom
      simp only [ArenaUse.call, Allocations.call, Allocations.place, if_neg hroom, halloc, Words.call, hwords]
      exact ⟨rfl, rfl, h⟩
  | allocZeroed length =>
    by_cases hroom : live.flatten.length + length ≤ capacity
    · obtain ⟨a, halloc, hwords, hholds⟩ := h.allocZeroed hcapacity hpage hword (by rwa [h.used_eq])
      rw [h.used_eq] at halloc hwords hholds
      simp only [ArenaUse.call, Allocations.call, Allocations.place, List.length_replicate, if_pos hroom,
        halloc, Words.call, hwords]
      exact ⟨rfl, rfl, hholds⟩
    · obtain ⟨halloc, hwords⟩ := h.allocZeroed_full hcapacity hroom
      simp only [ArenaUse.call, Allocations.call, Allocations.place, List.length_replicate, if_neg hroom,
        halloc, Words.call, hwords]
      exact ⟨rfl, rfl, h⟩
  | read i =>
    have hspan := Allocations.getElem?_layout live i
    rw [← h.spans_eq] at hspan
    rcases hspan with ⟨hspan, hlive⟩ | ⟨earlier, bs, later, rfl, rfl, hlive, hspan⟩
    · simp only [ArenaUse.call, Allocations.call, Words.call, hspan, hlive]
      exact ⟨trivial, rfl, h⟩
    · obtain ⟨hget, hwords, -⟩ := h.span hcapacity rfl
      simp only [ArenaUse.call, Allocations.call, Words.call, hspan, hget, hwords, hlive]
      exact ⟨trivial, rfl, h⟩
  | write i f =>
    have hspan := Allocations.getElem?_layout live i
    rw [← h.spans_eq] at hspan
    rcases hspan with ⟨hspan, hlive⟩ | ⟨earlier, bs, later, rfl, rfl, hlive, hspan⟩
    · simp only [ArenaUse.call, Allocations.call, Words.call, hspan, hlive]
      exact ⟨trivial, rfl, h⟩
    · obtain ⟨hget, hwords, hwrite⟩ := h.span hcapacity rfl
      obtain ⟨hset, hholds⟩ := hwrite (bs.mapIdx f) List.length_mapIdx
      have hlive' : (earlier ++ bs :: later).set earlier.length (bs.mapIdx f) =
          earlier ++ bs.mapIdx f :: later := by simp
      simp only [ArenaUse.call, Allocations.call, Words.call, hspan, hget, hwords, hlive, hlive',
        Option.bind_eq_bind, Option.bind_some, hset]
      exact ⟨trivial, rfl, hholds⟩
  | readAll =>
    obtain ⟨hwords, -⟩ := h.contents
    simp only [ArenaUse.call, Allocations.call, Words.call, h.contents_eq, hwords]
    exact ⟨trivial, rfl, h⟩
  | writeAll f =>
    obtain ⟨hwords, hwrite⟩ := h.contents
    obtain ⟨hset, hholds⟩ := hwrite (live.flatten.mapIdx f) List.length_mapIdx
    simp only [ArenaUse.call, Allocations.call, Words.call, h.contents_eq, hwords, Option.bind_eq_bind,
      Option.bind_some, hset]
    exact ⟨trivial, rfl, hholds⟩
  | reset => exact ⟨rfl, rfl, h.reset⟩

theorem Holds.calls (h : u.Holds capacity pageSize live) (cs : List ArenaCall) :
    (u.calls cs).1 = (live.calls capacity cs).1 ∧ Words.calls u cs = some (u.calls cs) ∧
      Holds capacity pageSize (u.calls cs).2 (live.calls capacity cs).2 := by
  induction cs generalizing u live with
  | nil => exact ⟨rfl, rfl, h⟩
  | cons c cs ih =>
    obtain ⟨hanswer, hwords, hnext⟩ := h.call hcapacity hpage hword c
    obtain ⟨hanswers, hrest, hlast⟩ := ih hnext
    refine ⟨?_, ?_, hlast⟩
    · simp only [ArenaUse.calls, Allocations.calls, hanswer, hanswers]
    · simp only [Words.calls, hwords, Option.bind_eq_bind, Option.bind_some, hrest]
      rfl

end Calls

theorem call_failed {c : ArenaCall} {e : Error} (h : (u.call c).1 = .failed e) : (u.call c).2 = u := by
  have hplace {r : Except Error (Span × Arena)} (h : (u.place r).1 = .failed e) : (u.place r).2 = u := by
    cases r with
    | ok _ => cases h
    | error _ => rfl
  cases c with
  | alloc bs => exact hplace h
  | allocZeroed length => exact hplace h
  | read i => rw [call] at h ⊢; split <;> rfl
  | write i f =>
    rw [call] at h ⊢
    split at h <;> cases h
  | readAll => rfl
  | writeAll f => cases h
  | reset => cases h

structure Sound (capacity pageSize : Nat) (u : ArenaUse) (live : Allocations) : Prop where
  used_le_committed : u.arena.quota.used ≤ u.arena.committed
  committed_le_capacity : u.arena.committed ≤ capacity
  paged : pageSize ∣ u.arena.committed ∨ u.arena.committed = capacity
  used_eq : u.arena.quota.used = live.flatten.length
  span_le_used : ∀ s ∈ u.spans, s.offset + s.length ≤ u.arena.quota.used
  disjoint : u.spans.Pairwise fun s t => s.offset + s.length ≤ t.offset
  map_get : u.spans.map u.arena.get = live
  contents_eq : u.arena.contents = live.flatten

theorem Holds.sound (h : u.Holds capacity pageSize live) : u.Sound capacity pageSize live where
  used_le_committed := h.used_le
  committed_le_capacity := h.committed_le
  paged := h.paged
  used_eq := h.used_eq
  span_le_used _ hs := h.span_le hs
  disjoint := h.spans_eq ▸ Allocations.layout_disjoint 0 live
  map_get := h.map_get
  contents_eq := h.contents_eq

end ArenaUse

namespace Arena

theorem create_eq_ok {capacity pageSize : Nat} (hpage : pageSize ≠ 0) :
    create capacity pageSize = .ok ⟨⟨min capacity Quota.maxCapacity, 0⟩, pageSize,
      .reserve (min capacity Quota.maxCapacity)⟩ := by
  simp only [create, Quota.create, if_neg hpage]
  rfl

theorem holds_fresh (capacity pageSize : Nat) :
    ArenaUse.Holds capacity pageSize ⟨⟨⟨capacity, 0⟩, pageSize, .reserve capacity⟩, []⟩ [] :=
  ⟨rfl, rfl, rfl, Nat.zero_le _, .inl (Nat.dvd_zero _), rfl, rfl, [], rfl⟩

/-- Whatever the capacity, the size of a page and the calls, the answers are those of a list of byte strings:
an allocation fails, and changes nothing, exactly if it goes beyond the capacity, and is put after all that
there are otherwise. In machine words the calls do the same, so that no number is too large and no byte is
looked for where there is none. -/
theorem calls_keep_allocations (capacity pageSize : UInt64) (hpage : pageSize ≠ 0) :
    ∃ a, create capacity.toNat pageSize.toNat = .ok a ∧
      a.quota = ⟨min capacity.toNat Quota.maxCapacity, 0⟩ ∧ ∀ cs : List ArenaCall,
        let u := (ArenaUse.calls ⟨a, []⟩ cs).2
        (ArenaUse.calls ⟨a, []⟩ cs).1 = (Allocations.calls a.quota.capacity [] cs).1 ∧
          Words.calls ⟨a, []⟩ cs = some (ArenaUse.calls ⟨a, []⟩ cs) ∧
          u.Sound a.quota.capacity pageSize.toNat (Allocations.calls a.quota.capacity [] cs).2 ∧
          ∀ c e, (u.call c).1 = .failed e → (u.call c).2 = u := by
  let limit := min capacity.toNat Quota.maxCapacity
  have hne : pageSize.toNat ≠ 0 := fun h => hpage (UInt64.toNat_inj.mp h)
  refine ⟨_, create_eq_ok hne, rfl, fun cs => ?_⟩
  obtain ⟨hanswers, hwords, hlast⟩ := (holds_fresh limit pageSize.toNat).calls (Nat.min_le_right _ _)
    (Nat.pos_of_ne_zero hne) pageSize.toNat_lt cs
  exact ⟨hanswers, hwords, hlast.sound, fun _ _ => ArenaUse.call_failed⟩

theorem calls_keep_allocations_recycled :
    let recycling : List ArenaCall := [.alloc (List.replicate 9 7), .reset, .allocZeroed 6, .alloc [1, 2],
      .allocZeroed (1 <<< 64 - 1), .write 1 fun i b => b + UInt8.ofNat i]
    let live := [List.replicate 6 0, [1, 3]]
    ∃ a u, create 10 4 = .ok a ∧
      Words.calls ⟨a, []⟩ recycling = some ([.placed ⟨0, 9⟩, .done, .placed ⟨0, 6⟩, .placed ⟨6, 2⟩,
        .failed (.arenaExhausted (1 <<< 64 - 1) 8 10), .done], u) ∧
      u.arena.committed = 8 ∧ u.spans.map u.arena.get = live ∧ u.arena.contents = live.flatten ∧
      u.spans.Pairwise (fun s t => s.offset + s.length ≤ t.offset) := by
  intro recycling live
  obtain ⟨a, hcreate, -, hcalls⟩ := calls_keep_allocations 10 4 (by decide)
  cases hcreate
  obtain ⟨-, hwords, hsound, -⟩ := hcalls recycling
  have hanswers : (ArenaUse.calls ⟨⟨⟨10, 0⟩, 4, .reserve 10⟩, []⟩ recycling).1 = [.placed ⟨0, 9⟩, .done,
      .placed ⟨0, 6⟩, .placed ⟨6, 2⟩, .failed (.arenaExhausted (1 <<< 64 - 1) 8 10), .done] := by
    decide +kernel
  refine ⟨_, _, rfl, hwords.trans (congrArg some (Prod.ext hanswers rfl)), ?_, ?_, ?_, hsound.disjoint⟩
  · decide +kernel
  · decide +kernel
  · decide +kernel

end Arena

end ObjectGraph
