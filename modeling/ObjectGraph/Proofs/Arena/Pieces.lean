import ObjectGraph.Proofs.Arena.Calls

namespace ObjectGraph.Arena

def Carries (capacity pageSize : Nat) (a : Arena) (pieces : List Bytes) : Prop :=
  ∃ spans live, ArenaUse.Holds capacity pageSize ⟨a, spans⟩ live ∧ live.flatten = pieces.flatten

variable {capacity pageSize : Nat} {a : Arena} {ps qs : List Bytes}

theorem Carries.regroup (h : a.Carries capacity pageSize ps) (heq : ps.flatten = qs.flatten) :
    a.Carries capacity pageSize qs := by
  obtain ⟨spans, live, hholds, hflatten⟩ := h
  exact ⟨spans, live, hholds, hflatten.trans heq⟩

theorem Carries.quota_eq (h : a.Carries capacity pageSize ps) : a.quota = ⟨capacity, ps.flatten.length⟩ := by
  obtain ⟨spans, live, hholds, hflatten⟩ := h
  have hcapacity : a.quota.capacity = capacity := hholds.capacity_eq
  have hused : a.quota.used = live.flatten.length := hholds.used_eq
  rw [← hcapacity, ← hflatten, ← hused]

theorem Carries.contents_eq (h : a.Carries capacity pageSize ps) : Words.contents a = some ps.flatten := by
  obtain ⟨spans, live, hholds, hflatten⟩ := h
  rw [← hflatten]
  exact hholds.contents.1

theorem Carries.length_le (h : a.Carries capacity pageSize ps) : ps.flatten.length ≤ capacity := by
  obtain ⟨spans, live, hholds, hflatten⟩ := h
  have hused : a.quota.used = live.flatten.length := hholds.used_eq
  rw [← hflatten, ← hused]
  exact Nat.le_trans hholds.used_le hholds.committed_le

theorem Carries.reset (h : a.Carries capacity pageSize ps) : a.reset.Carries capacity pageSize [] := by
  obtain ⟨spans, live, hholds, -⟩ := h
  exact ⟨[], [], hholds.reset, rfl⟩

section Words

variable (hcapacity : capacity ≤ Quota.maxCapacity)

include hcapacity

theorem Carries.patch (h : a.Carries capacity pageSize ps) {i : Nat} {old bs : Bytes} (hi : ps[i]? = some old)
    (hlength : bs.length = old.length) :
    ∃ a', Words.patch a (ps.take i).flatten.length bs = some a' ∧
      a'.Carries capacity pageSize (ps.set i bs) := by
  obtain ⟨hlt, rfl⟩ := List.getElem?_eq_some_iff.mp hi
  let before := (ps.take i).flatten
  let after := (ps.drop (i + 1)).flatten
  have hps : ps.flatten = before ++ ps[i] ++ after := by
    rw [List.append_assoc, ← List.flatten_cons, ← List.drop_eq_getElem_cons hlt, ← List.flatten_append,
      List.take_append_drop]
  have hset : (ps.set i bs).flatten = before ++ bs ++ after := by
    rw [List.set_eq_take_append_cons_drop, if_pos hlt, List.flatten_append, List.flatten_cons,
      List.append_assoc]
  have hsame : (ps.set i bs).flatten.length = ps.flatten.length := by
    rw [hset, hps]
    simp only [List.length_append, hlength]
  have hend : before.length + bs.length ≤ ps.flatten.length := by
    rw [hps, List.length_append, List.length_append, hlength]
    exact Nat.le_add_right _ _
  have hword : before.length + bs.length < 1 <<< 64 := by
    have hmax : Quota.maxCapacity < 1 <<< 64 := by decide
    have hle := h.length_le
    omega
  obtain ⟨spans, live, hholds, hflatten⟩ := h
  obtain ⟨hcontents, hwrite⟩ := hholds.contents
  obtain ⟨-, hholds'⟩ := hwrite (ps.set i bs).flatten (hsame.trans (congrArg List.length hflatten).symm)
  obtain ⟨rest, hrest⟩ := hholds.bytes_eq
  have hrest' : a.pages.bytes = before ++ ps[i] ++ (after ++ rest) := by
    rw [← List.append_assoc, ← hps, ← hflatten]
    exact hrest
  refine ⟨{ a with pages := a.pages.write before.length bs }, ?_, spans,
    Allocations.cut (ps.set i bs).flatten live, ?_, ?_⟩
  · rw [Words.patch, Words.fit_of_lt hword, hcontents, Option.bind_eq_bind, Option.bind_some,
      Option.bind_eq_bind, Option.bind_some, hflatten, if_pos hend]
  · -- a write in the middle comes to the same pages as a write of all that is allocated
    have hmiddle := Pages.write_middle hrest' hlength
    have hwhole : a.pages.bytes = [] ++ live.flatten ++ rest := hrest
    have hall : (a.pages.write 0 (ps.set i bs).flatten).bytes = (ps.set i bs).flatten ++ rest :=
      Pages.write_middle hwhole (hsame.trans (congrArg List.length hflatten).symm)
    have hbytes : (a.pages.write before.length bs).bytes = (a.pages.write 0 (ps.set i bs).flatten).bytes := by
      rw [hmiddle, hall, hset, List.append_assoc (before ++ bs)]
    have hpages : a.pages.write before.length bs = a.pages.write 0 (ps.set i bs).flatten :=
      congrArg (Pages.mk · a.pages.limit) hbytes
    rw [hpages]
    exact hholds'
  · exact Allocations.flatten_cut (hsame.trans (congrArg List.length hflatten).symm)

theorem Carries.allocZeroed_full (h : a.Carries capacity pageSize ps) {length : Nat}
    (hfull : ¬ ps.flatten.length + length ≤ capacity) :
    (Words.allocZeroed a length).run =
      some (.error (.arenaExhausted length ps.flatten.length capacity)) := by
  obtain ⟨spans, live, hholds, hflatten⟩ := h
  rw [← hflatten] at hfull ⊢
  exact (hholds.allocZeroed_full hcapacity hfull).2

theorem Carries.alloc_full (h : a.Carries capacity pageSize ps) {bs : Bytes}
    (hfull : ¬ ps.flatten.length + bs.length ≤ capacity) :
    (Words.alloc a bs).run = some (.error (.arenaExhausted bs.length ps.flatten.length capacity)) := by
  obtain ⟨spans, live, hholds, hflatten⟩ := h
  rw [← hflatten] at hfull ⊢
  exact (hholds.alloc_full hcapacity hfull).2

variable (hpage : 0 < pageSize) (hword : pageSize < 1 <<< 64)

include hpage hword

theorem Carries.allocZeroed (h : a.Carries capacity pageSize ps) {length : Nat}
    (hroom : ps.flatten.length + length ≤ capacity) :
    ∃ a', (Words.allocZeroed a length).run = some (.ok (⟨ps.flatten.length, length⟩, a')) ∧
      a'.Carries capacity pageSize (ps ++ [List.replicate length 0]) := by
  have hquota := h.quota_eq
  obtain ⟨spans, live, hholds, hflatten⟩ := h
  have hroom' : a.quota.used + length ≤ capacity := by rw [hquota]; exact hroom
  obtain ⟨a', -, hwords, hholds'⟩ := hholds.allocZeroed hcapacity hpage hword hroom'
  rw [hquota] at hwords hholds'
  refine ⟨a', hwords, _, _, hholds', ?_⟩
  rw [List.flatten_append, List.flatten_append, hflatten]

theorem Carries.alloc (h : a.Carries capacity pageSize ps) {bs : Bytes}
    (hroom : ps.flatten.length + bs.length ≤ capacity) :
    ∃ a', (Words.alloc a bs).run = some (.ok (⟨ps.flatten.length, bs.length⟩, a')) ∧
      a'.Carries capacity pageSize (ps ++ [bs]) := by
  have hquota := h.quota_eq
  obtain ⟨spans, live, hholds, hflatten⟩ := h
  have hroom' : a.quota.used + bs.length ≤ capacity := by rw [hquota]; exact hroom
  obtain ⟨a', -, hwords, hholds'⟩ := hholds.alloc hcapacity hpage hword hroom'
  rw [hquota] at hwords hholds'
  refine ⟨a', hwords, _, _, hholds', ?_⟩
  rw [List.flatten_append, List.flatten_append, hflatten]

end Words

end ObjectGraph.Arena
