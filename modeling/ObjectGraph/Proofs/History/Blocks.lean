import ObjectGraph.Proofs.History.RoundTrip
import ObjectGraph.Proofs.Key.Intervals

namespace ObjectGraph

def Key.Carries : Key → Bytes → Prop
  | object _, v => ∃ type : Id, v = type.bytes
  | field .., _ => True
  | association _, v => v = []

namespace Key

variable {k : Key} {deleted : Option Id} {old new : Option Bytes}

theorem fst_of_mem_events {entry : Id × Event} (h : entry ∈ k.events deleted old new) :
    entry.1 = k.owner := by
  cases k with
  | object a =>
    rw [events] at h
    split at h
    · contradiction
    · rw [List.mem_singleton.mp h, owner]
    · rw [List.mem_singleton.mp h, owner]
    · split at h
      · contradiction
      · rcases List.mem_pair.mp h with rfl | rfl <;> rfl
  | field a f =>
    rw [events] at h
    split at h
    · contradiction
    · rw [List.mem_singleton.mp h, owner]
  | association half =>
    change entry ∈ if _ then [] else _ at h
    split at h
    · contradiction
    · cases old with
      | none =>
        cases new with
        | none => contradiction
        | some v => rw [List.mem_singleton.mp h, owner]
      | some v =>
        cases new with
        | none => rw [List.mem_singleton.mp h, owner]
        | some w => contradiction

theorem unobserved_of_eq (k : Key) (deleted : Option Id) (value : Option Bytes) :
    k.events deleted value value = [] ∧ k.deletes deleted value value = deleted := by
  cases k with
  | object a =>
    refine ⟨?_, ?_⟩
    · rw [events]
      cases value.bind Id.ofBytes? with
      | none => rfl
      | some type => exact if_pos rfl
    · rw [deletes]
      cases value <;> rfl
  | field a f => exact ⟨if_pos (.inr rfl), rfl⟩
  | association half => exact ⟨if_pos (.inr rfl), rfl⟩

theorem eq_of_events_eq_nil (hcarries : ∀ v, v ∈ old ∨ v ∈ new → k.Carries v)
    (h : k.events none old new = []) : old = new := by
  cases k with
  | object a =>
    cases old with
    | none =>
      cases new with
      | none => rfl
      | some w =>
        obtain ⟨type, rfl⟩ := hcarries w (.inr rfl)
        simp [events, Id.ofBytes?_bytes] at h
    | some v =>
      obtain ⟨before, rfl⟩ := hcarries v (.inl rfl)
      cases new with
      | none => simp [events, Id.ofBytes?_bytes] at h
      | some w =>
        obtain ⟨after, rfl⟩ := hcarries w (.inr rfl)
        simp [events, Id.ofBytes?_bytes] at h
        rw [h]
  | field a f => simpa [events] using h
  | association half =>
    cases old with
    | none =>
      cases new with
      | none => rfl
      | some w => simp [events] at h
    | some v =>
      cases new with
      | none => simp [events] at h
      | some w =>
        obtain rfl : v = [] := hcarries v (.inl rfl)
        obtain rfl : w = [] := hcarries w (.inr rfl)
        rfl

theorem owner_isLE {k k' : Key} (h : compare k.bytes k'.bytes = .lt) : (compare k.owner k'.owner).isLE := by
  obtain ⟨rest, hk⟩ := bytes_eq_owner_append k
  obtain ⟨rest', hk'⟩ := bytes_eq_owner_append k'
  have hle : (compare k.owner.bytes k.bytes).isLE := KeyOrder.isLE_of_prefix ⟨rest, hk.symm⟩
  have hlt : compare k.owner.bytes k'.bytes = .lt := Std.TransCmp.lt_of_isLE_of_lt hle h
  rw [hk'] at hlt
  exact Id.isLE_compare_iff.mpr (Id.isLE_compare_append_iff.mp (Ordering.isLE_of_eq_lt hlt))

end Key

namespace Change

def Proper (c : Change) : Prop :=
  ∃ k : Key, c.key = k.bytes ∧ ∀ v, v ∈ c.old ∨ v ∈ c.new → k.Carries v

variable {changes : List Change}

theorem log_eq_nil_iff (hproper : ∀ c ∈ changes, c.Proper) :
    log none changes = [] ↔ ∀ c ∈ changes, c.IsNoop := by
  induction changes with
  | nil => exact ⟨fun _ => nofun, fun _ => rfl⟩
  | cons c changes ih =>
    obtain ⟨⟨k, hkey, hcarries⟩, hrest⟩ := List.forall_mem_cons.mp hproper
    have hevents : c.events none = k.events none c.old c.new := by
      rw [events, hkey, Key.ofBytes?_bytes]
    have hdeletes : c.deletes none = k.deletes none c.old c.new := by
      rw [deletes, hkey, Key.ofBytes?_bytes]
    have hkept : c.IsNoop → c.events none = [] ∧ c.deletes none = none := by
      intro hnoop
      rw [hevents, hdeletes, hnoop]
      exact k.unobserved_of_eq none c.new
    rw [log, List.append_eq_nil_iff, List.forall_mem_cons]
    constructor
    · rintro ⟨hnone, hlog⟩
      have hnoop : c.IsNoop := k.eq_of_events_eq_nil hcarries (hevents ▸ hnone)
      rw [(hkept hnoop).2] at hlog
      exact ⟨hnoop, (ih hrest).mp hlog⟩
    · rintro ⟨hnoop, hnoops⟩
      obtain ⟨hnone, hdeleted⟩ := hkept hnoop
      rw [hdeleted]
      exact ⟨hnone, (ih hrest).mpr hnoops⟩

theorem exists_of_mem_events {deleted : Option Id} {c : Change} {entry : Id × Event}
    (h : entry ∈ c.events deleted) : ∃ k : Key, c.key = k.bytes ∧ entry.1 = k.owner := by
  rw [events] at h
  split at h
  next k hk => exact ⟨k, Key.bytes_eq_of_ofBytes? hk, Key.fst_of_mem_events h⟩
  · contradiction

theorem exists_of_mem_log {deleted : Option Id} {entry : Id × Event} (h : entry ∈ log deleted changes) :
    ∃ c ∈ changes, ∃ k : Key, c.key = k.bytes ∧ entry.1 = k.owner := by
  induction changes generalizing deleted with
  | nil => contradiction
  | cons c changes ih =>
    rw [log, List.mem_append] at h
    rcases h with h | h
    · exact ⟨c, List.mem_cons_self, exists_of_mem_events h⟩
    · obtain ⟨c', hc', hentry⟩ := ih h
      exact ⟨c', List.mem_cons_of_mem c hc', hentry⟩

theorem log_ascending (h : changes.Pairwise fun c c' => compare c.key c'.key = .lt) (deleted : Option Id) :
    (log deleted changes).Pairwise fun entry entry' => (compare entry.1 entry'.1).isLE := by
  induction changes generalizing deleted with
  | nil => exact .nil
  | cons c changes ih =>
    obtain ⟨hfirst, hrest⟩ := List.pairwise_cons.mp h
    rw [log, List.pairwise_append]
    refine ⟨?_, ih hrest _, ?_⟩
    · apply List.pairwise_of_forall_mem_list
      intro entry hentry entry' hentry'
      obtain ⟨k, hk, howner⟩ := exists_of_mem_events hentry
      obtain ⟨k', hk', howner'⟩ := exists_of_mem_events hentry'
      rw [howner, howner', Key.bytes_injective (hk.symm.trans hk'), Std.ReflOrd.compare_self]
      rfl
    · intro entry hentry entry' hentry'
      obtain ⟨k, hk, howner⟩ := exists_of_mem_events hentry
      obtain ⟨c', hc', k', hk', howner'⟩ := exists_of_mem_log hentry'
      rw [howner, howner']
      apply Key.owner_isLE
      rw [← hk, ← hk']
      exact hfirst c' hc'

end Change

theorem Draft.Grouped.nodup {blocks : List Block} (h : Grouped blocks)
    (hlog : (logOf blocks).Pairwise fun entry entry' => (compare entry.1 entry'.1).isLE) :
    (blocks.map Block.object).Nodup := by
  have hinhabited : ∀ b ∈ blocks, ∃ entry ∈ b.log, entry.1 = b.object := by
    intro b hb
    obtain ⟨i, hi⟩ := List.exists_mem_of_ne_nil _ (h.inhabited b hb)
    exact ⟨_, List.mem_map_of_mem (List.mem_reverse.mpr hi), rfl⟩
  have horder : blocks.Pairwise fun b b' => (compare b'.object b.object).isLE := by
    rw [← List.pairwise_reverse]
    refine (List.pairwise_flatMap.mp hlog).2.imp_of_mem fun {b b'} hb hb' hle => ?_
    obtain ⟨entry, hentry, hobject⟩ := hinhabited b (List.mem_reverse.mp hb)
    obtain ⟨entry', hentry', hobject'⟩ := hinhabited b' (List.mem_reverse.mp hb')
    rw [← hobject, ← hobject']
    exact hle entry hentry entry' hentry'
  have hapart := h.apart
  clear hlog hinhabited h
  induction blocks with
  | nil => exact .nil
  | cons b blocks ih =>
    obtain ⟨hfirst, hrest⟩ := List.pairwise_cons.mp horder
    obtain ⟨hne, hapart⟩ := List.isChain_cons.mp hapart
    rw [List.map_cons, List.nodup_cons]
    refine ⟨fun hmem => ?_, ih hrest hapart⟩
    obtain ⟨b', hb', hsame⟩ := List.mem_map.mp hmem
    cases blocks with
    | nil => contradiction
    | cons next rest =>
      -- a block further back for the same object encloses its neighbour
      have hbefore : (compare next.object b.object).isLE := hfirst next List.mem_cons_self
      have hafter : (compare b.object next.object).isLE := by
        rw [← hsame]
        rcases List.mem_cons.mp hb' with rfl | hb'
        · rw [Std.ReflOrd.compare_self]
          rfl
        · exact (List.pairwise_cons.mp hrest).1 b' hb'
      exact hne next rfl (Std.LawfulEqOrd.eq_of_compare (Std.OrientedCmp.isLE_antisymm hafter hbefore))

end ObjectGraph
