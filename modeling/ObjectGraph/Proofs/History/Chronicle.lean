import ObjectGraph.Proofs.History.CommitId
import ObjectGraph.Proofs.History.Replay
import ObjectGraph.Proofs.Storage.Writing

namespace ObjectGraph

open Dictionary (Ascending)

structure Table.Chronicles (latest : Nat) (records : List (Commit × Bytes)) (t : Table) : Prop where
  order_eq : t.order = KeyOrder.lexicographic
  ascending : Ascending KeyOrder.lexicographic t.entries
  entries_eq : t.entries = records.map fun p => (p.1.id.bytes, p.2)
  decode_eq : ∀ p ∈ records, Commit.decode p.1.id p.2 = .ok p.1
  id_le : ∀ p ∈ records, p.1.id.toNat ≤ latest

namespace Table.Chronicles

variable {latest latest' : Nat} {records : List (Commit × Bytes)} {t t' : Table}

theorem mono (h : t.Chronicles latest records) (hle : latest ≤ latest') :
    t.Chronicles latest' records :=
  ⟨h.order_eq, h.ascending, h.entries_eq, h.decode_eq, fun p hp => Nat.le_trans (h.id_le p hp) hle⟩

theorem congr (h : t.Chronicles latest records) (horder : t'.order = KeyOrder.lexicographic)
    (hentries : t'.entries = t.entries) : t'.Chronicles latest records :=
  ⟨horder, hentries ▸ h.ascending, hentries.trans h.entries_eq, h.decode_eq, h.id_le⟩

theorem append (h : t.Chronicles latest records) {c : Commit} {bs : Bytes}
    (hdecode : Commit.decode c.id bs = .ok c) (hc : latest < c.id.toNat)
    (horder : t'.order = KeyOrder.lexicographic)
    (hentries : t'.entries = Dictionary.insert KeyOrder.lexicographic c.id.bytes bs t.entries) :
    t'.Chronicles c.id.toNat (records ++ [(c, bs)]) := by
  have hlt : ∀ p ∈ records, compare p.1.id.bytes c.id.bytes = .lt :=
    fun p hp => Id.compare_bytes_eq_lt.mpr (Nat.lt_of_le_of_lt (h.id_le p hp) hc)
  have hgt : ∀ e ∈ t.entries, KeyOrder.lexicographic c.id.bytes e.1 = .gt := by
    intro e he
    rw [h.entries_eq] at he
    obtain ⟨p, hp, rfl⟩ := List.mem_map.mp he
    exact Std.OrientedCmp.gt_of_lt (hlt p hp)
  have hlast : Dictionary.insert KeyOrder.lexicographic c.id.bytes bs (t.entries ++ []) =
    t.entries ++ [(c.id.bytes, bs)] := Dictionary.insert_append_right hgt
  rw [List.append_nil] at hlast
  refine ⟨horder, hentries ▸ h.ascending.insert _ _, ?_, ?_, ?_⟩
  · rw [hentries, hlast, h.entries_eq, List.map_append]
    rfl
  · intro p hp
    rcases List.mem_append.mp hp with hp | hp
    · exact h.decode_eq p hp
    · rw [List.mem_singleton.mp hp]
      exact hdecode
  · intro p hp
    rcases List.mem_append.mp hp with hp | hp
    · exact Nat.le_trans (h.id_le p hp) (Nat.le_of_lt hc)
    · obtain rfl := List.mem_singleton.mp hp
      exact Nat.le_refl _

variable {h : History}

theorem commits_eq (ht : h.snapshot.tables[h.tables.history]? = some t)
    (hchronicles : t.Chronicles latest records) : h.commits = .ok (records.map fun p => p.1.id) := by
  rw [History.commits, Snapshot.table_eq ht]
  apply Stateful.mapM_eq_ok
  rw [hchronicles.entries_eq, List.map_map, List.map_map]
  apply List.map_congr_left
  intro p _
  change History.readCommitId p.1.id.bytes = _
  rw [History.readCommitId, Id.ofBytes?_bytes]
  rfl

theorem record?_of_mem (ht : h.snapshot.tables[h.tables.history]? = some t)
    (hchronicles : t.Chronicles latest records) {p : Commit × Bytes} (hp : p ∈ records) :
    h.record? p.1.id = some p.2 := by
  rw [History.record?, Snapshot.table_eq ht, Table.get?, hchronicles.order_eq,
    Dictionary.get?_eq_some_iff hchronicles.ascending, hchronicles.entries_eq]
  exact List.mem_map_of_mem hp

theorem commit?_of_mem (ht : h.snapshot.tables[h.tables.history]? = some t)
    (hchronicles : t.Chronicles latest records) {p : Commit × Bytes} (hp : p ∈ records) :
    h.commit? p.1.id = .ok (some p.1) := by
  rw [History.commit?, hchronicles.record?_of_mem ht hp]
  change some <$> Commit.decode p.1.id p.2 = _
  rw [hchronicles.decode_eq p hp]
  rfl

theorem replay_history (ht : h.snapshot.tables[h.tables.history]? = some t)
    (hchronicles : t.Chronicles latest records) :
    h.replay = .ok ((records.map Prod.fst).foldl Commit.replay []) := by
  have hfold : ∀ (l : List (Commit × Bytes)) (d : List Entry), (∀ p ∈ l, p ∈ records) →
      (l.map fun p => p.1.id).foldlM (fun d c => return (← h.commit? c).elim d (Commit.replay d)) d =
        .ok ((l.map Prod.fst).foldl Commit.replay d) := by
    intro l
    induction l with
    | nil => exact fun _ _ => rfl
    | cons p l ih =>
      intro d hl
      rw [List.map_cons, List.foldlM_cons, hchronicles.commit?_of_mem ht (hl p List.mem_cons_self)]
      exact ih _ fun q hq => hl q (List.mem_cons_of_mem _ hq)
  rw [History.replay, hchronicles.commits_eq ht]
  exact hfold records [] fun _ hp => hp

end Table.Chronicles

end ObjectGraph
