import ObjectGraph.Proofs.History.Chronicle

namespace ObjectGraph

open Dictionary (Ascending)

structure History.Agrees (h : History) (records : List (Commit × Bytes)) : Prop where
  commits_eq : h.commits = .ok (records.map fun p => p.1.id)
  lastCommit?_eq : h.lastCommit? = .ok (records.getLast?.map fun p => p.1.id)
  ascending : records.Pairwise fun p q => compare p.1.id q.1.id = .lt
  record?_eq : ∀ c, h.record? c = (records.find? fun p => p.1.id = c).map Prod.snd
  commit?_eq : ∀ c, h.commit? c = .ok ((records.find? fun p => p.1.id = c).map Prod.fst)
  nodup : ∀ p ∈ records, (p.1.objects.map ObjectChanges.object).Nodup
  commitsFor_eq : ∀ object, h.commitsFor object =
    .ok ((records.filter fun p => (p.1.changesFor? object).isSome).map fun p => p.1.id)

structure Archived (latest : Nat) (records : List (Commit × Bytes)) (history index : Table) : Prop where
  chronicles : history.Chronicles latest records
  proper : ∀ p ∈ records, CommitId.Proper p.1.id.toNat
  nodup : ∀ p ∈ records, (p.1.objects.map ObjectChanges.object).Nodup
  valid : index.Valid KeyOrder.lexicographic
  mem_index : ∀ e, e ∈ index.entries ↔
    ∃ p ∈ records, ∃ o ∈ p.1.objects, e = (objectCommitKey o.object p.1.id, [])

inductive Commit.Files (c : CommitId) (history index : Table) :
    List (Commit × Bytes) → Table → Table → Prop where
  | nothing : Files c history index [] history index
  | record {commit : Commit} {bs : Bytes} : commit.id = c → Commit.decode c bs = .ok commit →
      (commit.objects.map ObjectChanges.object).Nodup →
      Files c history index [(commit, bs)] (history.insert c.bytes bs)
        ((commit.objects.map fun o => objectCommitKey o.object c).foldl (fun t k => t.insert k []) index)

theorem Commit.isSome_changesFor? {c : Commit} {object : Id} :
    (c.changesFor? object).isSome ↔ ∃ o ∈ c.objects, o.object = object := by
  rw [changesFor?, List.find?_isSome]
  simp

namespace Table.Chronicles

variable {latest : Nat} {records : List (Commit × Bytes)} {t : Table} {h : History}

theorem pairwise (hchronicles : t.Chronicles latest records) :
    records.Pairwise fun p q => compare p.1.id q.1.id = .lt := by
  have hascending := hchronicles.ascending
  rw [hchronicles.entries_eq, Ascending, List.pairwise_map] at hascending
  exact hascending

theorem lastCommit?_eq (ht : h.snapshot.tables[h.tables.history]? = some t)
    (hchronicles : t.Chronicles latest records) :
    h.lastCommit? = .ok (records.getLast?.map fun p => p.1.id) := by
  rw [History.lastCommit?, Snapshot.table_eq ht, Table.last, hchronicles.entries_eq, List.getLast?_map]
  cases records.getLast? with
  | none => rfl
  | some p =>
    simp only [Option.map_some, Option.toList_some, History.readCommitId, Id.ofBytes?_bytes]
    rfl

theorem record?_eq (ht : h.snapshot.tables[h.tables.history]? = some t)
    (hchronicles : t.Chronicles latest records) (c : CommitId) :
    h.record? c = (records.find? fun p => p.1.id = c).map Prod.snd := by
  cases hfind : records.find? fun p => p.1.id = c with
  | some p =>
    obtain rfl : p.1.id = c := by simpa using List.find?_some hfind
    exact hchronicles.record?_of_mem ht (List.mem_of_find?_eq_some hfind)
  | none =>
    rw [Option.map_none, ← Option.not_isSome_iff_eq_none, Option.isSome_iff_exists]
    rintro ⟨bs, hbs⟩
    rw [History.record?, Snapshot.table_eq ht, Table.get?, hchronicles.order_eq,
      Dictionary.get?_eq_some_iff hchronicles.ascending, hchronicles.entries_eq] at hbs
    obtain ⟨p, hp, heq⟩ := List.mem_map.mp hbs
    have hid : p.1.id = c := Id.bytes_injective (congrArg Prod.fst heq)
    exact List.find?_eq_none.mp hfind p hp (decide_eq_true hid)

theorem commit?_eq (ht : h.snapshot.tables[h.tables.history]? = some t)
    (hchronicles : t.Chronicles latest records) (c : CommitId) :
    h.commit? c = .ok ((records.find? fun p => p.1.id = c).map Prod.fst) := by
  cases hfind : records.find? fun p => p.1.id = c with
  | some p =>
    obtain rfl : p.1.id = c := by simpa using List.find?_some hfind
    exact hchronicles.commit?_of_mem ht (List.mem_of_find?_eq_some hfind)
  | none =>
    rw [History.commit?, hchronicles.record?_eq ht, hfind]
    rfl

end Table.Chronicles

theorem Table.foldl_insert_spec {t : Table} (hvalid : t.Valid KeyOrder.lexicographic)
    (hempty : ∀ e ∈ t.entries, e.2 = []) (keys : List Bytes) :
    let t' := keys.foldl (fun t k => t.insert k []) t
    t'.Valid KeyOrder.lexicographic ∧
      ∀ e, e ∈ t'.entries ↔ e ∈ t.entries ∨ ∃ k ∈ keys, e = (k, []) := by
  induction keys generalizing t with
  | nil => exact ⟨hvalid, fun e => by simp⟩
  | cons k keys ih =>
    have hvalid' : (t.insert k []).Valid KeyOrder.lexicographic :=
      ⟨hvalid.order_eq, by rw [Table.insert, hvalid.order_eq]; exact hvalid.ascending.insert _ _⟩
    have hmem : ∀ e, e ∈ (t.insert k []).entries ↔ e ∈ t.entries ∨ e = (k, []) := by
      intro e
      rw [Table.insert, hvalid.order_eq, Dictionary.mem_insert hvalid.ascending]
      constructor
      · rintro (he | ⟨he, -⟩)
        · exact .inr he
        · exact .inl he
      · rintro (he | he)
        · by_cases hk : k = e.1
          · exact .inl (Prod.ext hk.symm (hempty e he))
          · exact .inr ⟨he, fun heq => hk (KeyOrder.lexicographic_eq_iff.mp heq)⟩
        · exact .inl he
    have hempty' : ∀ e ∈ (t.insert k []).entries, e.2 = [] := by
      intro e he
      rcases (hmem e).mp he with he | rfl
      · exact hempty e he
      · rfl
    obtain ⟨hlast, hmem'⟩ := ih hvalid' hempty'
    refine ⟨hlast, fun e => ?_⟩
    rw [List.foldl_cons, hmem', hmem]
    simp [or_assoc]

namespace Archived

variable {latest latest' : Nat} {records : List (Commit × Bytes)} {history index history' index' : Table}

theorem entriesFor_eq (h : Archived latest records history index) (object : Id) :
    (index.startingAt object.bytes).takeWhile (fun e => object.bytes.isPrefixOf e.1) =
      (records.filter fun p => (p.1.changesFor? object).isSome).map
        fun p => (objectCommitKey object p.1.id, []) := by
  rw [h.valid.startingAt_eq]
  have hentries : Ascending KeyOrder.lexicographic
      ((records.filter fun p => (p.1.changesFor? object).isSome).map
        fun p => (objectCommitKey object p.1.id, ([] : Bytes))) := by
    refine List.pairwise_map.mpr ((h.chronicles.pairwise.sublist List.filter_sublist).imp ?_)
    intro p q hpq
    exact (KeyOrder.compare_append_left object.bytes p.1.id.bytes q.1.id.bytes).trans hpq
  have hstretch := (h.valid.ascending.startingAt object.bytes).sublist
    (List.takeWhile_sublist fun e => object.bytes.isPrefixOf e.1)
  -- the entries of an object lie together, and both lists ascend
  refine Ascending.ext hstretch hentries fun e => ?_
  rw [Dictionary.mem_takeWhile_prefix h.valid.ascending, h.mem_index, List.mem_map]
  constructor
  · rintro ⟨⟨p, hp, o, ho, rfl⟩, rest, hrest⟩
    obtain ⟨rfl, -⟩ := Id.append_injective hrest
    exact ⟨p, List.mem_filter.mpr ⟨hp, Commit.isSome_changesFor?.mpr ⟨o, ho, rfl⟩⟩, rfl⟩
  · rintro ⟨p, hfilter, rfl⟩
    obtain ⟨hp, hsome⟩ := List.mem_filter.mp hfilter
    obtain ⟨o, ho, rfl⟩ := Commit.isSome_changesFor?.mp hsome
    exact ⟨⟨p, hp, o, ho, rfl⟩, List.prefix_append _ _⟩

theorem commitsFor_eq {h : History} (hindex : h.snapshot.tables[h.tables.historyByObject]? = some index)
    (harchived : Archived latest records history index) (object : Id) : h.commitsFor object =
      .ok ((records.filter fun p => (p.1.changesFor? object).isSome).map fun p => p.1.id) := by
  rw [History.commitsFor, Snapshot.table_eq hindex]
  rw [harchived.entriesFor_eq]
  apply Stateful.mapM_eq_ok
  rw [List.map_map, List.map_map]
  apply List.map_congr_left
  intro p _
  change History.readObjectCommit object (object.bytes ++ p.1.id.bytes) = _
  rw [History.readObjectCommit, List.drop_left, Id.ofBytes?_bytes]
  rfl

theorem agrees {h : History} (hhistory : h.snapshot.tables[h.tables.history]? = some history)
    (hindex : h.snapshot.tables[h.tables.historyByObject]? = some index)
    (harchived : Archived latest records history index) : h.Agrees records where
  commits_eq := harchived.chronicles.commits_eq hhistory
  lastCommit?_eq := harchived.chronicles.lastCommit?_eq hhistory
  ascending := harchived.chronicles.pairwise
  record?_eq := harchived.chronicles.record?_eq hhistory
  commit?_eq := harchived.chronicles.commit?_eq hhistory
  nodup := harchived.nodup
  commitsFor_eq := harchived.commitsFor_eq hindex

theorem mono (h : Archived latest records history index) (hle : latest ≤ latest') :
    Archived latest' records history index := { h with chronicles := h.chronicles.mono hle }

theorem resumed (h : Archived latest records history index) {sequence : CommitSequence}
    (hlatest : sequence.latest = (records.getLast?.elim 0 fun p => p.1.id.toNat)) :
    sequence.Proper ∧ Archived sequence.latest records history index := by
  cases hlast : records.getLast? with
  | none =>
    rw [hlast] at hlatest
    obtain rfl := List.getLast?_eq_none_iff.mp hlast
    exact ⟨.inl hlatest, { h with chronicles := { h.chronicles with id_le := nofun } }⟩
  | some last =>
    rw [hlast] at hlatest
    obtain ⟨earlier, rfl⟩ := List.getLast?_eq_some_iff.mp hlast
    have hpairwise := h.chronicles.pairwise
    rw [List.pairwise_append] at hpairwise
    refine ⟨.inr (hlatest ▸ h.proper last (by simp)), { h with chronicles := { h.chronicles with id_le := ?_ } }⟩
    rw [hlatest]
    refine List.forall_mem_append.mpr ⟨fun p hp => ?_, List.forall_mem_singleton.mpr (Nat.le_refl _)⟩
    exact Nat.le_of_lt (Id.compare_bytes_eq_lt.mp (hpairwise.2.2 p hp last List.mem_cons_self))

theorem files (h : Archived latest records history index) {c : CommitId} {added : List (Commit × Bytes)}
    (hc : latest < c.toNat) (hproper : CommitId.Proper c.toNat)
    (hfiles : Commit.Files c history index added history' index') :
    Archived c.toNat (records ++ added) history' index' := by
  cases hfiles with
  | nothing =>
    rw [List.append_nil]
    exact h.mono (Nat.le_of_lt hc)
  | @record commit bs hid hdecode hnodup =>
    subst hid
    have hempty : ∀ e ∈ index.entries, e.2 = [] := by
      intro e he
      obtain ⟨p, -, o, -, rfl⟩ := (h.mem_index e).mp he
      rfl
    obtain ⟨hvalid, hmem⟩ := Table.foldl_insert_spec h.valid hempty
      (commit.objects.map fun o => objectCommitKey o.object commit.id)
    refine ⟨h.chronicles.append hdecode hc h.chronicles.order_eq ?_, ?_, ?_, hvalid, fun e => ?_⟩
    · rw [Table.insert, h.chronicles.order_eq]
    · exact List.forall_mem_append.mpr ⟨h.proper, List.forall_mem_singleton.mpr hproper⟩
    · exact List.forall_mem_append.mpr ⟨h.nodup, List.forall_mem_singleton.mpr hnodup⟩
    · rw [hmem, h.mem_index]
      simp [or_and_right, exists_or, eq_comm]

end Archived

end ObjectGraph
