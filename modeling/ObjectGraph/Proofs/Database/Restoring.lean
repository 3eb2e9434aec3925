import ObjectGraph.Proofs.Database.Steps
import ObjectGraph.Proofs.Search.Rebuild

namespace ObjectGraph

namespace Rebuild

variable {objects before after : List Entry} {field object : Id} {v : Variant} {content key bytes : Bytes}

/-- Of all four variants a search table has the entries that the values of a field contribute, with nothing
stored under them, and no other entry of the field. -/
def Exact (objects : List Entry) (field : Id) (entries : List Entry) : Prop :=
  ∀ v content object bytes, (IndexKey.encode v field content object, bytes) ∈ entries ↔
    bytes = [] ∧ ∃ raw, ((Key.field object field).bytes, raw) ∈ objects ∧ Contributes raw v content

theorem posted_encode : Posted objects field (IndexKey.encode v field content object) ↔
    ∃ raw, ((Key.field object field).bytes, raw) ∈ objects ∧ Contributes raw v content := by
  constructor
  · rintro ⟨object', raw, hvalue, v', content', hcontent, hkey⟩
    obtain ⟨rfl, -, rfl, rfl⟩ := IndexKey.encode_injective hkey
    exact ⟨raw, hvalue, hcontent⟩
  · rintro ⟨raw, hvalue, hcontent⟩
    exact ⟨object, raw, hvalue, v, content, hcontent, rfl⟩

theorem Refills.exact (h : Refills objects field before after) : Exact objects field after := by
  intro v content object bytes
  have his : ∃ v', (⟨v.tag, field, content, object⟩ : IndexKey).Is v' field := ⟨v, rfl, rfl⟩
  rw [← posted_encode, IndexKey.encode, h, and_comm]
  exact or_iff_left fun hkept => hkept.2.2 his

theorem Refills.mem_iff_of_ne (h : Refills objects field before after) (hbefore : Postings before)
    (hafter : Postings after) (hkey : ∀ v content object, key ≠ IndexKey.encode v field content object) :
    (key, bytes) ∈ after ↔ (key, bytes) ∈ before := by
  have hkeep (k : IndexKey) (hk : k.bytes = key) : (k.bytes, bytes) ∈ after ↔ (k.bytes, bytes) ∈ before := by
    have hposted : ¬ Posted objects field k.bytes := by
      rintro ⟨object, raw, -, v, content, -, hposts⟩
      exact hkey v content object (hk.symm.trans hposts)
    have his : ¬ ∃ v, k.Is v field := by
      rintro ⟨v, his⟩
      exact hkey v k.value k.object (hk.symm.trans his.bytes_eq)
    rw [h k bytes]
    simp only [hposted, his, false_and, false_or, not_false_eq_true, true_and, and_true]
  constructor
  · intro he
    obtain ⟨k, rfl, -⟩ := hafter.indexable _ he
    exact (hkeep k rfl).mp he
  · intro he
    obtain ⟨k, rfl, -⟩ := hbefore.indexable _ he
    exact (hkeep k rfl).mpr he

theorem Refills.eq_of_exact (h : Refills objects field before after) (hbefore : Postings before)
    (hafter : Postings after) (hexact : Exact objects field before) : after = before := by
  apply hafter.ext hbefore
  intro k bytes
  by_cases his : ∃ v, k.Is v field
  · obtain ⟨v, his⟩ := his
    rw [his.bytes_eq, h.exact, hexact]
  · apply h.mem_iff_of_ne hbefore hafter
    intro v content object hk
    exact his ⟨v, by rw [IndexKey.bytes_injective hk]; exact ⟨rfl, rfl⟩⟩

end Rebuild

namespace Database

variable {db : Database} {objects search : Table}

/-- A rebuild that succeeds leaves the field with exactly the entries of its stored values, counts these,
and touches nothing else; where the entries were right it touches nothing at all. -/
theorem rebuildSearch_restores
    (hobjects : db.store.committed.tables[db.catalog.tables.objects]? = some objects)
    (hsearch : db.store.committed.tables[db.catalog.tables.search]? = some search)
    (horder : search.order = KeyOrder.search) (hpostings : Postings search.entries) (field : Id) :
    (∀ n db', db.rebuildSearch field = .ok (n, db') →
      n = (objects.entries.filter fun e => e.1.length = 32 ∧ e.1.drop 16 = field.bytes).length ∧
      ∃ entries size,
        db' = { db with store.committed := ⟨db.store.committed.tables.set db.catalog.tables.search
          (search.withEntries entries), size⟩ } ∧
        Postings entries ∧ Rebuild.Exact objects.entries field entries ∧
        (∀ key bytes, (∀ v content object, key ≠ IndexKey.encode v field content object) →
          ((key, bytes) ∈ entries ↔ (key, bytes) ∈ search.entries)) ∧
        (Rebuild.Exact objects.entries field search.entries → entries = search.entries)) ∧
    ∀ e sessions, db.rebuildSearch field = .error e →
      (Step.rebuilt field).perform ⟨db, sessions⟩ = (.error e, ⟨db, sessions⟩) := by
  constructor
  · intro n db' hrebuild
    obtain ⟨x, hrun, rfl⟩ := exists_of_rebuildSearch hrebuild
    obtain ⟨-, hn, entries, hreplaces, hentries, hrefills⟩ :=
      Rebuild.run_eq_ok hobjects hsearch horder hpostings hrun
    obtain ⟨table, htable, htables⟩ := hreplaces.tables_eq
    cases hsearch.symm.trans htable
    refine ⟨hn.trans Rebuild.length_values, entries, x.working.size, ?_, hentries, hrefills.exact, ?_, ?_⟩
    · have hworking : x.working = ⟨db.store.committed.tables.set db.catalog.tables.search
          (search.withEntries entries), x.working.size⟩ := congrArg (Snapshot.mk · x.working.size) htables
      rw [Store.publish, hworking]
    · exact fun key bytes hkey => hrefills.mem_iff_of_ne hpostings hentries hkey
    · exact hrefills.eq_of_exact hpostings hentries
  · intro e sessions hrebuild
    rw [rebuildSearch_eq] at hrebuild
    rcases rebuild_cases db field with ⟨n, x, -, hrun⟩ | ⟨e', hrun⟩
    · rw [hrun] at hrebuild
      contradiction
    · rw [hrun] at hrebuild
      cases hrebuild
      simp only [Step.perform, hrun]
      rfl

def misled : Database :=
  let name := Id.ofNat 7
  ⟨⟨⟨0, 1, 2, 3⟩, ⟨[], [(name, ⟨name, "name", Id.ofNat 5, .string, true, none⟩)]⟩, {}⟩,
    ⟨10000, [⟨"objects", KeyOrder.lexicographic,
        [((Key.field (Id.ofNat 1) name).bytes, (Value.string "cab").encode),
          ((Key.field (Id.ofNat 2) name).bytes, (Value.boolean true).encode)]⟩,
      ⟨"history", KeyOrder.lexicographic, []⟩, ⟨"history_by_object", KeyOrder.lexicographic, []⟩,
      ⟨"search", KeyOrder.search,
        [(IndexKey.encode .normal name (Utf8.encode "cab") (Id.ofNat 1), [9]),
          (IndexKey.encode .normal name (Utf8.encode "old") (Id.ofNat 3), []),
          (IndexKey.encode .normal (Id.ofNat 8) (Utf8.encode "cab") (Id.ofNat 1), []),
          (IndexKey.encode .ngram name (Utf8.encode "old") (Id.ofNat 3), [])]⟩], 0⟩, ⟨0⟩⟩

theorem rebuildSearch_misled :
    (misled.rebuildSearch (Id.ofNat 7)).toOption.map (fun (n, db) =>
      (n, (db.store.committed.table 3).entries.length)) = some (2, 5) := by decide +kernel

theorem rebuildSearch_restores_misled : ∃ db', misled.rebuildSearch (Id.ofNat 7) = .ok (2, db') ∧
    ¬ Rebuild.Exact (misled.store.committed.table 0).entries (Id.ofNat 7)
      (misled.store.committed.table 3).entries ∧
    ∃ entries, (db'.store.committed.table 3).entries = entries ∧ entries.length = 5 ∧
      Rebuild.Exact (misled.store.committed.table 0).entries (Id.ofNat 7) entries := by
  obtain ⟨⟨n, db'⟩, hrebuild, hcounts⟩ := Option.map_eq_some_iff.mp rebuildSearch_misled
  obtain ⟨rfl, hlength⟩ := Prod.mk.inj hcounts
  have hrebuild := Stateful.ok_of_toOption hrebuild
  have hindexable (k : IndexKey) (hk : k.variant ≠ Variant.scalar.tag) : Indexable k.bytes :=
    ⟨k, rfl, fun hv => absurd hv hk⟩
  have hpostings : Postings (misled.store.committed.table 3).entries := by
    refine ⟨?_, by decide +kernel⟩
    intro e he
    simp only [misled, Snapshot.table, List.getD_cons_succ, List.getD_cons_zero, List.mem_cons,
      List.not_mem_nil, or_false] at he
    rcases he with rfl | rfl | rfl | rfl <;> exact hindexable _ (by decide)
  obtain ⟨hok, -⟩ := @rebuildSearch_restores misled _ _ rfl rfl rfl hpostings (Id.ofNat 7)
  obtain ⟨-, entries, size, rfl, -, hexact, -⟩ := hok 2 db' hrebuild
  refine ⟨_, hrebuild, fun hbefore => ?_, entries, rfl, hlength, hexact⟩
  obtain ⟨-, raw, hraw, -⟩ := (hbefore .normal (Utf8.encode "old") (Id.ofNat 3) []).mp (by decide +kernel)
  have hkey : (Key.field (Id.ofNat 3) (Id.ofNat 7)).bytes ∈
      (misled.store.committed.table 0).entries.map Prod.fst := List.mem_map_of_mem hraw
  revert hkey
  decide +kernel

end Database

end ObjectGraph
