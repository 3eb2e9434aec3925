import ObjectGraph.Proofs.Database.Opening
/-!
A database that is created over a store anew lays its schema over what the store holds, and takes nothing
away. What is opened then is all that was ever defined, if that still makes a schema.
-/

namespace ObjectGraph

open Stateful

/-- The stores that are left when databases are created, one after the other, over a store that is empty
at first. -/
inductive Recreated : List Schema → Store → Prop where
  | empty (mapSize : Nat) : Recreated [] (Store.empty mapSize)
  | created {schemas : List Schema} {store : Store} {schema : Schema} {config : Config} {stamp : Stamp}
      {db : Database} : Recreated schemas store → schema.Built →
      Database.create store schema config stamp = .ok db → Recreated (schemas ++ [schema]) db.store

structure Store.Keeps (s : Schema) (store : Store) : Prop where
  tabled : store.Tabled
  objects : ∃ base, store.committed.tables[0]? = some base ∧ base.Valid KeyOrder.lexicographic ∧
    Keyed base.entries ∧ recorded base.entries = (Graph.ofDefinitions s.definition?).records

namespace Store

variable {s : Schema} {store : Store}

theorem Keeps.describes (h : store.Keeps s) : store.Describes s := by
  obtain ⟨base, hcommitted, hbase, hkeyed, hrecords⟩ := h.objects
  exact ⟨h.tabled, base, hcommitted, hbase, hkeyed, hrecords ▸ Graph.defines_ofDefinitions s.definition?⟩

theorem Keeps.empty (mapSize : Nat) : ∃ store, (Store.empty mapSize).openTables = .ok (⟨0, 1, 2, 3⟩, store) ∧
    store.Keeps Schema.builtin := by
  refine ⟨_, rfl, ⟨rfl, _, rfl, nofun⟩, _, rfl, ⟨rfl, .nil⟩, nofun, ?_⟩
  funext k
  cases k with
  | object a => simp [recorded, Graph.records, Graph.ofDefinitions, Schema.definition?_builtin]; rfl
  | field a f => simp [recorded, Graph.records, Graph.ofDefinitions, Schema.definition?_builtin]; rfl
  | association e => rfl

end Store

namespace Database

variable {s : Schema} {schema : Schema} {config : Config} {stamp : Stamp} {store opened : Store}
  {tables : Tables} {db db' : Database}

theorem create_over_eq_ok (hopen : store.openTables = .ok (tables, opened))
    (h : create store schema config stamp = .ok db) : schema.validate = .ok ⟨⟩ ∧ ∃ sequence s w c w',
      session ⟨⟨tables, schema, config⟩, opened, sequence⟩ true = .ok s ∧
      (Working.edit schema.store).run ⟨⟨⟨tables, schema, config⟩, opened, sequence⟩, s⟩ = (.ok ⟨⟩, w) ∧
      (Working.commit stamp).run w = (.ok c, w') ∧ db = w'.database := by
  obtain ⟨⟨⟩, hvalid, h⟩ := bind_eq_ok.mp h
  rw [hopen, ok_bind] at h
  obtain ⟨resumed, hresume, h⟩ := bind_eq_ok.mp h
  rcases htransaction : resumed.transaction stamp (Working.edit schema.store) with ⟨result, db'⟩
  simp only [htransaction] at h
  obtain ⟨⟨⟩, hok, h⟩ := bind_eq_ok.mp h
  cases h
  rw [hok] at htransaction
  rw [resume_eq_ok hresume] at htransaction
  exact ⟨hvalid, _, transaction_eq_ok htransaction⟩

end Database

namespace Store

variable {s t : Schema} {store : Store} {sequence : CommitSequence} {config : Config}

theorem Keeps.holds (h : store.Keeps s) (ht : t.Lawful) (config : Config) (sequence : CommitSequence) :
    ∃ base, Database.Holds t base ⟨⟨⟨0, 1, 2, 3⟩, t, config⟩, store, sequence⟩ ∧
      recorded base.entries = (Graph.ofDefinitions s.definition?).records := by
  obtain ⟨base, hcommitted, hvalid, hkeyed, hrecords⟩ := h.objects
  have hg := Graph.integrity_ofDefinitions ht s.definition?
  have hdistinct : Tables.Distinct ⟨0, 1, 2, 3⟩ := @Database.fresh_distinct store.mapSize t config
  exact ⟨base, ⟨rfl, hdistinct, hcommitted, hvalid, hkeyed.fits (hrecords ▸ hg)⟩, hrecords⟩

theorem Keeps.of_commits {w w' : Work} {base : Table} {stamp : Stamp} {c : Option CommitId} {u : Schema}
    (h : w.database.store.Keeps s) (htables : w.database.catalog.tables = ⟨0, 1, 2, 3⟩) (ht : t.Lawful)
    (hdb : w.database.Holds t base)
    (hs : w.session.Shows w.database.catalog base (Graph.ofDefinitions u.definition?).records)
    (hcommits : Working.Commits stamp w (.ok c) w') : w'.database.store.Keeps u := by
  have htabled : w'.database.store.Tabled :=
    h.tabled.of_commits ((congrArg Catalog.tables hs.catalog_eq).trans htables) hcommits
  have hg := Graph.integrity_ofDefinitions ht u.definition?
  cases hcommits with
  | clean hclean =>
    have hview : w.session.workspace.view = base.entries := by
      rw [Workspace.view_of_entries_eq_nil (hs.valid.pending_eq_zero_iff.mp (not_not.mp hclean)), hs.base_eq]
    refine ⟨htabled, base, ?_, hdb.valid, hdb.fits.keyed, ?_⟩
    · rw [← hdb.committed, htables]
    · rw [← hview, hs.records_eq]
  | published _ _ _ hpublish =>
    obtain ⟨hdb', hs'⟩ := Working.shows_of_publish hdb hs hg hpublish
    have hcommitted := hdb'.committed
    rw [htables] at hcommitted
    exact ⟨htabled, _, hcommitted, hdb'.valid, hdb'.fits.keyed, hs.records_eq⟩

theorem Keeps.create (h : store.Keeps s) (hs : s.Lawful) (ht : t.Lawful) {config : Config} {stamp : Stamp}
    {start : Store} {db : Database} (hopen : start.openTables = .ok (⟨0, 1, 2, 3⟩, store))
    (hcreate : Database.create start t config stamp = .ok db) : db.store.Keeps (s.overlay t) := by
  obtain ⟨-, sequence, w₀, w, c, w', hsession, hstore, hcommit, rfl⟩ :=
    Database.create_over_eq_ok hopen hcreate
  obtain ⟨base, hdb, hrecords⟩ := h.holds ht config sequence
  have hshows := hdb.shows hsession
  rw [hrecords] at hshows
  obtain ⟨_, _, _, -, -, rfl⟩ := Session.create_eq_ok hsession
  rw [Working.edit_run, Prod.mk.injEq] at hstore
  obtain ⟨hok, rfl⟩ := hstore
  have hstored := (Schema.store_triple ht hs ht).ok hshows (Prod.ext hok rfl)
  exact @Keeps.of_commits _ _ ⟨_, _⟩ _ _ _ _ _ h rfl ht hdb hstored (Working.commits_of_run hcommit)

end Store

def Store.recreate (store : Store) (schemas : List Schema) : Except Error Store :=
  schemas.foldlM (fun store s => do return (← Database.create store s {} ⟨0, 0⟩).store) store

namespace Recreated

variable {schemas : List Schema} {store : Store}

theorem keeps (h : Recreated schemas store) :
    (∀ s ∈ schemas, s.Lawful ∧ s.validate = .ok ⟨⟩) ∧
      (schemas.foldl Schema.overlay Schema.builtin).Lawful ∧
      (schemas.foldl Schema.overlay Schema.builtin).Proper ∧
      ∃ opened, store.openTables = .ok (⟨0, 1, 2, 3⟩, opened) ∧
        opened.Keeps (schemas.foldl Schema.overlay Schema.builtin) := by
  induction h with
  | empty mapSize =>
    refine ⟨nofun, .builtin, ?_, Store.Keeps.empty mapSize⟩
    intro a d hd
    rw [List.foldl_nil, Schema.definition?_builtin] at hd
    contradiction
  | @created schemas store schema config stamp db _ hbuilt hcreate ih =>
    obtain ⟨hschemas, hlawful, hproper, opened, hopen, hkeeps⟩ := ih
    obtain ⟨hvalid, -⟩ := Database.create_over_eq_ok hopen hcreate
    have hkept := hkeeps.create hlawful hbuilt.lawful hopen hcreate
    rw [List.foldl_append, List.foldl_cons, List.foldl_nil]
    refine ⟨?_, hlawful.overlay hbuilt.lawful, hproper.overlay hlawful hbuilt.lawful (hbuilt.proper hvalid), _,
      Database.openTables_eq hkept.tabled.names, hkept⟩
    intro s hs
    rcases List.mem_append.mp hs with hs | hs
    · exact hschemas s hs
    · rw [List.mem_singleton.mp hs]
      exact ⟨hbuilt.lawful, hvalid⟩

/-- A database that is opened after a row of creations has all that their schemas define, and where they
differ goes by the later ones, if that validates. So it has the last schema exactly if that one defines
whatever was defined before. -/
theorem opens_overlay {earlier : List Schema} {last : Schema} (h : Recreated (earlier ++ [last]) store)
    (config : Config) :
    let kept := (earlier ++ [last]).foldl Schema.overlay Schema.builtin
    let opened := (Database.ofStore store config).map (·.catalog.schema)
    opened = (if config.pageSize = 0 then .error (.invalidArgument .zeroPageSize)
      else kept.validate).map (fun _ => kept) ∧
    (config.pageSize ≠ 0 → (opened = .ok last ↔ ∀ s ∈ earlier, s.identifiers ⊆ last.identifiers)) := by
  obtain ⟨hschemas, hlawful, hproper, _, hopen, hkeeps⟩ := h.keeps
  have hopened := hkeeps.describes.ofStore_eq hlawful hproper hopen config
  refine ⟨hopened, fun hpage => ?_⟩
  rw [hopened, if_neg hpage]
  constructor
  · intro hlast s hs a ha
    obtain ⟨_, -, hkept⟩ := map_eq_ok.mp hlast
    rw [← hkept, Schema.identifiers_overlays fun t ht => (hschemas t ht).1]
    exact ⟨s, List.mem_append_left _ hs, ha⟩
  · intro hcovers
    obtain ⟨hlast, hvalid⟩ := hschemas last (by simp)
    have hearlier : ∀ s ∈ earlier, s.Lawful := fun s hs => (hschemas s (List.mem_append_left _ hs)).1
    have hkept : (earlier ++ [last]).foldl Schema.overlay Schema.builtin = last := by
      rw [List.foldl_append, List.foldl_cons, List.foldl_nil]
      apply (Schema.lawful_overlays hearlier).overlay_eq_right hlast
      intro a ha
      obtain ⟨s, hs, ha⟩ := (Schema.identifiers_overlays hearlier).mp ha
      exact hcovers s hs ha
    rw [hkept, hvalid]
    rfl

theorem row {done schemas : List Schema} {start : Store} (h : Recreated done start)
    (hbuilt : ∀ s ∈ schemas, s.Built) (hrow : start.recreate schemas = .ok store) :
    Recreated (done ++ schemas) store := by
  induction schemas generalizing done start with
  | nil =>
    cases hrow
    rwa [List.append_nil]
  | cons s schemas ih =>
    obtain ⟨hs, hbuilt⟩ := List.forall_mem_cons.mp hbuilt
    rw [Store.recreate, List.foldlM_cons] at hrow
    obtain ⟨_, hfirst, hrow⟩ := bind_eq_ok.mp hrow
    obtain ⟨db, hcreate, hend⟩ := bind_eq_ok.mp hfirst
    cases hend
    have hrest := ih (h.created hs hcreate) hbuilt hrow
    rwa [List.append_assoc] at hrest

end Recreated

def Schema.chain : Schema :=
  ((builtin.withType { id := Id.ofNat 0x1000, name := "node" }).withField
      { id := Id.ofNat 0x1001, name := "next", owner := Id.ofNat 0x1000, type := .association,
        pairing := some ⟨Id.ofNat 0x1002, false⟩ }).withField
    { id := Id.ofNat 0x1002, name := "previous", owner := Id.ofNat 0x1000, type := .association,
      pairing := some ⟨Id.ofNat 0x1001, false⟩ }

def Schema.leaves : Schema :=
  peers.withType { id := Id.ofNat 0x1002, name := "leaf", parent := some (Id.ofNat 0x1000) }

theorem Schema.built_chain : chain.Built :=
  ((Built.builtin.withType rfl).withField rfl rfl (by decide)).withField rfl rfl (by decide)

theorem Schema.built_peers : peers.Built :=
  (Built.builtin.withType rfl).withField rfl rfl (by decide)

theorem Schema.built_leaves : leaves.Built :=
  built_peers.withType rfl

namespace Recreated

/-- The field of the first schema that the second one leaves out asks for a mirror it no longer has. -/
theorem unopenable : ∃ store, Recreated [.chain, .peers] store ∧
    (Database.ofStore store {}).map (·.catalog.schema) =
      .error (.typeMismatch (Id.ofNat 0x1002) (.unreturnedMirror (Id.ofNat 0x1001))) := by
  have hrow : ((Store.empty 10000).recreate [.chain, .peers]).map (fun store =>
      (Database.ofStore store {}).map (·.catalog.schema)) =
      .ok (.error (.typeMismatch (Id.ofNat 0x1002) (.unreturnedMirror (Id.ofNat 0x1001)))) := by
    decide +kernel
  obtain ⟨store, hstore, hopened⟩ := map_eq_ok.mp hrow
  exact ⟨store, row (.empty 10000) (by simp [Schema.built_chain, Schema.built_peers]) hstore, hopened⟩

theorem opens_overlay_leaves : ∃ store, Recreated [.chain, .leaves] store ∧
    (Database.ofStore store {}).map (·.catalog.schema) = .ok .leaves := by
  have hrow : ((Store.empty 10000).recreate [.chain, .leaves]).map (fun _ => ()) = .ok () := by
    decide +kernel
  obtain ⟨store, hstore, -⟩ := map_eq_ok.mp hrow
  have hrecreated : Recreated [.chain, .leaves] store :=
    row (.empty 10000) (by simp [Schema.built_chain, Schema.built_leaves]) hstore
  have hopened := (@opens_overlay store [.chain] .leaves hrecreated {}).2 (by decide)
  exact ⟨store, hrecreated, hopened.mpr (by decide)⟩

end Recreated

end ObjectGraph
