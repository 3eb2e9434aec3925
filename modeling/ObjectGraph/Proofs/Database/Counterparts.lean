import ObjectGraph.Proofs.Database.Steps
import ObjectGraph.Proofs.Session.Redating
import ObjectGraph.Proofs.Session.Writes
/-!
Two runs of the same steps, of which each hands out its own commit identifiers: their tables are the same
but for the identifiers, which stand in the same order, and the times of the records.
-/

namespace ObjectGraph

open Stateful (Both Lockstep)

namespace CommitId

def OrderKept (P : CommitId → CommitId → Prop) : Prop :=
  ∀ c c' d d', P c c' → P d d' → (c.toNat < d.toNat ↔ c'.toNat < d'.toNat)

variable {P : CommitId → CommitId → Prop} {c c' d d' : CommitId} {n n' : Nat}

theorem OrderKept.compare_eq (h : OrderKept P) (hc : P c c') (hd : P d d') :
    compare c'.bytes d'.bytes = compare c.bytes d.bytes := by
  have hnumbers (a b : CommitId) : compare a.bytes b.bytes = compare a.toNat b.toNat :=
    (Bytes.compare_ofBigEndian (by rw [a.length_bytes, b.length_bytes])).symm
  have hlt := h c c' d d' hc hd
  have hgt := h d d' c c' hd hc
  rw [hnumbers, hnumbers]
  rcases Nat.lt_trichotomy c.toNat d.toNat with hless | heq | hmore
  · rw [Nat.compare_eq_lt.mpr hless, Nat.compare_eq_lt.mpr (hlt.mp hless)]
  · rw [Nat.compare_eq_eq.mpr heq, Nat.compare_eq_eq.mpr (by omega)]
  · rw [Nat.compare_eq_gt.mpr hmore, Nat.compare_eq_gt.mpr (hgt.mp hmore)]

def extend (P : CommitId → CommitId → Prop) (c c' d d' : CommitId) : Prop := P d d' ∨ d = c ∧ d' = c'

theorem OrderKept.extend (h : OrderKept P) (hbound : ∀ d d', P d d' → d.toNat ≤ n ∧ d'.toNat ≤ n')
    (hc : n < c.toNat) (hc' : n' < c'.toNat) : OrderKept (extend P c c') := by
  rintro a a' b b' (ha | ⟨rfl, rfl⟩) (hb | ⟨rfl, rfl⟩)
  · exact h a a' b b' ha hb
  · have := hbound a a' ha
    omega
  · have := hbound b b' hb
    omega
  · omega

end CommitId

def Tables.Counterpart (t : Tables) (P : CommitId → CommitId → Prop) (u : TableId) (e e' : Entry) : Prop :=
  if u = t.history then ∃ c c', P c c' ∧ e.1 = c.bytes ∧ e'.1 = c'.bytes ∧ Redated e.2 e'.2
  else if u = t.historyByObject then ∃ object c c', P c c' ∧ e.1 = objectCommitKey object c ∧
    e'.1 = objectCommitKey object c' ∧ e'.2 = e.2
  else e = e'

structure Tables.Chronological (t : Tables) (order : TableId → KeyOrder) : Prop where
  distinct : t.Distinct
  history_eq : order t.history = KeyOrder.lexicographic
  historyByObject_eq : order t.historyByObject = KeyOrder.lexicographic

namespace Tables

variable {t : Tables} {P P' : CommitId → CommitId → Prop} {order : TableId → KeyOrder} {u : TableId}
  {e e' : Entry} {c c' : CommitId}

theorem counterpart_eq (h : u ≠ t.history) (h' : u ≠ t.historyByObject) : t.Counterpart P u = Eq := by
  funext e e'
  rw [Counterpart, if_neg h, if_neg h']

theorem Counterpart.mono (h : t.Counterpart P u e e') (hP : ∀ c c', P c c' → P' c c') :
    t.Counterpart P' u e e' := by
  rw [Counterpart] at h ⊢
  split at h
  next hu =>
    obtain ⟨c, c', hc, hrest⟩ := h
    rw [if_pos hu]
    exact ⟨c, c', hP _ _ hc, hrest⟩
  next hu =>
    rw [if_neg hu]
    split at h
    next hu' =>
      obtain ⟨object, c, c', hc, hrest⟩ := h
      rw [if_pos hu']
      exact ⟨object, c, c', hP _ _ hc, hrest⟩
    next hu' =>
      rw [if_neg hu']
      exact h

theorem Chronological.corresponds (h : t.Chronological order) (hP : CommitId.OrderKept P) (u : TableId) :
    Corresponds (order u) (t.Counterpart P u) := by
  by_cases hu : u = t.history
  · rw [hu, h.history_eq]
    constructor
    · intro e e' he
      rw [Counterpart, if_pos rfl] at he
      obtain ⟨c, c', -, hkey, hkey', hvalue⟩ := he
      rw [entrySize, entrySize, hkey, hkey', c.length_bytes, c'.length_bytes, hvalue.length_eq]
    · intro e e' f f' he hf
      rw [Counterpart, if_pos rfl] at he hf
      obtain ⟨c, c', hc, hkey, hkey', -⟩ := he
      obtain ⟨d, d', hd, hfkey, hfkey', -⟩ := hf
      rw [hkey, hkey', hfkey, hfkey']
      exact hP.compare_eq hc hd
  · by_cases hu' : u = t.historyByObject
    · rw [hu', h.historyByObject_eq]
      have hne : t.historyByObject ≠ t.history := h.distinct.history_ne_historyByObject.symm
      constructor
      · intro e e' he
        rw [Counterpart, if_neg hne, if_pos rfl] at he
        obtain ⟨object, c, c', -, hkey, hkey', hvalue⟩ := he
        rw [entrySize, entrySize, hkey, hkey', hvalue, objectCommitKey, objectCommitKey,
          List.length_append, List.length_append, c.length_bytes, c'.length_bytes]
      · intro e e' f f' he hf
        rw [Counterpart, if_neg hne, if_pos rfl] at he hf
        obtain ⟨object, c, c', hc, hkey, hkey', -⟩ := he
        obtain ⟨object', d, d', hd, hfkey, hfkey', -⟩ := hf
        rw [hkey, hkey', hfkey, hfkey', objectCommitKey, objectCommitKey, objectCommitKey,
          objectCommitKey, KeyOrder.lexicographic, KeyOrder.lexicographic,
          Id.compare_append, Id.compare_append, hP.compare_eq hc hd]
    · rw [counterpart_eq hu hu']
      exact .eq _

theorem Chronological.redates (h : t.Chronological order) (hP : CommitId.OrderKept P) (hc : P c c') :
    t.Redates c c' order (t.Counterpart P) where
  corresponds := h.corresponds hP
  objects := counterpart_eq h.distinct.objects_ne_history h.distinct.objects_ne_historyByObject
  search := counterpart_eq h.distinct.search_ne_history h.distinct.search_ne_historyByObject
  record v v' hv := by
    rw [Counterpart, if_pos rfl]
    exact ⟨c, c', hc, rfl, rfl, hv⟩
  posting object := by
    rw [Counterpart, if_neg h.distinct.history_ne_historyByObject.symm, if_pos rfl]
    exact ⟨object, c, c', hc, rfl, rfl, rfl⟩

end Tables

structure Database.Counterpart (P : CommitId → CommitId → Prop) (db db' : Database) : Prop where
  catalog_eq : db'.catalog = db.catalog
  mapSize_eq : db'.store.mapSize = db.store.mapSize
  committed : db.store.committed.Matches (db.catalog.tables.Counterpart P) db'.store.committed

structure Database.Dated (db : Database) : Prop where
  proper : db.sequence.Proper
  chronological : ∃ order, db.catalog.tables.Chronological order ∧
    ∀ (u : TableId) table, db.store.committed.tables[u]? = some table → table.order = order u
  history : ∀ table, db.store.committed.tables[db.catalog.tables.history]? = some table →
    ∀ e ∈ table.entries, ∃ c : CommitId, e.1 = c.bytes ∧ c.toNat ≤ db.sequence.latest
  historyByObject : ∀ table, db.store.committed.tables[db.catalog.tables.historyByObject]? = some table →
    ∀ e ∈ table.entries, ∃ object c, e.1 = objectCommitKey object c ∧ c.toNat ≤ db.sequence.latest

structure Database.Abreast (k : Catalog) (order : TableId → KeyOrder) (floor : Nat)
    (db db' : Database) : Prop where
  catalog_eq : db.catalog = k
  proper : db.sequence.Proper
  proper' : db'.sequence.Proper
  chronological : db.catalog.tables.Chronological order
  order_eq : ∀ (u : TableId) table, db.store.committed.tables[u]? = some table → table.order = order u
  matching : ∃ P, CommitId.OrderKept P ∧ (∀ c : CommitId, c.toNat ≤ floor → P c c) ∧
    (∀ c c', P c c' → c.toNat ≤ db.sequence.latest ∧ c'.toNat ≤ db'.sequence.latest) ∧ db.Counterpart P db'

namespace Database

variable {k : Catalog} {order : TableId → KeyOrder} {floor : Nat} {db db' : Database}

theorem Dated.abreast (h : db.Dated) {db' : Database} (hsequence : db'.sequence.Proper)
    (hlatest : db.sequence.latest ≤ db'.sequence.latest) (hcatalog : db'.catalog = db.catalog)
    (hstore : db'.store = db.store) : ∃ order, db.Abreast db.catalog order db.sequence.latest db' := by
  obtain ⟨order, hchronological, horder⟩ := h.chronological
  refine ⟨order, rfl, h.proper, hsequence, hchronological, horder,
    fun c c' => c' = c ∧ c.toNat ≤ db.sequence.latest, ?_, fun c hc => ⟨rfl, hc⟩, ?_,
    hcatalog, by rw [hstore], ?_⟩
  · rintro c _ d _ ⟨rfl, -⟩ ⟨rfl, -⟩
    rfl
  · rintro c _ ⟨rfl, hc⟩
    exact ⟨hc, hc.trans hlatest⟩
  · rw [hstore]
    refine ⟨rfl, fun u => ?_⟩
    cases htable : db.store.committed.tables[u]? with
    | none => exact .none
    | some table =>
      refine .some ⟨rfl, rfl, List.forall₂_same.mpr fun e he => ?_⟩
      rw [Tables.Counterpart]
      split
      next hu =>
        obtain ⟨c, hkey, hc⟩ := h.history table (hu ▸ htable) e he
        exact ⟨c, c, ⟨rfl, hc⟩, hkey, hkey, rfl, rfl, rfl⟩
      next =>
        split
        next hu =>
          obtain ⟨object, c, hkey, hc⟩ := h.historyByObject table (hu ▸ htable) e he
          exact ⟨object, c, c, ⟨rfl, hc⟩, hkey, hkey, rfl⟩
        next => rfl

theorem Abreast.dated (h : db.Abreast k order floor db') : db.Dated := by
  obtain ⟨P, -, -, hbound, hcounterpart⟩ := h.matching
  have hmatched : ∀ (u : TableId) table, db.store.committed.tables[u]? = some table →
      ∀ e ∈ table.entries, ∃ e', db.catalog.tables.Counterpart P u e e' := by
    intro u table htable e he
    rcases hcounterpart.committed.cases u with ⟨hnone, -⟩ | ⟨a, a', ha, -, hmatches⟩
    · rw [hnone] at htable
      contradiction
    · cases ha.symm.trans htable
      obtain ⟨i, hi, rfl⟩ := List.mem_iff_getElem.mp he
      obtain ⟨hlength, hget⟩ := List.forall₂_iff_get.mp hmatches.entries
      exact ⟨_, hget i hi (hlength ▸ hi)⟩
  refine ⟨h.proper, ⟨order, h.chronological, h.order_eq⟩, ?_, ?_⟩
  · intro table htable e he
    obtain ⟨e', hmatch⟩ := hmatched _ table htable e he
    rw [Tables.Counterpart, if_pos rfl] at hmatch
    obtain ⟨c, c', hc, hkey, -⟩ := hmatch
    exact ⟨c, hkey, (hbound c c' hc).1⟩
  · intro table htable e he
    obtain ⟨e', hmatch⟩ := hmatched _ table htable e he
    rw [Tables.Counterpart, if_neg h.chronological.distinct.history_ne_historyByObject.symm,
      if_pos rfl] at hmatch
    obtain ⟨object, c, c', hc, hkey, -⟩ := hmatch
    exact ⟨object, c, hkey, (hbound c c' hc).1⟩

theorem Abreast.opened (h : db.Abreast k order floor db') (writable : Bool) :
    Both (fun s s' => s.catalog = k ∧ s.Alike (fun _ _ => True) s') (db.session writable)
      (db'.session writable) := by
  obtain ⟨P, -, -, -, hcounterpart⟩ := h.matching
  have hdistinct := h.chronological.distinct
  have hobjects := hcounterpart.committed.table_eq
    (Tables.counterpart_eq hdistinct.objects_ne_history hdistinct.objects_ne_historyByObject)
  rw [session, session, hcounterpart.catalog_eq, Session.create, Session.create, hobjects]
  apply (Both.refl (S := Eq) (fun _ => rfl) _).bind
  rintro workspace _ rfl
  have hend (recorders : Recorders) : (Session.mk db.catalog writable db.catalog.config.actor
      db.store.committed workspace recorders).Alike (fun _ _ => True) (Session.mk db.catalog writable
        db.catalog.config.actor db'.store.committed workspace recorders) :=
    ⟨rfl, rfl, rfl, rfl, trivial, .refl _⟩
  split
  · apply (Both.refl (S := Eq) (fun _ => rfl) _).bind
    rintro recorders _ rfl
    exact .ok ⟨h.catalog_eq, hend recorders⟩
  · exact .ok ⟨h.catalog_eq, hend _⟩

theorem Abreast.writing (h : db.Abreast k order floor db') {P : CommitId → CommitId → Prop}
    (hcounterpart : db.Counterpart P db') :
    db.store.beginWrite.Matches order (db.catalog.tables.Counterpart P) db'.store.beginWrite :=
  ⟨hcounterpart.mapSize_eq, hcounterpart.committed, h.order_eq⟩

theorem Abreast.published (h : db.Abreast k order floor db') {P : CommitId → CommitId → Prop}
    (hcatalog : db'.catalog = db.catalog) (hP : CommitId.OrderKept P)
    (hfloor : ∀ c : CommitId, c.toNat ≤ floor → P c c) {sequence sequence' : CommitSequence}
    (hproper : sequence.Proper) (hproper' : sequence'.Proper)
    (hbound : ∀ c c', P c c' → c.toNat ≤ sequence.latest ∧ c'.toNat ≤ sequence'.latest)
    (hmapSize : db'.store.mapSize = db.store.mapSize) {x x' : WriteTxn}
    (hx : x.Matches order (db.catalog.tables.Counterpart P) x') :
    Abreast k order floor { db with sequence, store := db.store.publish x }
      { db' with sequence := sequence', store := db'.store.publish x' } where
  catalog_eq := h.catalog_eq
  proper := hproper
  proper' := hproper'
  chronological := h.chronological
  order_eq := hx.order_eq
  matching := ⟨P, hP, hfloor, hbound, hcatalog, hmapSize, hx.working⟩

theorem Abreast.committing (h : db.Abreast k order floor db') {stamp : Stamp} {c c' : CommitId}
    {sequence sequence' : CommitSequence} (hnext : db.sequence.next stamp = (c, sequence))
    (hnext' : db'.sequence.next stamp = (c', sequence'))
    (hlive : db.sequence.latest ≠ CommitId.greatest) (hlive' : db'.sequence.latest ≠ CommitId.greatest) :
    ∃ P, CommitId.OrderKept P ∧ P c c' ∧
      db.store.beginWrite.Matches order (db.catalog.tables.Counterpart P) db'.store.beginWrite ∧
      ∀ x x' : WriteTxn, x.Matches order (db.catalog.tables.Counterpart P) x' →
        Abreast k order floor { db with sequence, store := db.store.publish x }
          { db' with sequence := sequence', store := db'.store.publish x' } := by
  obtain ⟨P, hP, hfloor, hbound, hcounterpart⟩ := h.matching
  obtain ⟨hproper, hc, hlt⟩ := CommitSequence.next_spec h.proper hnext
  obtain ⟨hproper', hc', hlt'⟩ := CommitSequence.next_spec h.proper' hnext'
  have hlt := hlt hlive
  have hlt' := hlt' hlive'
  -- both are later than all that have been matched
  have hextended : CommitId.OrderKept (CommitId.extend P c c') := hP.extend hbound (hc ▸ hlt) (hc' ▸ hlt')
  have hbound' : ∀ d d', CommitId.extend P c c' d d' →
      d.toNat ≤ sequence.latest ∧ d'.toNat ≤ sequence'.latest := by
    rintro d d' (hd | ⟨rfl, rfl⟩)
    · have hle := hbound d d' hd
      omega
    · omega
  refine ⟨CommitId.extend P c c', hextended, .inr ⟨rfl, rfl⟩, ⟨hcounterpart.mapSize_eq, ?_, h.order_eq⟩, ?_⟩
  · exact hcounterpart.committed.mono fun u e e' he => he.mono fun _ _ => .inl
  · intro x x' hx
    exact h.published hcounterpart.catalog_eq hextended (fun d hd => .inl (hfloor d hd)) hproper hproper'
      hbound' hcounterpart.mapSize_eq hx

end Database

theorem Rebuild.remove_matches {order : TableId → KeyOrder} {R : TableId → Entry → Entry → Prop} {t : TableId}
    (ht : R t = Eq) (key : Bytes) :
    Lockstep (WriteTxn.Matches order R) (remove t key) (remove t key) (WriteTxn.Matches order R)
      fun _ _ => True := by
  apply Lockstep.get_bind
  intro x x' hx
  apply Lockstep.ofExcept_bind (hx.delete ht key)
  · exact fun _ _ hpair _ _ _ => ⟨.ok rfl, hpair.2⟩
  · exact fun _ _ _ => trivial

theorem Rebuild.run_matches {c : Catalog} {order : TableId → KeyOrder}
    {R : TableId → Entry → Entry → Prop} (hobjects : R c.tables.objects = Eq) (hsearch : R c.tables.search = Eq)
    (field : Id) :
    Lockstep (WriteTxn.Matches order R) (run c field) (run c field) (WriteTxn.Matches order R)
      fun _ _ => True := by
  apply Lockstep.ofExcept_bind_same _ fun _ _ _ => trivial
  rintro -
  apply Lockstep.get_bind
  intro x x' hx
  rw [Snapshot.table?, Snapshot.table?, Snapshot.table?, Snapshot.table?,
    hx.working.getElem?_eq hobjects, hx.working.getElem?_eq hsearch]
  apply Lockstep.ofExcept_bind_same _ fun _ _ _ => trivial
  intro search
  apply Lockstep.ofExcept_bind_same _ fun _ _ _ => trivial
  intro objects
  apply Lockstep.bind (Q := WriteTxn.Matches order R)
  · refine (Lockstep.forM (remove_matches hsearch) (stale search field)).mono ?_ (fun _ _ h => h)
      fun _ _ h => h
    rintro _ _ ⟨rfl, rfl⟩
    exact hx
  rintro -
  apply Lockstep.ofExcept_bind_same _ fun _ _ _ => trivial
  intro indexer
  apply Lockstep.ofExcept_bind_same _ fun _ _ _ => trivial
  rintro -
  apply Lockstep.get_bind
  intro y y' hy
  apply Lockstep.ofExcept_bind (Indexer.flush_matches hsearch hy)
  · rintro ⟨n, z, i⟩ ⟨_, z', _⟩ ⟨-, hz, -⟩ _ _ _
    exact ⟨.ok rfl, hz⟩
  · exact fun _ _ _ => trivial

theorem Working.session_catalog {w w' : Work} {call : WriterCall} {result : Except Error Unit}
    (h : call.run.run w = (result, w')) : w'.session.catalog = w.session.catalog := by
  cases call with
  | edit edit =>
    obtain ⟨s, hs, rfl⟩ := of_edit_run h
    exact (((Editing.closed_pinned _ _).keeps_perform edit).of_run ⟨rfl, rfl⟩ hs).1
  | commit stamp =>
    obtain ⟨committed, hcommits, -⟩ := of_commit_run h
    cases hcommits <;> rfl

theorem Bisimilar.abreast (k : Catalog) (order : TableId → KeyOrder) (floor : Nat) :
    Bisimilar (Database.Abreast k order floor)
      (fun s s' => s.catalog = k ∧ s.Alike (fun _ _ => True) s')
      fun db => db.sequence.latest ≠ CommitId.greatest where
  opened writable h := h.opened writable
  named actor hs :=
    ⟨hs.1, hs.2.catalog_eq, hs.2.writable_eq, rfl, hs.2.workspace_eq, trivial, hs.2.recorders⟩
  called := by
    rintro w w' call hlive hlive' hdb ⟨hcatalog, hs⟩
    have hkept : (call.run.run w).2.session.catalog = k :=
      (Working.session_catalog (Prod.eta (call.run.run w)).symm).trans hcatalog
    cases call with
    | edit edit =>
      obtain ⟨hanswer, hdb', hs'⟩ := Working.edit_alike hdb hs edit
      exact ⟨hanswer, hdb', hkept, hs'⟩
    | commit stamp =>
      rcases hnext : w.database.sequence.next stamp with ⟨c, sequence⟩
      rcases hnext' : w'.database.sequence.next stamp with ⟨c', sequence'⟩
      obtain ⟨P, hP, hmatched, hwriting, hpublished⟩ := hdb.committing hnext hnext' hlive hlive'
      have htables : w.session.catalog.tables = w.database.catalog.tables := by
        rw [hcatalog, hdb.catalog_eq]
      have hredates := hdb.chronological.redates hP hmatched
      rw [← htables] at hredates
      obtain ⟨hanswer, hdb', hs'⟩ := Working.commit_alike hnext hnext' hdb hs hwriting
        (htables ▸ Session.publish_redated hs hredates) (hpublished _ _ hwriting) fun x x' hx =>
          ⟨hpublished x x' hx, trivial, hx.working.table_eq (htables ▸ hredates.objects)⟩
      exact ⟨hanswer, hdb', hkept, hs'⟩
  rebuilt := by
    intro field
    apply Lockstep.of_cases
    rintro db ⟨_, store', sequence'⟩ h
    obtain ⟨P, hP, hfloor, hbound, rfl, hmapSize, hcommitted⟩ := h.matching
    have hdistinct := h.chronological.distinct
    have hobjects := Tables.counterpart_eq (P := P) hdistinct.objects_ne_history
      hdistinct.objects_ne_historyByObject
    have hsearch := Tables.counterpart_eq (P := P) hdistinct.search_ne_history
      hdistinct.search_ne_historyByObject
    have hwriting := h.writing ⟨rfl, hmapSize, hcommitted⟩
    rcases (Rebuild.run_matches hobjects hsearch field).cases_run hwriting with
      ⟨n, x, x', hrun, hrun', hx⟩ | ⟨e, x, x', hrun, hrun', -⟩
    · exact .inl ⟨n, _, _, Database.rebuild_of_ok hrun, Database.rebuild_of_ok hrun',
        h.published rfl hP hfloor h.proper h.proper' hbound hmapSize hx⟩
    · exact .inr ⟨e, _, _, Database.rebuild_of_error hrun, Database.rebuild_of_error hrun', h⟩

end ObjectGraph
