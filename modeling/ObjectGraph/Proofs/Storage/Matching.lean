import ObjectGraph.Proofs.Lockstep
import ObjectGraph.Proofs.Storage.Writing

namespace ObjectGraph

open Stateful (Both)

namespace Dictionary

variable {κ κ' ν ν' : Type} {order : κ → κ → Ordering} {order' : κ' → κ' → Ordering}
  {R : κ × ν → κ' × ν' → Prop} {k : κ} {k' : κ'} {d : List (κ × ν)} {d' : List (κ' × ν')}

theorem find?_matches (hk : ∀ e e', R e e' → order' k' e'.1 = order k e.1) (h : List.Forall₂ R d d') :
    Option.Rel R (find? order k d) (find? order' k' d') := by
  induction h with
  | nil => exact .none
  | @cons e e' d d' he _ ih =>
    rw [find?, find?, hk e e' he]
    cases order k e.1 with
    | lt => exact .none
    | eq => exact .some he
    | gt => exact ih

theorem insert_matches {v : ν} {v' : ν'} (hk : ∀ e e', R e e' → order' k' e'.1 = order k e.1)
    (hkv : R (k, v) (k', v')) (h : List.Forall₂ R d d') :
    List.Forall₂ R (insert order k v d) (insert order' k' v' d') := by
  induction h with
  | nil => exact .cons hkv .nil
  | @cons e e' d d' he hd ih =>
    rw [insert, insert, hk e e' he]
    cases order k e.1 with
    | lt => exact .cons hkv (.cons he hd)
    | eq => exact .cons hkv hd
    | gt => exact .cons he ih

end Dictionary

structure Table.Matches (R : Entry → Entry → Prop) (a a' : Table) : Prop where
  name_eq : a'.name = a.name
  order_eq : a'.order = a.order
  entries : List.Forall₂ R a.entries a'.entries

theorem Table.Matches.eq {a a' : Table} (h : a.Matches Eq a') : a' = a := by
  have hentries := h.entries
  rw [List.forall₂_eq_eq_eq] at hentries
  calc a' = ⟨a'.name, a'.order, a'.entries⟩ := rfl
    _ = ⟨a.name, a.order, a.entries⟩ := by rw [h.name_eq, h.order_eq, hentries]

structure Snapshot.Matches (R : TableId → Entry → Entry → Prop) (s s' : Snapshot) : Prop where
  size_eq : s'.size = s.size
  tables : ∀ u : TableId, Option.Rel (Table.Matches (R u)) s.tables[u]? s'.tables[u]?

structure WriteTxn.Matches (order : TableId → KeyOrder) (R : TableId → Entry → Entry → Prop)
    (x x' : WriteTxn) : Prop where
  mapSize_eq : x'.mapSize = x.mapSize
  working : x.working.Matches R x'.working
  order_eq : ∀ (u : TableId) (a : Table), x.working.tables[u]? = some a → a.order = order u

structure Corresponds (order : KeyOrder) (R : Entry → Entry → Prop) : Prop where
  size_eq : ∀ e e', R e e' → entrySize e' = entrySize e
  compare_eq : ∀ e e' f f', R e e' → R f f' → order e'.1 f'.1 = order e.1 f.1

theorem Corresponds.eq (order : KeyOrder) : Corresponds order Eq := by
  constructor
  · rintro e _ rfl
    rfl
  · rintro e _ f _ rfl rfl
    rfl

variable {order : TableId → KeyOrder} {R R' : TableId → Entry → Entry → Prop} {s s' : Snapshot}
  {x x' : WriteTxn} {t : TableId}

theorem Snapshot.Matches.cases (h : s.Matches R s') (t : TableId) :
    s.tables[t]? = none ∧ s'.tables[t]? = none ∨
      ∃ a a', s.tables[t]? = some a ∧ s'.tables[t]? = some a' ∧ a.Matches (R t) a' := by
  have htables := h.tables t
  generalize s.tables[t]? = a, s'.tables[t]? = a' at htables
  cases htables with
  | none => exact .inl ⟨rfl, rfl⟩
  | some hmatches => exact .inr ⟨_, _, rfl, rfl, hmatches⟩

theorem Snapshot.Matches.mono (h : s.Matches R s') (hR : ∀ u e e', R u e e' → R' u e e') :
    s.Matches R' s' := by
  refine ⟨h.size_eq, fun u => ?_⟩
  rcases h.cases u with ⟨ha, ha'⟩ | ⟨a, a', ha, ha', hmatches⟩
  · rw [ha, ha']
    exact .none
  · rw [ha, ha']
    exact .some ⟨hmatches.name_eq, hmatches.order_eq, hmatches.entries.imp (hR u)⟩

theorem Snapshot.Matches.getElem?_eq (h : s.Matches R s') (ht : R t = Eq) :
    s'.tables[t]? = s.tables[t]? := by
  rcases h.cases t with ⟨ha, ha'⟩ | ⟨a, a', ha, ha', hmatches⟩
  · rw [ha, ha']
  · rw [ht] at hmatches
    rw [ha, ha', hmatches.eq]

theorem Snapshot.Matches.table?_eq (h : s.Matches R s') (ht : R t = Eq) : s'.table? t = s.table? t := by
  rw [Snapshot.table?, Snapshot.table?, h.getElem?_eq ht]

theorem Snapshot.Matches.table_eq (h : s.Matches R s') (ht : R t = Eq) : s'.table t = s.table t := by
  rw [Snapshot.table, Snapshot.table, List.getD_eq_getElem?_getD, List.getD_eq_getElem?_getD,
    h.getElem?_eq ht]

namespace WriteTxn

theorem Matches.withTable (h : x.Matches order R x') {a a' : Table} (ha : a.Matches (R t) a')
    (horder : a.order = order t) (size : Nat) :
    (x.withTable t a size).Matches order R (x'.withTable t a' size) := by
  refine ⟨h.mapSize_eq, ⟨rfl, fun u => ?_⟩, fun u b hb => ?_⟩
  · have htables := h.working.tables u
    change Option.Rel _ (x.working.tables.set t a)[u]? (x'.working.tables.set t a')[u]?
    rw [List.getElem?_set, List.getElem?_set]
    by_cases hu : t = u
    · subst hu
      rw [if_pos rfl, if_pos rfl]
      rcases h.working.cases t with ⟨hnone, hnone'⟩ | ⟨_, _, hsome, hsome', -⟩
      · rw [if_neg (by simpa using hnone), if_neg (by simpa using hnone')]
        exact .none
      · rw [if_pos (List.getElem?_eq_some_iff.mp hsome).1,
          if_pos (List.getElem?_eq_some_iff.mp hsome').1]
        exact .some ha
    · rw [if_neg hu, if_neg hu]
      exact htables
  · change (x.working.tables.set t a)[u]? = some b at hb
    rw [List.getElem?_set] at hb
    split at hb
    next hu =>
      split at hb
      · cases hb
        exact hu ▸ horder
      · contradiction
    · exact h.order_eq u b hb

theorem Matches.put (h : x.Matches order R x') (hR : Corresponds (order t) (R t)) {k k' v v' : Bytes}
    (hkv : R t (k, v) (k', v')) : Both (Matches order R) (x.put t k v) (x'.put t k' v') := by
  rw [WriteTxn.put, WriteTxn.put, Snapshot.table?, Snapshot.table?]
  rcases h.working.cases t with ⟨hnone, hnone'⟩ | ⟨a, a', hsome, hsome', ha⟩
  · rw [hnone, hnone']
    exact .error _
  have horder := h.order_eq t a hsome
  have hcompare : ∀ e e', R t e e' → a'.order k' e'.1 = a.order k e.1 := by
    intro e e' he
    rw [ha.order_eq, horder]
    exact hR.compare_eq (k, v) (k', v') e e' hkv he
  have hreplaced : ((a'.find? k').map entrySize).getD 0 = ((a.find? k).map entrySize).getD 0 := by
    have hfound : Option.Rel (R t) (a.find? k) (a'.find? k') :=
      Dictionary.find?_matches hcompare ha.entries
    generalize a.find? k = found, a'.find? k' = found' at hfound
    cases hfound with
    | none => rfl
    | some he => exact hR.size_eq _ _ he
  have hinserted : (a.insert k v).Matches (R t) (a'.insert k' v') :=
    ⟨ha.name_eq, ha.order_eq, Dictionary.insert_matches hcompare hkv ha.entries⟩
  rw [hsome, hsome']
  simp only [Stateful.ok_bind]
  rw [hreplaced, hR.size_eq _ _ hkv, h.working.size_eq, h.mapSize_eq]
  split
  · exact .error _
  · exact .ok (h.withTable hinserted horder _)

theorem Matches.delete (h : x.Matches order R x') (ht : R t = Eq) (k : Bytes) :
    Both (fun p p' => p'.1 = p.1 ∧ p.2.Matches order R p'.2) (x.delete t k) (x'.delete t k) := by
  rw [WriteTxn.delete, WriteTxn.delete, Snapshot.table?, Snapshot.table?, h.working.getElem?_eq ht]
  cases hsome : x.working.tables[t]? with
  | none => exact .error _
  | some a =>
    simp only [Stateful.ok_bind]
    cases a.find? k with
    | none => exact .ok ⟨rfl, h⟩
    | some e =>
      have hsame : (a.erase k).Matches (R t) (a.erase k) := by
        rw [ht]
        exact ⟨rfl, rfl, by simp⟩
      dsimp only
      rw [h.working.size_eq]
      exact .ok ⟨rfl, h.withTable hsame (h.order_eq t a hsome) _⟩

end WriteTxn

end ObjectGraph
