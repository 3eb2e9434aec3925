import ObjectGraph.Proofs.Graph.Machine
import ObjectGraph.Proofs.Session.Editing
import ObjectGraph.Proofs.Session.Enumeration

namespace ObjectGraph

open Function (update)
open Stateful (Triple)
open Records (Erases)

namespace Graph

variable {G : Graph}

theorem records_withObject (object type : Id) :
    (G.withObject object type).records = update G.records (.object object) (some type.bytes) := by
  funext k
  cases k with
  | object a =>
    by_cases ha : a = object
    · simp [records, withObject, ha]
    · simp [records, withObject, ha]
  | field a f => simp [records, withObject]
  | association h =>
    rw [Function.update_of_ne (by simp)]
    rfl

theorem records_withValue (object field : Id) (value : Option Bytes) :
    (G.withValue object field value).records = update G.records (.field object field) value := by
  funext k
  cases k with
  | object a => simp [records, withValue]
  | field a f =>
    by_cases ha : a = object
    · by_cases hf : f = field
      · simp [records, withValue, ha, hf]
      · simp [records, withValue, ha, hf]
    · simp [records, withValue, ha]
  | association h =>
    rw [Function.update_of_ne (by simp)]
    rfl

theorem erases_lacking {gone : Finset (Sym2 Port)} {P : Key → Prop} (hobject : ∀ a, ¬ P (.object a))
    (hfield : ∀ a f, ¬ P (.field a f)) (hedge : ∀ h, P (.association h) ↔ h.edge ∈ gone) :
    Erases P G.records (G.lacking gone).records := by
  constructor
  · intro k hk
    cases k with
    | object a => exact absurd hk (hobject a)
    | field a f => exact absurd hk (hfield a f)
    | association h => simp [records, lacking, (hedge h).mp hk]
  · intro k hk
    cases k with
    | object a => rfl
    | field a f => rfl
    | association h =>
      have hkept : h.edge ∉ gone := fun hgone => hk ((hedge h).mpr hgone)
      simp [records, lacking, hkept]

theorem ofEdge_iff {e h : Half} : Editing.OfEdge e (.association h) ↔ h.edge = e.edge := by
  rw [Half.edge_eq_iff, Editing.OfEdge, Key.association.injEq, Key.association.injEq, Half.Joins]

theorem erases_unlinked (e : Half) :
    Erases (Editing.OfEdge e) G.records (G.lacking {e.edge}).records := by
  apply erases_lacking
  · rintro a (ha | ha) <;> contradiction
  · rintro a f (ha | ha) <;> contradiction
  · intro h
    rw [ofEdge_iff, Finset.mem_singleton]

theorem mem_edge_iff {a f : Id} {h : Half} :
    (⟨a, f⟩ : Port) ∈ h.edge ↔ Editing.OfField a f (.association h) := by
  rw [Half.edge, Sym2.mem_iff, Editing.OfField, Half.near, Half.far, Port.mk.injEq, Port.mk.injEq]
  simp only [eq_comm]

theorem erases_edgesAt (a f : Id) :
    Erases (Editing.OfField a f) G.records (G.lacking (G.edgesAt ⟨a, f⟩)).records := by
  have hpresent : Erases (fun k => Editing.OfField a f k ∧ (G.records k).isSome) G.records
      (G.lacking (G.edgesAt ⟨a, f⟩)).records := by
    apply erases_lacking
    · exact fun _ h => h.1
    · exact fun _ _ h => h.1
    · intro h
      rw [edgesAt, Finset.mem_filter, mem_edge_iff, isSome_records_association, and_comm]
  exact hpresent.congr fun k hk => and_iff_left hk

theorem erases_without (object : Id) :
    Erases (Integrity.Touches object) G.records (G.without object).records := by
  have hends : ∀ h : Half, object ∈ h.edge.map Port.object ↔ h.object = object ∨ h.other = object := by
    intro h
    rw [Half.edge, Sym2.map_mk, Sym2.mem_iff, Half.near, Half.far, eq_comm, @eq_comm _ object]
  constructor
  · intro k hk
    cases k with
    | object a => simp [records, without, show a = object from hk]
    | field a f => simp [records, without, show a = object from hk]
    | association h =>
      have hgone : object ∈ h.edge.map Port.object := (hends h).mpr hk
      simp [records, without, hgone]
  · intro k hk
    cases k with
    | object a => simp [records, without, show ¬ a = object from hk]
    | field a f => simp [records, without, show ¬ a = object from hk]
    | association h =>
      have hkept : object ∉ h.edge.map Port.object := fun hgone => hk ((hends h).mp hgone)
      simp [records, without, hkept]

theorem records_linked (e : Half) : (G.linked e.edge).records = G.records.linked e := by
  funext k
  cases k with
  | object a => rw [Records.linked_object]; rfl
  | field a f => rw [Records.linked_field]; rfl
  | association h =>
    by_cases hh : e.Joins h
    · have hmem : h.edge ∈ (G.linked e.edge).edges := by
        rw [Half.edge_eq_iff.mpr hh]
        exact Finset.mem_insert_self ..
      rw [Records.linked_of_joins hh, records, if_pos hmem]
    · have hne : h.edge ≠ e.edge := fun hedge => hh (Half.edge_eq_iff.mp hedge)
      rw [Records.linked_of_not_joins hh]
      simp [records, linked, hne]

end Graph

namespace Session.Shows

variable {c : Catalog} {base : Table} {g : Records} {G : Graph} {s : Session}

theorem contains_object (h : s.Shows c base G.records) (a : Id) :
    s.contains (.object a) = (G.types a).isSome := by
  rw [h.contains_eq, Graph.records, Option.isSome_map]

theorem contains_association (h : s.Shows c base G.records) (e : Half) :
    s.contains (.association e) = decide (e.edge ∈ G.edges) := by
  rw [h.contains_eq, Bool.eq_iff_iff, Graph.isSome_records_association, decide_eq_true_iff]

theorem type?_eq (h : s.Shows c base G.records) (hg : Integrity c.schema G.records)
    (hnil : c.schema.type? Id.nil = none) (a : Id) : s.type? a = .ok (G.types a) := by
  rw [type?, h.get?_eq, Graph.records]
  cases htype : G.types a with
  | none => rfl
  | some type =>
    have hne : type ≠ Id.nil := by
      rintro rfl
      obtain ⟨t, ht, hknown⟩ := hg.object a Id.nil.bytes (by rw [Graph.records, htype]; rfl)
      rw [← Id.bytes_injective ht, hnil] at hknown
      contradiction
    simp [recordedType, Id.ofBytes?_bytes, bind, Except.bind, pure, Except.pure, hne]

theorem typeOf_eq (h : s.Shows c base G.records) (hg : Integrity c.schema G.records)
    (hnil : c.schema.type? Id.nil = none) (a : Id) : s.typeOf a = G.typeOf a := by
  rw [typeOf, h.type?_eq hg hnil, Graph.typeOf]
  cases G.types a <;> rfl

theorem scalarField_eq (h : s.Shows c base g) (type field : Id) :
    s.scalarField type field = c.schema.scalarOn type field := by
  rw [← h.catalog_eq]
  rfl

theorem pairing_eq (h : s.Shows c base g) (type field : Id) :
    s.pairing type field = c.schema.pairingOn type field := by
  rw [← h.catalog_eq]
  rfl

theorem value_eq (h : s.Shows c base G.records) (hg : Integrity c.schema G.records)
    (hnil : c.schema.type? Id.nil = none) (a f : Id) : s.value a f = G.value c.schema a f := by
  rw [value, h.type?_eq hg hnil, Graph.value]
  cases G.types a with
  | none => rfl
  | some type =>
    change (s.scalarField type f >>= _) = _
    rw [h.scalarField_eq, h.get?_eq]
    rfl

theorem halves_ascending (h : s.Shows c base g) (a f : Id) :
    (s.halves a f).Pairwise (compare ·.bytes ·.bytes = .lt) := by
  have hsublist : (s.workspace.extending (Key.field a f).bytes).Sublist s.workspace.view := by
    rw [Workspace.extending, h.valid.startingAt_eq]
    exact (List.takeWhile_sublist _).trans (List.dropWhile_sublist _)
  refine (h.valid.ascending_view.sublist hsublist).filterMap _ fun e e' hlt x hx y hy => ?_
  split at hx
  next hread =>
    split at hy
    next hread' =>
      cases hx
      cases hy
      rw [Key.bytes_eq_of_ofBytes? hread, Key.bytes_eq_of_ofBytes? hread'] at hlt
      exact hlt
    · contradiction
  · contradiction

theorem halves_nodup (h : s.Shows c base g) (a f : Id) : (s.halves a f).Nodup := by
  apply (h.halves_ascending a f).imp
  rintro x y hlt rfl
  have hself : compare x.bytes x.bytes = .eq := Std.ReflCmp.compare_self
  rw [hself] at hlt
  contradiction

theorem halves_edges (h : s.Shows c base G.records) (hg : Integrity c.schema G.records) (a f : Id) :
    ((s.halves a f).map Half.edge).Nodup ∧
      ((s.halves a f).map Half.edge).toFinset = G.edgesAt ⟨a, f⟩ := by
  constructor
  · refine (h.halves_nodup a f).map_on fun x hx y hy hxy => Half.eq_of_edge_eq ?_ hxy
    obtain ⟨hobject, hfield, -⟩ := h.mem_halves.mp hx
    obtain ⟨hobject', hfield', -⟩ := h.mem_halves.mp hy
    rw [Half.near, Half.near, hobject, hfield, hobject', hfield']
  · ext e
    obtain ⟨x, rfl⟩ := Half.exists_edge_eq e
    rw [List.mem_toFinset, List.mem_map, Graph.edgesAt, Finset.mem_filter, Graph.mem_edge_iff,
      ← Graph.isSome_records_association]
    constructor
    · rintro ⟨y, hy, hyx⟩
      have hpresent : (G.records (.association x)).isSome := by
        rw [Graph.isSome_records_association, ← hyx, ← Graph.isSome_records_association]
        exact (h.mem_halves.mp hy).2.2
      have hof := (Editing.halves_iff_ofField h hg hpresent).mp ⟨y, hy, Graph.ofEdge_iff.mpr hyx.symm⟩
      exact ⟨hpresent, hof⟩
    · rintro ⟨hpresent, hof⟩
      obtain ⟨y, hy, hyx⟩ := (Editing.halves_iff_ofField h hg hpresent).mpr hof
      exact ⟨y, hy, (Graph.ofEdge_iff.mp hyx).symm⟩

theorem length_halves (h : s.Shows c base G.records) (hg : Integrity c.schema G.records) (a f : Id) :
    (s.halves a f).length = (G.edgesAt ⟨a, f⟩).card := by
  obtain ⟨hnodup, hedges⟩ := h.halves_edges hg a f
  rw [← hedges, List.toFinset_card_of_nodup hnodup, List.length_map]

theorem map_links (h : s.Shows c base G.records) (hg : Integrity c.schema G.records)
    (hnil : c.schema.type? Id.nil = none) {a f : Id} {β : Type} {u : List Half → β}
    {v : Finset (Sym2 Port) → β} (hempty : u [] = v ∅)
    (hhalves : ∀ type p, G.types a = some type → c.schema.pairingOn type f = .ok p →
      u (s.halves a f) = v (G.edgesAt ⟨a, f⟩)) :
    (s.links a f).map u = (G.links c.schema a f).map v := by
  rw [links, h.type?_eq hg hnil, Graph.links]
  cases htype : G.types a with
  | none => exact congrArg Except.ok hempty
  | some type =>
    have hlinks : (do
      let _ ← s.pairing type f
      return s.halves a f : Except Error (List Half)).map u = (do
      let _ ← c.schema.pairingOn type f
      return G.edgesAt ⟨a, f⟩ : Except Error (Finset (Sym2 Port))).map v := by
      rw [h.pairing_eq]
      cases hp : c.schema.pairingOn type f with
      | error e => rfl
      | ok p => exact congrArg Except.ok (hhalves type p htype hp)
    exact hlinks

theorem otherField_of_mem_halves (h : s.Shows c base G.records) (hg : Integrity c.schema G.records)
    {a f type : Id} {p : Pairing} (htype : G.records.HasType a type)
    (hp : c.schema.pairingOn type f = .ok p) {x : Half} (hx : x ∈ s.halves a f) :
    x.otherField = p.other := by
  obtain ⟨rfl, rfl, hpresent⟩ := h.mem_halves.mp hx
  obtain ⟨v, hv⟩ := Option.isSome_iff_exists.mp hpresent
  obtain ⟨-, q, -, hq, -, hother, -⟩ := hg.half x v hv
  obtain ⟨d, hd, hpairing⟩ := h.pairing_eq_ok (h.pairing_eq type x.field ▸ hp)
  have hend : G.records.HasEnd c.schema x.object x.field p := ⟨type, d, htype, hd, hpairing⟩
  rw [hend.unique hq, hother]

theorem halves_partners (h : s.Shows c base G.records) (hg : Integrity c.schema G.records)
    {a f type : Id} {p : Pairing} (htype : G.records.HasType a type)
    (hp : c.schema.pairingOn type f = .ok p) :
    (s.halves a f).map Half.other = Graph.partnersAlong ⟨a, f⟩ (G.edgesAt ⟨a, f⟩) := by
  apply Graph.eq_partnersAlong
  · refine List.pairwise_map.mpr ((h.halves_ascending a f).imp_of_mem fun {x y} hx hy hlt => ?_)
    obtain ⟨hobject, hfield, -⟩ := h.mem_halves.mp hx
    obtain ⟨hobject', hfield', -⟩ := h.mem_halves.mp hy
    have hother := h.otherField_of_mem_halves hg htype hp hx
    have hother' := h.otherField_of_mem_halves hg htype hp hy
    simp only [Half.bytes, hobject, hfield, hobject', hfield', hother, hother', List.append_assoc,
      KeyOrder.compare_append_left, Id.compare_append, Std.ReflOrd.compare_self,
      Ordering.then_eq] at hlt
    exact hlt
  · intro b
    rw [List.mem_map]
    constructor
    · rintro ⟨x, hx, rfl⟩
      obtain ⟨rfl, rfl, hpresent⟩ := h.mem_halves.mp hx
      refine ⟨x.otherField, Finset.mem_filter.mpr ⟨?_, Sym2.mem_mk_left _ _⟩⟩
      exact Graph.isSome_records_association.mp hpresent
    · rintro ⟨f', hlink⟩
      obtain ⟨hedge, -⟩ := Finset.mem_filter.mp hlink
      refine ⟨⟨a, f, b, f'⟩, h.mem_halves.mpr ⟨rfl, rfl, ?_⟩, rfl⟩
      exact Graph.isSome_records_association.mpr hedge

theorem partners_eq (h : s.Shows c base G.records) (hg : Integrity c.schema G.records)
    (hnil : c.schema.type? Id.nil = none) (a f : Id) :
    s.partners a f = G.partners c.schema a f := by
  have hempty : Graph.partnersAlong ⟨a, f⟩ ∅ = [] := (Graph.eq_partnersAlong .nil (by simp)).symm
  have hmap := h.map_links hg hnil (u := List.map Half.other) hempty.symm fun type p htype hp =>
    h.halves_partners hg (h.type?_eq_some (htype ▸ h.type?_eq hg hnil a)) hp
  have hpartners : s.partners a f = (s.links a f).map (List.map Half.other) := by
    rw [partners]
    cases s.links a f <;> rfl
  rw [hpartners, hmap, Graph.partners]
  cases G.links c.schema a f <;> rfl

theorem mem_object_iff (h : s.Shows c base G.records) {a type : Id} :
    (a.bytes, type.bytes) ∈ s.workspace.view ↔ G.types a = some type := by
  have hmem := recorded_eq_some_iff h.valid.ascending_view (k := .object a) (v := type.bytes)
  rw [h.records_eq, Graph.records, Option.map_eq_some_iff] at hmem
  rw [← Key.bytes, ← hmem]
  constructor
  · rintro ⟨t, ht, heq⟩
    rw [ht, Id.bytes_injective heq]
  · exact fun ht => ⟨type, ht, rfl⟩

theorem objects_eq (h : s.Shows c base G.records) (hg : Integrity c.schema G.records) (type : Id) :
    s.objects type = G.objects c.schema type := by
  have htyped : ∀ (a : Id) v, (a.bytes, v) ∈ s.workspace.view → ∃ t : Id, v = t.bytes := by
    intro a v hv
    have hrecord := (recorded_eq_some_iff h.valid.ascending_view (k := .object a)).mpr hv
    rw [h.records_eq] at hrecord
    obtain ⟨t, ht, -⟩ := hg.object a v hrecord
    exact ⟨t, ht⟩
  obtain ⟨ids, hids, hascending, hmem⟩ := objectsAmong_spec c.schema type
    h.valid.ascending_view h.keyed htyped
  rw [objects, Graph.objects, h.catalog_eq, h.valid.entries_eq, hids]
  split
  · rfl
  · refine congrArg Except.ok (Id.eq_sort hascending fun a => ?_)
    simp only [hmem, h.mem_object_iff, Set.Finite.mem_toFinset, Set.mem_ofPred_eq]

end Session.Shows

theorem Graph.without_eq_self {schema : Schema} {G : Graph} (hg : Integrity schema G.records) {a : Id}
    (hnone : G.types a = none) : G.without a = G := by
  have habsent : ∀ type, ¬ G.records.HasType a type := by
    rintro type ⟨htype, -⟩
    rw [records, hnone] at htype
    contradiction
  have herases : Erases (Integrity.Touches a) G.records G.records := by
    refine ⟨fun k hk => ?_, fun _ _ => rfl⟩
    rw [← Option.not_isSome_iff_eq_none]
    intro hsome
    obtain ⟨v, hv⟩ := Option.isSome_iff_exists.mp hsome
    cases k with
    | object b =>
      rw [show b = a from hk, records, hnone] at hv
      contradiction
    | field b f =>
      obtain ⟨-, type, d, x, htype, -⟩ := hg.value b f v hv
      rw [show b = a from hk] at htype
      exact habsent type htype
    | association h =>
      rcases hk with rfl | rfl
      · obtain ⟨type, htype⟩ := hg.exists_type_of_half hsome
        exact habsent type htype
      · rw [hg.mirrored] at hsome
        obtain ⟨type, htype⟩ := hg.exists_type_of_half hsome
        exact habsent type htype
  exact records_injective ((erases_without a).unique herases)

namespace Editing

variable {α β : Type} {c : Catalog} {base : Table} {G : Graph}

def Simulates (c : Catalog) (base : Table) (G : Graph) (m : Editing α)
    (outcome : Except Error (α × Graph)) : Prop :=
  Triple (Session.Shows c base G.records) m
    (fun a s => ∃ G', outcome = .ok (a, G') ∧ s.Shows c base G'.records)
    (fun e s => e.IsExhaustion ∨ outcome = .error e ∧ s.Shows c base G.records)

section Rules

variable {g : Records} {P : Session → Prop} {Q : β → Session → Prop} {E : Error → Session → Prop}

theorem writable_bind {m : Editing β} (h : Triple (Session.Shows c base g) m Q E) :
    Triple (Session.Shows c base g) (requireWritable >>= fun _ => m) Q E := by
  apply requireWritable_bind _ h
  intro s hs hreadOnly
  rw [hs.writable] at hreadOnly
  contradiction

theorem ask_known {question : Session → Except Error α} {x : Except Error α} {f : α → Editing β}
    (hx : ∀ s, P s → question s = x) (hok : ∀ a, x = .ok a → Triple P (f a) Q E)
    (herror : ∀ e s, x = .error e → P s → E e s) : Triple P (ask question >>= f) Q E := by
  apply ask_bind
  · intro s e hs he
    exact herror e s (hx s hs ▸ he) hs
  · rintro a s ⟨hs, ha⟩
    exact hok a (hx s hs ▸ ha) s hs

end Rules

theorem simulates_ask {question : Session → Except Error α} {x : Except Error α}
    (h : ∀ s : Session, s.Shows c base G.records → question s = x) :
    Simulates c base G (ask question) (x.map (·, G)) := by
  apply Triple.get_bind
  intro s hs
  apply Triple.ofExcept
  · rintro _ a rfl ha
    rw [h _ hs] at ha
    exact ⟨G, by rw [ha]; rfl, hs⟩
  · rintro _ e rfl he
    rw [h _ hs] at he
    exact .inr ⟨by rw [he]; rfl, hs⟩

theorem simulates_create (type object : Id) :
    Simulates c base G (create type object) ((G.create c.schema type object).map (⟨⟩, ·)) := by
  apply writable_bind
  apply Triple.get_bind
  intro s hs
  simp only [hs.catalog_eq, hs.contains_object]
  rw [Graph.create]
  split
  · exact Triple.throw_bind fun t ht => .inr ⟨rfl, ht ▸ hs⟩
  · split
    · exact Triple.throw_bind fun t ht => .inr ⟨rfl, ht ▸ hs⟩
    · split
      · exact Triple.throw_bind fun t ht => .inr ⟨rfl, ht ▸ hs⟩
      · apply (put_triple (.object object) type.bytes).mono
        · rintro t rfl
          exact hs
        · exact fun _ t ht => ⟨G.withObject object type, rfl, by rwa [Graph.records_withObject]⟩
        · exact fun e t he => .inl he

theorem simulates_delete (hg : Integrity c.schema G.records) (object : Id) :
    Simulates c base G (delete object) (.ok ((G.types object).isSome, G.without object)) := by
  apply writable_bind
  apply Triple.get_bind
  intro s hs
  rw [hs.contains_object]
  split
  next hexists =>
    apply (eraseOwned_triple hs hg object).mono
    · rintro t rfl
      exact hs
    · rintro _ t ⟨rfl, g', ht, herases⟩
      refine ⟨G.without object, by rw [hexists], ?_⟩
      rwa [← herases.unique (Graph.erases_without object)]
    · exact fun e t he => .inl he
  next hexists =>
    rw [Bool.not_eq_true, Option.isSome_eq_false_iff, Option.isNone_iff_eq_none] at hexists
    refine Triple.pure fun t ht => ⟨G, ?_, ht ▸ hs⟩
    rw [hexists, Graph.without_eq_self hg hexists]
    rfl

theorem simulates_setValue (hg : Integrity c.schema G.records) (hnil : c.schema.type? Id.nil = none)
    (object field : Id) (raw : Bytes) :
    Simulates c base G (setValue object field raw)
      ((G.setValue c.schema object field raw).map (⟨⟩, ·)) := by
  rw [Graph.setValue]
  apply writable_bind
  apply ask_known fun s hs => hs.typeOf_eq hg hnil object
  · intro type htype
    rw [htype, Stateful.ok_bind]
    apply ask_known fun s hs => hs.scalarField_eq type field
    · intro d hd
      rw [hd, Stateful.ok_bind]
      apply Triple.ofExcept_bind
      · intro _ hcheck
        rw [hcheck, Stateful.ok_bind]
        split
        next hempty =>
          apply (erase_triple (Key.field object field).bytes).mono (fun _ hs => hs)
          · rintro _ t ⟨g', ht, herases⟩
            refine ⟨_, rfl, ?_⟩
            rwa [Graph.records_withValue, ← herases.unique (Records.erases_update _ _)]
          · exact fun e t he => .inl he
        next hempty =>
          apply (put_triple (.field object field) raw).mono (fun _ hs => hs)
          · exact fun _ t ht => ⟨_, rfl, by rwa [Graph.records_withValue]⟩
          · exact fun e t he => .inl he
      · exact fun s e hs he => .inr ⟨by rw [he]; rfl, hs⟩
    · exact fun e s he hs => .inr ⟨by rw [he]; rfl, hs⟩
  · exact fun e s he hs => .inr ⟨by rw [he]; rfl, hs⟩

theorem simulates_unlink (edge : Half) :
    Simulates c base G (unlink edge) (.ok (edge.edge ∈ G.edges, G.lacking {edge.edge})) := by
  apply writable_bind
  apply Triple.get_bind
  intro s hs
  rw [hs.contains_association]
  split
  next hpresent =>
    apply Triple.bind ((eraseEdge_triple edge G.records).mono _ (fun _ _ ht => ht) fun e t he => .inl he)
    · intro _
      apply Triple.pure
      rintro t ⟨g', ht, herases⟩
      refine ⟨G.lacking {edge.edge}, by rw [hpresent], ?_⟩
      rwa [← herases.unique (Graph.erases_unlinked edge)]
    · rintro t rfl
      exact hs
  next hpresent =>
    have habsent : edge.edge ∉ G.edges := by simpa using hpresent
    refine Triple.pure fun t ht => ⟨G, ?_, ht ▸ hs⟩
    rw [Graph.lacking, Finset.sdiff_singleton_eq_erase, Finset.erase_eq_of_notMem habsent]
    simp [habsent]

theorem simulates_unlinkAll (hg : Integrity c.schema G.records) (hnil : c.schema.type? Id.nil = none)
    (object field : Id) :
    Simulates c base G (unlinkAll object field) (G.unlinkAll c.schema object field) := by
  have hlinks : ∀ s : Session, s.Shows c base G.records →
      (s.links object field).map (fun links => (links.length, (links.map Half.edge).toFinset)) =
        (G.links c.schema object field).map fun links => (links.card, links) := by
    intro s hs
    apply hs.map_links hg hnil rfl
    intro _ _ _ _
    rw [hs.length_halves hg, (hs.halves_edges hg object field).2]
  rw [Graph.unlinkAll]
  apply writable_bind
  apply ask_bind
  · intro s e hs he
    have hfailed := hlinks s hs
    rw [he] at hfailed
    cases hgraph : G.links c.schema object field with
    | ok links =>
      rw [hgraph] at hfailed
      contradiction
    | error e' =>
      rw [hgraph] at hfailed
      cases hfailed
      exact .inr ⟨rfl, hs⟩
  · rintro halves s ⟨hs, hhalves⟩
    have hsame := hlinks s hs
    rw [hhalves] at hsame
    obtain ⟨links, hgraph, hpair⟩ := Stateful.map_eq_ok.mp hsame.symm
    obtain ⟨hcard, hset⟩ := Prod.mk.inj hpair
    have herases : Erases (fun k => ∃ h ∈ halves, OfEdge h k) G.records (G.lacking links).records := by
      apply Graph.erases_lacking
      · rintro a ⟨h, -, ha | ha⟩ <;> contradiction
      · rintro a f ⟨h, -, ha | ha⟩ <;> contradiction
      · intro h
        simp only [Graph.ofEdge_iff, hset, List.mem_toFinset, List.mem_map, eq_comm]
    rw [hgraph]
    have hrun : Triple (Session.Shows c base G.records)
        (do halves.forM eraseEdge; return halves.length)
        (fun n t => n = links.card ∧ t.Shows c base (G.lacking links).records)
        (fun e _ => e.IsExhaustion) := by
      apply (forM_erases eraseEdge_triple halves).bind
      intro _
      apply Triple.pure
      rintro t ⟨g', ht, hgone⟩
      exact ⟨hcard.symm, by rwa [← hgone.unique herases]⟩
    refine hrun.mono (fun _ ht => ht) ?_ (fun e t he => .inl he) s hs
    rintro _ t ⟨rfl, ht⟩
    exact ⟨G.lacking links, rfl, ht⟩

theorem makeRoom_triple (hg : Integrity c.schema G.records) (hnil : c.schema.type? Id.nil = none)
    {a f type : Id} {p : Pairing} (htype : G.types a = some type)
    (hp : c.schema.pairingOn type f = .ok p) {rest : Editing Unit} {Q : Unit → Session → Prop}
    (hrest : Triple (Session.Shows c base (G.makeRoom ⟨a, f⟩ p).records) rest Q
      fun e _ => e.IsExhaustion) :
    Triple (Session.Shows c base G.records)
      (if p.multi = true then rest else do discard (unlinkAll a f); rest) Q
      (fun e _ => e.IsExhaustion) := by
  rw [Graph.makeRoom] at hrest
  split
  next hmulti =>
    rwa [if_pos hmulti] at hrest
  next hmulti =>
    rw [if_neg hmulti] at hrest
    have hlinks : G.unlinkAll c.schema a f =
        .ok ((G.edgesAt ⟨a, f⟩).card, G.lacking (G.edgesAt ⟨a, f⟩)) := by
      rw [Graph.unlinkAll, Graph.links, htype]
      simp only [hp, Stateful.ok_bind]
      rfl
    have hclear : Simulates c base G (unlinkAll a f) (G.unlinkAll c.schema a f) :=
      simulates_unlinkAll hg hnil a f
    rw [hlinks] at hclear
    apply Triple.bind (Triple.discard (hclear.mono (fun _ hs => hs) (fun _ _ hs => hs) ?_))
    · rintro _ s ⟨_, G', hG', hs⟩
      cases hG'
      exact hrest s hs
    · rintro e s (he | ⟨he, -⟩)
      · exact he
      · contradiction

theorem integrity_makeRoom (hg : Integrity c.schema G.records) (a f : Id) (p : Pairing) :
    Integrity c.schema (G.makeRoom ⟨a, f⟩ p).records := by
  rw [Graph.makeRoom]
  split
  · exact hg
  · exact erase_ofField hg (Graph.erases_edgesAt a f)

theorem putEdge_triple (G : Graph) (e : Half) :
    Triple (Session.Shows c base G.records)
      (do put (.association e) []; put (.association e.mirror) [])
      (fun _ t => t.Shows c base (G.linked e.edge).records) (fun e _ => e.IsExhaustion) := by
  rw [Graph.records_linked]
  exact (put_triple (.association e) []).bind fun _ => put_triple (.association e.mirror) []

theorem simulates_link (hg : Integrity c.schema G.records) (hnil : c.schema.type? Id.nil = none)
    (edge : Half) :
    Simulates c base G (link edge) ((G.link c.schema edge).map (⟨⟩, ·)) := by
  have hpairing : ∀ (p : Port) (s : Session), s.Shows c base G.records →
      (do s.pairing (← s.typeOf p.object) p.field) = G.pairingAt c.schema p := by
    intro p s hs
    rw [hs.typeOf_eq hg hnil, Graph.pairingAt]
    simp only [hs.pairing_eq]
  rw [Graph.link]
  apply writable_bind
  apply ask_known (hpairing edge.near)
  · intro near hnear
    rw [hnear, Stateful.ok_bind]
    apply ask_known (hpairing edge.far)
    · intro far hfar
      rw [hfar, Stateful.ok_bind]
      dsimp only
      split
      · exact Triple.throw_bind fun s hs => .inr ⟨rfl, hs⟩
      · apply Triple.get_bind
        intro s hs
        rw [hs.contains_association]
        by_cases hpresent : edge.edge ∈ G.edges
        · simp only [hpresent, decide_true, if_true]
          exact Triple.pure fun t ht => ⟨G, rfl, ht ▸ hs⟩
        · simp only [hpresent, decide_false, if_false, Bool.false_eq_true]
          obtain ⟨type, htype, hp⟩ := Graph.pairingAt_eq_ok hnear
          obtain ⟨type', htype', hp'⟩ := Graph.pairingAt_eq_ok hfar
          have hg₁ := integrity_makeRoom hg edge.object edge.field near
          rw [← Graph.types_makeRoom edge.near near] at htype'
          have hputs := @putEdge_triple c base
            ((G.makeRoom edge.near near).makeRoom edge.far far) edge
          have hroom := makeRoom_triple hg hnil htype hp (makeRoom_triple hg₁ hnil htype' hp' hputs)
          apply hroom.mono
          · rintro t rfl
            exact hs
          · exact fun _ t ht => ⟨_, rfl, ht⟩
          · exact fun e t he => .inl he
    · exact fun e s he hs => .inr ⟨by rw [he]; rfl, hs⟩
  · exact fun e s he hs => .inr ⟨by rw [he]; rfl, hs⟩

end Editing

end ObjectGraph
