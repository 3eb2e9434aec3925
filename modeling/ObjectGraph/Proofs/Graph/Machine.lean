import Mathlib.Data.FinEnum
import Mathlib.Data.Finset.Sort
import Mathlib.Data.Fintype.Vector
import Mathlib.Data.Set.Finite.Basic
import Mathlib.Data.Sym.Sym2
import ObjectGraph.Proofs.Graph.Integrity
import ObjectGraph.Proofs.Stateful
import ObjectGraph.Session.Links
/-!
The object graph as a machine: typed objects, field values and undirected edges between the fields of
objects, and what each call makes of them. A call that fails has no effect.
-/

namespace ObjectGraph

open Function (update)

structure Port where
  object : Id
  field : Id
deriving DecidableEq

namespace Half

def near (h : Half) : Port := ⟨h.object, h.field⟩

def far (h : Half) : Port := ⟨h.other, h.otherField⟩

def edge (h : Half) : Sym2 Port := s(h.near, h.far)

theorem exists_edge_eq (x : Sym2 Port) : ∃ h : Half, h.edge = x := by
  induction x with
  | _ p q => exact ⟨⟨p.object, p.field, q.object, q.field⟩, rfl⟩

theorem edge_eq_iff {e h : Half} : h.edge = e.edge ↔ e.Joins h := by
  obtain ⟨a, f, b, f'⟩ := e
  obtain ⟨a', g, b', g'⟩ := h
  simp only [edge, near, far, Sym2.eq_iff, Port.mk.injEq, Joins, mirror, Half.mk.injEq, and_assoc]

theorem eq_of_edge_eq {h h' : Half} (hnear : h.near = h'.near) (hedge : h.edge = h'.edge) :
    h = h' := by
  rw [edge, edge, hnear, Sym2.congr_right] at hedge
  cases h
  cases h'
  simp_all [near, far]

end Half

instance : Finite Id :=
  @Finite.of_injective _ (List.Vector UInt8 16) _ (fun a => ⟨a.bytes, a.length_bytes⟩)
    fun _ _ h => Id.bytes_injective (congrArg Subtype.val h)

@[ext]
structure Graph where
  types : Id → Option Id
  values : Id → Id → Option Bytes
  edges : Finset (Sym2 Port)

instance : LE Id := ⟨fun a b => (compare a b).isLE⟩

instance (a b : Id) : Decidable (a ≤ b) := inferInstanceAs (Decidable ((compare a b).isLE = true))

instance : IsTrans Id (· ≤ ·) := ⟨fun _ _ _ => Std.TransCmp.isLE_trans⟩

instance : Std.Antisymm (α := Id) (· ≤ ·) :=
  ⟨fun _ _ hab hba => Std.LawfulEqOrd.eq_of_compare (Std.OrientedCmp.isLE_antisymm hab hba)⟩

instance : Std.Total (α := Id) (· ≤ ·) := ⟨fun a b => by
  have hswap : compare b a = (compare a b).swap := Std.OrientedCmp.eq_swap
  change (compare a b).isLE = true ∨ (compare b a).isLE = true
  rw [hswap]
  cases compare a b <;> simp⟩

theorem Id.eq_sort {l : List Id} {ids : Finset Id} (hl : l.Pairwise (compare · · = .lt))
    (hmem : ∀ a, a ∈ l ↔ a ∈ ids) : l = ids.sort := by
  have hnodup : l.Nodup := by
    apply hl.imp
    rintro a b hlt rfl
    have hself : compare a a = .eq := Std.ReflCmp.compare_self
    rw [hself] at hlt
    contradiction
  have hle : l.Pairwise (· ≤ ·) := hl.imp fun hlt => Ordering.isLE_of_eq_lt hlt
  have hset : l.toFinset = ids := by
    ext a
    rw [List.mem_toFinset, hmem]
  rw [← hset]
  exact ((List.toFinset_sort (· ≤ ·) hnodup).mpr hle).symm

namespace Schema

def scalarOn (s : Schema) (type field : Id) : Except Error FieldDef := do
  let d ← s.fieldOn type field
  if d.type.IsScalar then return d
  else throw (.typeMismatch field .holdsNoValue)

def pairingOn (s : Schema) (type field : Id) : Except Error Pairing := do
  match (← s.fieldOn type field).pairing with
  | none => throw (.typeMismatch field .notAssociation)
  | some p => return p

end Schema

namespace Graph

variable (schema : Schema)

def typeOf (G : Graph) (object : Id) : Except Error Id :=
  match G.types object with
  | none => .error (.objectNotFound object)
  | some type => .ok type

def withObject (object type : Id) (G : Graph) : Graph :=
  { G with types := update G.types object (some type) }

def create (type object : Id) (G : Graph) : Except Error Graph :=
  if (schema.type? type).isNone then .error (.unknownType type)
  else if object = Id.nil then .error (.invalidArgument .nilObject)
  else if (G.types object).isSome then .error (.objectExists object)
  else .ok (G.withObject object type)

def without (object : Id) (G : Graph) : Graph where
  types := update G.types object none
  values := update G.values object fun _ => none
  edges := G.edges.filter fun e => object ∉ e.map Port.object

def withValue (object field : Id) (value : Option Bytes) (G : Graph) : Graph :=
  { G with values := update G.values object (update (G.values object) field value) }

def setValue (object field : Id) (raw : Bytes) (G : Graph) : Except Error Graph := do
  let type ← G.typeOf object
  let d ← schema.scalarOn type field
  d.checkValue raw
  return G.withValue object field (if raw.isEmpty then none else some raw)

def value (object field : Id) (G : Graph) : Except Error Bytes :=
  match G.types object with
  | none => .ok []
  | some type => do
    let _ ← schema.scalarOn type field
    return (G.values object field).getD []

def edgesAt (G : Graph) (p : Port) : Finset (Sym2 Port) := G.edges.filter (p ∈ ·)

def links (object field : Id) (G : Graph) : Except Error (Finset (Sym2 Port)) :=
  match G.types object with
  | none => .ok ∅
  | some type => do
    let _ ← schema.pairingOn type field
    return G.edgesAt ⟨object, field⟩

def partnersAlong (p : Port) (links : Finset (Sym2 Port)) : List Id :=
  (((links.biUnion Sym2.toFinset).filter fun q => s(p, q) ∈ links).image Port.object).sort

theorem mem_partnersAlong {p : Port} {links : Finset (Sym2 Port)} {b : Id} :
    b ∈ partnersAlong p links ↔ ∃ f, s(p, ⟨b, f⟩) ∈ links := by
  rw [partnersAlong, Finset.mem_sort, Finset.mem_image]
  constructor
  · rintro ⟨q, hq, rfl⟩
    exact ⟨q.field, (Finset.mem_filter.mp hq).2⟩
  · rintro ⟨f, hf⟩
    have hend : (⟨b, f⟩ : Port) ∈ s(p, ⟨b, f⟩).toFinset := by simp
    exact ⟨⟨b, f⟩, Finset.mem_filter.mpr ⟨Finset.mem_biUnion.mpr ⟨_, hf, hend⟩, hf⟩, rfl⟩

theorem eq_partnersAlong {p : Port} {links : Finset (Sym2 Port)} {l : List Id}
    (hl : l.Pairwise (compare · · = .lt)) (hmem : ∀ b, b ∈ l ↔ ∃ f, s(p, ⟨b, f⟩) ∈ links) :
    l = partnersAlong p links := by
  apply Id.eq_sort hl
  intro b
  rw [hmem, ← mem_partnersAlong, partnersAlong, Finset.mem_sort]

def partners (object field : Id) (G : Graph) : Except Error (List Id) := do
  let links ← G.links schema object field
  return partnersAlong ⟨object, field⟩ links

noncomputable def objects (type : Id) (G : Graph) : Except Error (List Id) :=
  if (schema.type? type).isNone then .error (.unknownType type)
  else .ok (Set.toFinite {a | ∃ t, G.types a = some t ∧ schema.isA t type}).toFinset.sort

def lacking (gone : Finset (Sym2 Port)) (G : Graph) : Graph := { G with edges := G.edges \ gone }

def unlinkAll (object field : Id) (G : Graph) : Except Error (Nat × Graph) := do
  let links ← G.links schema object field
  return (links.card, G.lacking links)

def linked (e : Sym2 Port) (G : Graph) : Graph := { G with edges := insert e G.edges }

def makeRoom (p : Port) (pairing : Pairing) (G : Graph) : Graph :=
  if pairing.multi then G else G.lacking (G.edgesAt p)

def pairingAt (p : Port) (G : Graph) : Except Error Pairing := do
  schema.pairingOn (← G.typeOf p.object) p.field

def link (h : Half) (G : Graph) : Except Error Graph := do
  let near ← G.pairingAt schema h.near
  let far ← G.pairingAt schema h.far
  if near.other ≠ h.otherField ∨ far.other ≠ h.field then
    throw (.typeMismatch h.field (.unpaired h.field h.otherField))
  if h.edge ∈ G.edges then return G
  return ((G.makeRoom h.near near).makeRoom h.far far).linked h.edge

theorem pairingAt_eq_ok {schema : Schema} {G : Graph} {p : Port} {pairing : Pairing}
    (h : G.pairingAt schema p = .ok pairing) :
    ∃ type, G.types p.object = some type ∧ schema.pairingOn type p.field = .ok pairing := by
  obtain ⟨type, htype, h⟩ := Stateful.bind_eq_ok.mp h
  rw [typeOf] at htype
  split at htype
  · contradiction
  next hsome =>
    cases htype
    exact ⟨type, hsome, h⟩

theorem types_makeRoom (p : Port) (pairing : Pairing) (G : Graph) :
    (G.makeRoom p pairing).types = G.types := by
  rw [makeRoom]
  split <;> rfl

def records (G : Graph) : Records
  | .object a => (G.types a).map Id.bytes
  | .field a f => G.values a f
  | .association h => if h.edge ∈ G.edges then some [] else none

theorem isSome_records_association {G : Graph} {h : Half} :
    (G.records (.association h)).isSome ↔ h.edge ∈ G.edges := by
  rw [records]
  split
  next hmem => exact iff_of_true rfl hmem
  next hmem => exact iff_of_false nofun hmem

theorem records_injective {G G' : Graph} (h : G.records = G'.records) : G = G' := by
  have htypes : G.types = G'.types := by
    funext a
    have ha : (G.types a).map Id.bytes = (G'.types a).map Id.bytes := congrFun h (.object a)
    exact Option.map_injective (fun _ _ => Id.bytes_injective) ha
  have hvalues : G.values = G'.values := by
    funext a f
    exact congrFun h (.field a f)
  have hedges : G.edges = G'.edges := by
    ext e
    obtain ⟨half, rfl⟩ := Half.exists_edge_eq e
    rw [← isSome_records_association, h, isSome_records_association]
  cases G
  cases G'
  simp_all

end Graph

end ObjectGraph
