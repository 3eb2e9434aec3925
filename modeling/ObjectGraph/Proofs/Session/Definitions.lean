import ObjectGraph.Proofs.Graph.Definitions
import ObjectGraph.Schema.Stored

namespace ObjectGraph

open Stateful (Triple)

namespace Editing

variable {α : Type} {c : Catalog} {base : Table} {G : Graph} {a field type : Id}

theorem Simulates.triple {m : Editing α} {x : α} {G' : Graph} (h : Simulates c base G m (.ok (x, G'))) :
    Triple (Session.Shows c base G.records) m (fun _ s => s.Shows c base G'.records)
      (fun e _ => e.IsExhaustion) := by
  apply h.mono
  · exact fun _ hs => hs
  · rintro _ s ⟨_, hG, hs⟩
    cases hG
    exact hs
  · rintro e s (he | ⟨he, -⟩)
    · exact he
    · contradiction

theorem ensureObject_triple (hg : Integrity c.schema G.records) (hnil : c.schema.type? Id.nil = none)
    (htype : (c.schema.type? type).isSome) (ha : a ≠ Id.nil) :
    Triple (Session.Shows c base G.records) (Schema.ensureObject type a)
      (fun _ s => s.Shows c base (G.retyped a type).records) (fun e _ => e.IsExhaustion) := by
  have hknown : (c.schema.type? type).isNone = false := by
    rw [Option.isNone_eq_false_iff, htype]
  have hcreate {G : Graph} (hnone : G.types a = none) : G.create c.schema type a = .ok (G.withObject a type) := by
    simp [Graph.create, hknown, ha, hnone]
  apply ask_known fun s hs => hs.type?_eq hg hnil a
  · rintro _ ⟨⟩
    rw [Graph.retyped]
    cases hfound : G.types a with
    | none =>
      have hsimulates := @simulates_create c base G type a
      rw [hcreate hfound] at hsimulates
      rw [if_neg (Option.some_ne_none type).symm, Graph.without_eq_self hg hfound]
      exact hsimulates.triple
    | some found =>
      dsimp only
      by_cases hsame : found = type
      · rw [if_pos hsame, if_pos (congrArg some hsame)]
        exact Triple.pure fun _ hs => hs
      · rw [if_neg hsame, if_neg fun heq => hsame (Option.some.inj heq)]
        have hgone : (G.without a).types a = none := by simp [Graph.without]
        have hsimulates := @simulates_create c base (G.without a) type a
        rw [hcreate hgone] at hsimulates
        apply (simulates_delete hg a).triple.discard.bind
        intro _
        apply hsimulates.triple.mono
        · rintro s ⟨_, hs⟩
          exact hs
        · exact fun _ _ hs => hs
        · exact fun _ _ he => he
  · intro e s he
    contradiction

theorem setParts_triple {parts : List (Id × Option Value)} (hnil : c.schema.type? Id.nil = none)
    (hne : type ≠ Id.nil) (hparts : ∀ p ∈ parts, ∃ x, c.schema.scalarOn type p.1 = .ok x ∧
      ∀ v ∈ p.2, v.type = x.type) (hg : Integrity c.schema G.records) (htype : G.types a = some type) :
    Triple (Session.Shows c base G.records) (parts.forM fun p => Schema.setPart a p.1 p.2)
      (fun _ s => s.Shows c base (G.withParts a parts).records) (fun e _ => e.IsExhaustion) := by
  induction parts generalizing G with
  | nil => exact Triple.pure fun _ hs => hs
  | cons p parts ih =>
    obtain ⟨⟨x, hx, hvalue⟩, hparts⟩ := List.forall_mem_cons.mp hparts
    have hsimulates := @simulates_setValue c base G hg hnil a p.1 ((p.2.map Value.encode).getD [])
    rw [Graph.setValue_eq_ok htype hx hvalue] at hsimulates
    exact hsimulates.triple.bind fun _ => ih hparts (Graph.integrity_withValue htype hx hvalue hg hne) htype

end Editing

namespace Schema

variable {c : Catalog} {base : Table} {s t : Schema} {f : Id → Option Definition}

def storeDefinition (d : Definition) : Editing Unit := do
  ensureObject d.kind d.id
  d.parts.forM fun p => setPart d.id p.1 p.2

theorem store_eq (s : Schema) : s.store = s.own.forM storeDefinition := by
  have htype (d : TypeDef) : storeType d = storeDefinition (.type d) := by
    rw [storeType, storeDefinition, Definition.parts, List.forM_eq_forM]
    simp only [List.forM_cons, List.forM_nil, bind_pure_unit]
    rfl
  have hfield (d : FieldDef) : storeField d = storeDefinition (.field d) := by
    rw [storeField, storeDefinition, Definition.parts, List.forM_eq_forM]
    simp only [List.forM_cons, List.forM_nil, bind_pure_unit]
    rfl
  rw [store, own, List.forM_eq_forM, List.forM_eq_forM, List.forM_eq_forM, List.forM_append,
    List.forM_map, List.forM_map, funext htype, funext hfield]

theorem storeDefinition_triple (hc : c.schema.Lawful) {d : Definition} (hd : ¬ Builtin.IsReserved d.id) :
    Triple (Session.Shows c base (Graph.ofDefinitions f).records) (storeDefinition d)
      (fun _ s => s.Shows c base (Graph.ofDefinitions (d.enter f)).records) (fun e _ => e.IsExhaustion) := by
  have hg := Graph.integrity_ofDefinitions hc f
  have hne : d.id ≠ Id.nil := by
    intro hnil
    rw [hnil] at hd
    exact hd (by decide)
  have htype : ((Graph.ofDefinitions f).retyped d.id d.kind).types d.id = some d.kind := by
    rw [Graph.types_retyped, Function.update_self]
  rw [← Graph.retyped_withParts]
  apply (Editing.ensureObject_triple hg hc.type?_nil (hc.isSome_kind d) hne).bind
  intro _
  exact Editing.setParts_triple hc.type?_nil d.kind_ne_nil (fun p hp => hc.scalarOn_part hp)
    (Graph.integrity_retyped hg (hc.isSome_kind d) d.id) htype

theorem storeDefinitions_triple (hc : c.schema.Lawful) {l : List Definition}
    (hl : ∀ d ∈ l, ¬ Builtin.IsReserved d.id) :
    Triple (Session.Shows c base (Graph.ofDefinitions f).records) (l.forM storeDefinition)
      (fun _ s => s.Shows c base (Graph.ofDefinitions (l.foldl Definition.enter f)).records)
      (fun e _ => e.IsExhaustion) := by
  induction l generalizing f with
  | nil => exact Triple.pure fun _ hs => hs
  | cons d l ih =>
    obtain ⟨hd, hl⟩ := List.forall_mem_cons.mp hl
    exact (storeDefinition_triple hc hd).bind fun _ => ih hl

theorem store_triple (hc : c.schema.Lawful) (hs : s.Lawful) (ht : t.Lawful) :
    Triple (Session.Shows c base (Graph.ofDefinitions s.definition?).records) t.store
      (fun _ w => w.Shows c base (Graph.ofDefinitions (s.overlay t).definition?).records)
      (fun e _ => e.IsExhaustion) := by
  rw [store_eq, overlay, (hs.foldl_put ht.free_own).2]
  exact storeDefinitions_triple hc ht.free_own

end Schema

end ObjectGraph
