import ObjectGraph.Proofs.KeyOrder
import ObjectGraph.Proofs.Search.Derived
import ObjectGraph.Proofs.Workspace.Override

namespace ObjectGraph

open Dictionary (Ascending)

def Schema.Admits (s : Schema) : Key → Bytes → Prop
  | .object _, v => ∃ type : Id, v = type.bytes ∧ (s.type? type).isSome
  | .field _ field, v => ∃ d x, s.field? field = some d ∧ d.type.IsScalar ∧
      Value.decode v = .ok (some x) ∧ x.type = d.type
  | .association _, v => v = []

def Admitted (schema : Schema) (d : List Entry) : Prop :=
  ∀ e ∈ d, ∃ k : Key, e.1 = k.bytes ∧ schema.Admits k e.2

def Staged.Admitted (schema : Schema) (staged : List Entry) : Prop :=
  ∀ e ∈ staged, ∃ k : Key, e.1 = k.bytes ∧ ∀ v, payload? e.2 = some v → schema.Admits k v

variable {schema : Schema} {d base staged : List Entry} {e : Entry}

theorem Schema.Admits.ne_nil {object field : Id} {v : Bytes}
    (h : schema.Admits (.field object field) v) : v ≠ [] := by
  obtain ⟨d, x, -, -, hx, -⟩ := h
  rintro rfl
  cases hx

theorem Admitted.of_mem (h : Admitted schema d) {k : Key} {v : Bytes} (hmem : (k.bytes, v) ∈ d) :
    schema.Admits k v := by
  obtain ⟨k', hk, hadmits⟩ := h _ hmem
  rwa [Key.bytes_injective hk]

theorem Staged.admitted_insert (hs : Ascending KeyOrder.lexicographic staged)
    (h : Staged.Admitted schema staged) {k : Key} {bs : Bytes}
    (hk : ∀ v, payload? bs = some v → schema.Admits k v) :
    Staged.Admitted schema (Dictionary.insert KeyOrder.lexicographic k.bytes bs staged) := by
  intro e he
  rcases (Dictionary.mem_insert hs).mp he with rfl | ⟨he, -⟩
  · exact ⟨k, rfl, hk⟩
  · exact h e he

theorem Staged.admitted_erase (h : Staged.Admitted schema staged) (bs : Bytes) :
    Staged.Admitted schema (Dictionary.erase KeyOrder.lexicographic bs staged) :=
  fun e he => h e ((Dictionary.erase_sublist bs staged).subset he)

theorem Admitted.apply (hd : Ascending KeyOrder.lexicographic d) (h : Admitted schema d)
    (he : ∃ k : Key, e.1 = k.bytes ∧ ∀ v, Staged.payload? e.2 = some v → schema.Admits k v) :
    Admitted schema (Staged.apply KeyOrder.lexicographic d e) := by
  obtain ⟨k, hk, hadmits⟩ := he
  intro a ha
  cases hp : Staged.payload? e.2 with
  | none =>
    rw [Staged.apply, hp] at ha
    exact h a ((Dictionary.erase_sublist _ _).subset ha)
  | some v =>
    rw [Staged.apply, hp, Dictionary.mem_insert hd] at ha
    rcases ha with rfl | ⟨ha, -⟩
    · exact ⟨k, hk, hadmits v hp⟩
    · exact h a ha

theorem Admitted.override (hbase : Ascending KeyOrder.lexicographic base) (h : Admitted schema base)
    (hs : Staged.Admitted schema staged) :
    Admitted schema (Staged.override KeyOrder.lexicographic base staged) := by
  induction staged generalizing base with
  | nil => exact h
  | cons e staged ih =>
    have he := hs e List.mem_cons_self
    have hrest : Staged.Admitted schema staged := fun a ha => hs a (List.mem_cons_of_mem e ha)
    exact ih (Staged.ascending_apply hbase) (h.apply hbase he) hrest

end ObjectGraph
