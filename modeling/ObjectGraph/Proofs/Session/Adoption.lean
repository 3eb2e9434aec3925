import ObjectGraph.Proofs.Session.Definitions
import ObjectGraph.Proofs.Session.Mirroring

namespace ObjectGraph

open Function (update)
open Records (Erases)
open Stateful (Triple)

def Key.Beside (a : Id) : Key → Prop
  | .object b | .field b _ => b ≠ a
  | .association _ => False

namespace Records

structure Tells (g : Records) (d : Definition) : Prop where
  object_eq : g (.object d.id) = some d.kind.bytes
  part_eq : ∀ p ∈ d.parts, g (.field d.id p.1) = p.2.map Value.encode

def KeptBeside (a : Id) (g g' : Records) : Prop := ∀ k : Key, k.Beside a → g' k = g k

structure Adopts (ds : List Definition) (g g' : Records) : Prop where
  tells : ∀ d ∈ ds, g'.Tells d
  kept : ∀ k : Key, (∀ d ∈ ds, k.Beside d.id) → g' k = g k

variable {g g' g'' : Records} {a : Id} {d : Definition} {ds : List Definition}

theorem KeptBeside.trans (h : KeptBeside a g g') (h' : KeptBeside a g' g'') : KeptBeside a g g'' :=
  fun k hk => (h' k hk).trans (h k hk)

theorem KeptBeside.update {k : Key} (hk : ¬ k.Beside a) (v : Option Bytes) : KeptBeside a g (update g k v) := by
  intro j hj
  apply Function.update_of_ne
  rintro rfl
  exact hk hj

end Records

theorem Key.Beside.not_isPrefixOf {k : Key} {a : Id} (h : k.Beside a) : ¬ a.bytes <+: k.bytes := by
  rw [← List.isPrefixOf_iff_prefix, isPrefixOf_owner]
  cases k with
  | object b => exact h
  | field b f => exact h
  | association half => exact h.elim

theorem Key.Beside.bytes_not_mem {k : Key} {a : Id} (h : k.Beside a) (keys : List Bytes) :
    k.bytes ∉ keys.filterMap mirror? := by
  intro hmem
  obtain ⟨bs, -, hmirror⟩ := List.mem_filterMap.mp hmem
  rw [mirror?] at hmirror
  split at hmirror
  next half hkey =>
    have heq : Key.association half.mirror = k := bytes_injective (Option.some.inj hmirror)
    exact (heq ▸ h : Key.Beside a (.association half.mirror)).elim
  · contradiction

structure Session.Presents (g : Records) (s : Session) : Prop where
  valid : s.workspace.Valid KeyOrder.lexicographic
  records_eq : recorded s.workspace.view = g

theorem Session.Presents.get?_eq {g : Records} {s : Session} (h : s.Presents g) : s.get? = g :=
  (get?_eq_recorded h.valid).trans h.records_eq

namespace Editing

variable {α β : Type} {R R' R'' : Records → Records → Prop} {m : Editing α} {a type : Id}

def Yields (R : Records → Records → Prop) (m : Editing α) : Prop :=
  ∀ g, Triple (Session.Presents g) m (fun _ s => ∃ g', s.Presents g' ∧ R g g') (fun _ _ => True)

namespace Yields

theorem mono (h : Yields R m) (hR : ∀ g g', R g g' → R' g g') : Yields R' m := fun g =>
  (h g).mono (fun _ hs => hs) (fun _ _ ⟨g', hs, hg⟩ => ⟨g', hs, hR g g' hg⟩) fun _ _ he => he

theorem at_state {g : Records} {s : Session} (h : Yields R m) (hs : s.Presents g) :
    Triple (· = s) m (fun _ t => ∃ g', t.Presents g' ∧ R g g') (fun _ _ => True) :=
  (h g).mono (fun _ ht => ht ▸ hs) (fun _ _ ht => ht) fun _ _ he => he

theorem bind {f : α → Editing β} (hm : Yields R m) (hf : ∀ a, Yields R' (f a))
    (hR : ∀ g g' g'', R g g' → R' g' g'' → R'' g g'') : Yields R'' (m >>= f) := by
  intro g
  apply (hm g).bind
  rintro b s ⟨g', hs, hg⟩
  exact (hf b g').mono (fun _ ht => ht) (fun _ _ ⟨g'', ht, hg'⟩ => ⟨g'', ht, hR g g' g'' hg hg'⟩)
    (fun _ _ he => he) s hs

theorem pure {b : β} (hR : ∀ g, R g g) : Yields R (Pure.pure b : Editing β) :=
  fun g => Triple.pure fun _ hs => ⟨g, hs, hR g⟩

theorem discard (h : Yields R m) : Yields R (discard m) := fun g =>
  (Triple.discard (h g)).mono (fun _ hs => hs) (fun _ _ ⟨_, hs⟩ => hs) fun _ _ he => he

end Yields

theorem yields_put (k : Key) (v : Bytes) : Yields (fun g g' => g' = update g k (some v)) (put k v) := by
  intro g
  apply Triple.get_bind
  intro s hs
  apply Triple.ofExcept_bind
  · rintro w hw _ rfl
    obtain ⟨hvalid, -, hview⟩ := hs.valid.put hw
    exact ⟨_, ⟨hvalid, rfl⟩, by rw [hview, recorded_insert hs.valid.ascending_view, hs.records_eq]⟩
  · exact fun _ _ _ _ => trivial

theorem yields_erase (bs : Bytes) : Yields (Erases fun k => k.bytes = bs) (erase bs) := by
  intro g
  apply Triple.get_bind
  intro s hs
  apply Triple.ofExcept_bind
  · rintro w hw _ rfl
    obtain ⟨hvalid, -, hview⟩ := hs.valid.delete hw
    refine ⟨_, ⟨hvalid, rfl⟩, ?_⟩
    rw [hview, ← hs.records_eq]
    exact erases_recorded hs.valid.ascending_view bs
  · exact fun _ _ _ _ => trivial

theorem yields_forM_erase {keys : List Bytes} (h : ∀ k : Key, k.Beside a → k.bytes ∉ keys) :
    Yields (Records.KeptBeside a) (keys.forM erase) := by
  induction keys with
  | nil => exact .pure fun _ _ _ => rfl
  | cons bs keys ih =>
    have hrest (k : Key) (hk : k.Beside a) : k.bytes ∉ keys := fun hmem => h k hk (List.mem_cons_of_mem bs hmem)
    have hfirst : Yields (Records.KeptBeside a) (erase bs) :=
      (yields_erase bs).mono fun g g' herases k hk =>
        herases.eq_of k fun heq => h k hk (heq ▸ List.mem_cons_self)
    exact hfirst.bind (fun _ => ih hrest) fun _ _ _ => .trans

theorem yields_create (type a : Id) :
    Yields (fun g g' => g' = update g (.object a) (some type.bytes)) (create type a) := by
  intro g
  refine requireWritable_bind (fun _ _ _ => trivial) (Triple.get_bind fun s hs => ?_)
  dsimp only
  split
  · exact Triple.throw_bind fun _ _ => trivial
  · split
    · exact Triple.throw_bind fun _ _ => trivial
    · split
      · exact Triple.throw_bind fun _ _ => trivial
      · exact (yields_put (.object a) type.bytes).at_state hs

theorem yields_delete (a : Id) : Yields (Records.KeptBeside a) (delete a) := by
  intro g
  refine requireWritable_bind (fun _ _ _ => trivial) (Triple.get_bind fun s hs => ?_)
  have howned (k : Key) (hk : k.Beside a) : k.bytes ∉ (s.workspace.extending a.bytes).map Prod.fst := by
    intro hmem
    obtain ⟨e, he, heq⟩ := List.mem_map.mp hmem
    exact hk.not_isPrefixOf (heq ▸ (hs.valid.mem_extending.mp he).2)
  split
  · refine Yields.at_state ((yields_forM_erase howned).bind (fun _ => ?_) fun _ _ _ => .trans) hs
    refine (yields_forM_erase fun k hk => hk.bytes_not_mem _).bind (fun _ => ?_) fun _ _ _ => .trans
    exact .pure fun _ _ _ => rfl
  · exact Triple.pure fun _ ht => ⟨g, ht ▸ hs, fun _ _ => rfl⟩

theorem yields_ensureObject (type a : Id) :
    Yields (fun g g' => g' (.object a) = some type.bytes ∧ Records.KeptBeside a g g')
      (Schema.ensureObject type a) := by
  have hcreate : Yields (fun g g' => g' (.object a) = some type.bytes ∧ Records.KeptBeside a g g')
      (create type a) := by
    apply (yields_create type a).mono
    rintro g _ rfl
    exact ⟨Function.update_self .., .update (k := .object a) (fun h => h rfl) _⟩
  intro g
  apply ask_bind fun _ _ _ _ => trivial
  intro found
  cases found with
  | none => exact (hcreate g).mono (fun _ hs => hs.1) (fun _ _ hs => hs) fun _ _ he => he
  | some found =>
    dsimp only
    split
    next hsame =>
      apply Triple.pure
      rintro s ⟨hs, htype⟩
      refine ⟨g, hs, ?_, fun _ _ => rfl⟩
      rw [← hs.get?_eq, ← hsame]
      exact (Session.type?_eq_some_iff.mp htype).1
    · have hboth : Yields (fun g g' => g' (.object a) = some type.bytes ∧ Records.KeptBeside a g g') _ :=
        (yields_delete a).discard.bind (fun _ => hcreate) fun _ _ _ hkept h => ⟨h.1, hkept.trans h.2⟩
      exact (hboth g).mono (fun _ hs => hs.1) (fun _ _ hs => hs) fun _ _ he => he

theorem yields_setPart (a field : Id) (v : Option Value) :
    Yields (fun g g' => g' = update g (.field a field) (v.map Value.encode)) (Schema.setPart a field v) := by
  intro g
  refine requireWritable_bind (fun _ _ _ => trivial) (ask_bind (fun _ _ _ _ => trivial) fun type =>
    ask_bind (fun _ _ _ _ => trivial) fun d => ?_)
  apply Triple.ofExcept_bind _ fun _ _ _ _ => trivial
  intro _ _
  have hwrite : Yields (fun g g' => g' = update g (.field a field) (v.map Value.encode))
      (if ((v.map Value.encode).getD []).isEmpty then erase (Key.field a field).bytes
        else put (.field a field) ((v.map Value.encode).getD [])) := by
    cases v with
    | none =>
      exact (yields_erase _).mono fun g g' herases => herases.unique (Records.erases_update g (.field a field))
    | some v => exact yields_put (.field a field) v.encode
  exact (hwrite g).mono (fun _ hs => hs.1.1) (fun _ _ hs => hs) fun _ _ he => he

theorem yields_setParts {parts : List (Id × Option Value)} (a : Id) (hnodup : (parts.map Prod.fst).Nodup) :
    Yields (fun g g' => (∀ p ∈ parts, g' (.field a p.1) = p.2.map Value.encode) ∧
      ∀ k, (∀ p ∈ parts, k ≠ .field a p.1) → g' k = g k) (parts.forM fun p => Schema.setPart a p.1 p.2) := by
  induction parts with
  | nil => exact .pure fun _ => ⟨nofun, fun _ _ => rfl⟩
  | cons p parts ih =>
    obtain ⟨hnew, hnodup⟩ := List.nodup_cons.mp hnodup
    refine (yields_setPart a p.1 p.2).bind (fun _ => ih hnodup) ?_
    rintro g _ g'' rfl ⟨hparts, hkept⟩
    refine ⟨List.forall_mem_cons.mpr ⟨?_, hparts⟩, fun k hk => ?_⟩
    · rw [hkept, Function.update_self]
      intro q hq heq
      exact hnew ((Key.field.inj heq).2 ▸ List.mem_map_of_mem hq)
    · obtain ⟨hfirst, hrest⟩ := List.forall_mem_cons.mp hk
      rw [hkept k hrest, Function.update_of_ne hfirst]

end Editing

namespace Schema

open Editing (Yields)

theorem yields_storeDefinition (d : Definition) :
    Yields (fun g g' => g'.Tells d ∧ Records.KeptBeside d.id g g') (storeDefinition d) := by
  refine (Editing.yields_ensureObject d.kind d.id).bind
    (fun _ => Editing.yields_setParts d.id d.nodup_parts) ?_
  rintro g g' g'' ⟨hobject, hkept⟩ ⟨hparts, hrest⟩
  refine ⟨⟨(hrest (.object d.id) fun _ _ => nofun).trans hobject, hparts⟩, fun k hk => (hrest k ?_).trans (hkept k hk)⟩
  rintro p - rfl
  exact hk rfl

theorem yields_storeDefinitions {ds : List Definition} (h : (ds.map Definition.id).Nodup) :
    Yields (Records.Adopts ds) (ds.forM storeDefinition) := by
  induction ds with
  | nil => exact .pure fun _ => ⟨nofun, fun _ _ => rfl⟩
  | cons d ds ih =>
    obtain ⟨hnew, hnodup⟩ := List.nodup_cons.mp h
    refine (yields_storeDefinition d).bind (fun _ => ih hnodup) ?_
    rintro g g' g'' ⟨htells, hkept⟩ hadopts
    have hbeside (e : Definition) (he : e ∈ ds) : d.id ≠ e.id := fun heq => hnew (heq ▸ List.mem_map_of_mem he)
    refine ⟨List.forall_mem_cons.mpr ⟨⟨?_, fun p hp => ?_⟩, hadopts.tells⟩, fun k hk => ?_⟩
    · exact (hadopts.kept (.object d.id) hbeside).trans htells.object_eq
    · exact (hadopts.kept (.field d.id p.1) hbeside).trans (htells.part_eq p hp)
    · obtain ⟨hfirst, hrest⟩ := List.forall_mem_cons.mp hk
      exact (hadopts.kept k hrest).trans (hkept k hfirst)

end Schema

end ObjectGraph
