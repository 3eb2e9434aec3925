import ObjectGraph.Proofs.Schema.Storing
import ObjectGraph.Proofs.Search.Derived
import ObjectGraph.Proofs.Session.Records

namespace ObjectGraph

open Function (update)
open Stateful (Triple)
open Records (Erases)

inductive Edit where
  | create (type object : Id)
  | createRandom (type bits : Id)
  | delete (object : Id)
  | setValue (object field : Id) (raw : Bytes)
  | link (edge : Half)
  | unlink (edge : Half)
  | unlinkAll (object field : Id)
  | rollback

def Edit.perform : Edit → Editing Unit
  | create type object => Editing.create type object
  | createRandom type bits => discard (Editing.createRandom type bits)
  | delete object => discard (Editing.delete object)
  | setValue object field raw => Editing.setValue object field raw
  | link edge => Editing.link edge
  | unlink edge => discard (Editing.unlink edge)
  | unlinkAll object field => discard (Editing.unlinkAll object field)
  | rollback => modify Session.rollback

theorem FieldDef.checkValue_eq_ok {d : FieldDef} {raw : Bytes} (hne : raw ≠ [])
    (h : d.checkValue raw = .ok ⟨⟩) : ∃ x, Value.decode raw = .ok (some x) ∧ x.type = d.type := by
  rw [checkValue] at h
  split at h
  · contradiction
  next hnone => exact absurd (Value.eq_nil_of_decode hnone) hne
  next x hx =>
    split at h
    next htype => exact ⟨x, hx, htype⟩
    · contradiction

namespace Editing

variable {α β : Type} {c : Catalog} {base : Table} {g : Records} {P : Session → Prop}
  {Q : β → Session → Prop} {E : Error → Session → Prop}

theorem requireWritable_bind {m : Editing β} (hE : ∀ s, P s → s.writable = false → E .readOnly s)
    (h : Triple P m Q E) : Triple P (requireWritable >>= fun _ => m) Q E := by
  apply Triple.bind (Q := fun _ => P)
  · apply Triple.get_bind
    intro s hs
    split
    · exact Triple.pure fun t ht => ht ▸ hs
    next hwritable =>
      rw [Bool.not_eq_true] at hwritable
      exact Triple.throw fun t ht => ht ▸ hE s hs hwritable
  · exact fun _ => h

theorem ask_bind {question : Session → Except Error α} {f : α → Editing β}
    (hE : ∀ s e, P s → question s = .error e → E e s)
    (h : ∀ a, Triple (fun s => P s ∧ question s = .ok a) (f a) Q E) :
    Triple P (ask question >>= f) Q E := by
  refine Triple.bind (Triple.get_bind fun s hs => Triple.ofExcept ?_ ?_) h
  · rintro t a rfl ha
    exact ⟨hs, ha⟩
  · rintro t e rfl he
    exact hE t e hs he

theorem put_triple (k : Key) (v : Bytes) :
    Triple (Session.Shows c base g) (put k v) (fun _ => Session.Shows c base (update g k (some v)))
      (fun e _ => e.IsExhaustion) := by
  apply Triple.get_bind
  intro s hs
  apply Triple.ofExcept_bind
  · rintro w hw _ rfl
    obtain ⟨hvalid, hbase, hview⟩ := hs.valid.put hw
    refine ⟨hs.catalog_eq, hs.writable, hbase.trans hs.base_eq, hvalid, ?_, ?_⟩
    · rw [hview]
      exact hs.keyed.insert hs.valid.ascending_view k v
    · rw [hview, recorded_insert hs.valid.ascending_view, hs.records_eq]
  · exact fun t e _ he => Workspace.put_error he

theorem erase_triple (bs : Bytes) :
    Triple (Session.Shows c base g) (erase bs)
      (fun _ s => ∃ g', s.Shows c base g' ∧ Erases (fun k => k.bytes = bs) g g')
      (fun e _ => e.IsExhaustion) := by
  apply Triple.get_bind
  intro s hs
  apply Triple.ofExcept_bind
  · rintro w hw _ rfl
    obtain ⟨hvalid, hbase, hview⟩ := hs.valid.delete hw
    refine ⟨_, ⟨hs.catalog_eq, hs.writable, hbase.trans hs.base_eq, hvalid, ?_, rfl⟩, ?_⟩
    · rw [hview]
      exact hs.keyed.erase bs
    · rw [hview, ← hs.records_eq]
      exact erases_recorded hs.valid.ascending_view bs
  · exact fun t e _ he => Workspace.delete_error he

theorem forM_erases {γ : Type} {f : γ → Editing Unit} {gone : γ → Key → Prop}
    (h : ∀ x g, Triple (Session.Shows c base g) (f x)
      (fun _ s => ∃ g', s.Shows c base g' ∧ Erases (gone x) g g') (fun e _ => e.IsExhaustion))
    (xs : List γ) :
    Triple (Session.Shows c base g) (xs.forM f)
      (fun _ s => ∃ g', s.Shows c base g' ∧ Erases (fun k => ∃ x ∈ xs, gone x k) g g')
      (fun e _ => e.IsExhaustion) := by
  induction xs generalizing g with
  | nil => exact Triple.pure fun s hs => ⟨g, hs, by simp [Erases.refl]⟩
  | cons x xs ih =>
    apply Triple.bind (h x g)
    rintro _ s ⟨g', hs, hx⟩
    have hrest := ih s hs
    split at hrest
    · obtain ⟨g'', hs', hxs⟩ := hrest
      exact ⟨g'', hs', (hx.trans hxs).congr fun k _ => by simp⟩
    · exact hrest

theorem forM_erase_triple (keys : List Bytes) :
    Triple (Session.Shows c base g) (keys.forM erase)
      (fun _ s => ∃ g', s.Shows c base g' ∧ Erases (fun k => k.bytes ∈ keys) g g')
      (fun e _ => e.IsExhaustion) := by
  apply (forM_erases (fun bs _ => erase_triple bs) keys).mono
  · exact fun s hs => hs
  · rintro _ s ⟨g', hs, herases⟩
    exact ⟨g', hs, herases.congr fun k _ => by simp⟩
  · exact fun e s he => he

def OfEdge (e : Half) (k : Key) : Prop := k = .association e ∨ k = .association e.mirror

theorem eraseEdge_triple (e : Half) (g : Records) :
    Triple (Session.Shows c base g) (eraseEdge e)
      (fun _ s => ∃ g', s.Shows c base g' ∧ Erases (OfEdge e) g g') (fun e _ => e.IsExhaustion) := by
  apply Triple.bind (erase_triple e.bytes)
  rintro _ s ⟨g', hs, he⟩
  have hrest := erase_triple e.mirror.bytes s hs
  split at hrest
  · obtain ⟨g'', hs', hm⟩ := hrest
    refine ⟨g'', hs', (he.trans hm).congr fun k _ => ?_⟩
    have hhalf : ∀ h : Half, k.bytes = h.bytes ↔ k = .association h :=
      fun h => @Key.bytes_inj k (.association h)
    exact or_congr (hhalf e) (hhalf e.mirror)
  · exact hrest

def OfField (a f : Id) : Key → Prop
  | .association h => h.object = a ∧ h.field = f ∨ h.other = a ∧ h.otherField = f
  | _ => False

def Sound (c : Catalog) (base : Table) (s : Session) : Prop :=
  ∃ g, s.Shows c base g ∧ Integrity c.schema g

def Refused (c : Catalog) (base : Table) (e : Error) (s : Session) : Prop :=
  e.IsExhaustion ∨ Sound c base s

theorem halves_iff_ofField {s : Session} (hs : s.Shows c base g) (hg : Integrity c.schema g)
    {a f : Id} {k : Key} (hk : (g k).isSome) :
    (∃ h ∈ s.halves a f, OfEdge h k) ↔ OfField a f k := by
  constructor
  · rintro ⟨h, hh, rfl | rfl⟩
    · obtain ⟨hobject, hfield, -⟩ := hs.mem_halves.mp hh
      exact .inl ⟨hobject, hfield⟩
    · obtain ⟨hobject, hfield, -⟩ := hs.mem_halves.mp hh
      exact .inr ⟨hobject, hfield⟩
  · intro hof
    cases k with
    | object b => contradiction
    | field b f' => contradiction
    | association h =>
      rcases hof with ⟨hobject, hfield⟩ | ⟨hother, hotherField⟩
      · exact ⟨h, hs.mem_halves.mpr ⟨hobject, hfield, hk⟩, .inl rfl⟩
      · rw [hg.mirrored] at hk
        exact ⟨h.mirror, hs.mem_halves.mpr ⟨hother, hotherField, hk⟩, .inr rfl⟩

theorem links_eq_ok {s : Session} (hs : s.Shows c base g) (hg : Integrity c.schema g) {a f : Id}
    {links : List Half} (h : s.links a f = .ok links) {k : Key} (hk : (g k).isSome) :
    (∃ h ∈ links, OfEdge h k) ↔ OfField a f k := by
  rw [Session.links] at h
  obtain ⟨found, hfound, h⟩ := Stateful.bind_eq_ok.mp h
  cases found with
  | none =>
    cases h
    rw [← halves_iff_ofField hs hg hk]
    constructor
    · rintro ⟨h, hh, -⟩
      contradiction
    · rintro ⟨h, hh, -⟩
      obtain ⟨rfl, -, hhalf⟩ := hs.mem_halves.mp hh
      obtain ⟨type, htype⟩ := hg.exists_type_of_half hhalf
      exact absurd htype (hs.type?_eq_none hfound)
  | some type =>
    obtain ⟨p, -, h⟩ := Stateful.bind_eq_ok.mp h
    cases h
    exact halves_iff_ofField hs hg hk

theorem unlinkAll_triple (hg : Integrity c.schema g) (a f : Id) :
    Triple (Session.Shows c base g) (unlinkAll a f)
      (fun _ s => ∃ g', s.Shows c base g' ∧ Erases (OfField a f) g g') (Refused c base) := by
  apply requireWritable_bind fun s hs _ => .inr ⟨g, hs, hg⟩
  apply ask_bind fun s _ hs _ => .inr ⟨g, hs, hg⟩
  rintro links s ⟨hs, hlinks⟩
  have hloop : Triple (Session.Shows c base g) (links.forM eraseEdge)
      (fun _ s => ∃ g', s.Shows c base g' ∧ Erases (OfField a f) g g') (Refused c base) := by
    apply (forM_erases eraseEdge_triple links).mono (fun _ ht => ht) _ fun e t he => .inl he
    rintro _ t ⟨g', ht, herases⟩
    exact ⟨g', ht, herases.congr fun k hk => links_eq_ok hs hg hlinks hk⟩
  exact (hloop.bind fun _ => Triple.pure fun _ ht => ht) s hs

def Preserves (c : Catalog) (base : Table) (m : Editing α) : Prop :=
  Triple (Sound c base) m (fun _ => Sound c base) (Refused c base)

theorem Preserves.of_records {m : Editing α} (h : ∀ g, Integrity c.schema g →
    Triple (Session.Shows c base g) m (fun _ => Sound c base) (Refused c base)) :
    Preserves c base m := by
  rintro s ⟨g, hs, hg⟩
  exact h g hg s hs

theorem Preserves.bind {m : Editing α} {f : α → Editing β} (hm : Preserves c base m)
    (hf : ∀ a, Preserves c base (f a)) : Preserves c base (m >>= f) := Triple.bind hm hf

theorem Preserves.pure (a : α) : Preserves c base (Pure.pure a) := Triple.pure fun _ hs => hs

theorem preserves_create (type object : Id) : Preserves c base (create type object) := by
  apply Preserves.of_records
  intro g hg
  have hrefused : ∀ s, s.Shows c base g → ∀ e, Refused c base e s := fun s hs e => .inr ⟨g, hs, hg⟩
  apply requireWritable_bind fun s hs _ => hrefused s hs _
  apply Triple.get_bind
  intro s hs
  dsimp only
  split
  · exact Triple.throw_bind fun t ht => ht ▸ hrefused s hs _
  next htype =>
    split
    · exact Triple.throw_bind fun t ht => ht ▸ hrefused s hs _
    · split
      · exact Triple.throw_bind fun t ht => ht ▸ hrefused s hs _
      next hnew =>
        rw [hs.contains_eq, Bool.not_eq_true, Option.isSome_eq_false_iff, Option.isNone_iff_eq_none]
          at hnew
        rw [Option.isNone_iff_eq_none, ← ne_eq, ← Option.isSome_iff_ne_none, hs.catalog_eq] at htype
        apply (put_triple (.object object) type.bytes).mono
        · rintro t rfl
          exact hs
        · exact fun _ t ht => ⟨_, ht, hg.create hnew htype⟩
        · exact fun e t he => .inl he

theorem preserves_createRandom (type bits : Id) : Preserves c base (createRandom type bits) :=
  Triple.bind_pure (preserves_create type bits.ofRandom)

theorem preserves_setValue (object field : Id) (raw : Bytes) :
    Preserves c base (setValue object field raw) := by
  apply Preserves.of_records
  intro g hg
  have hrefused : ∀ s, s.Shows c base g → ∀ e, Refused c base e s := fun s hs e => .inr ⟨g, hs, hg⟩
  apply requireWritable_bind fun s hs _ => hrefused s hs _
  apply ask_bind fun s e hs _ => hrefused s hs e
  intro type
  apply ask_bind fun s e hs _ => hrefused s hs.1 e
  intro d
  apply Triple.bind (Q := fun _ s => (s.Shows c base g ∧ g.HasType object type) ∧
    (c.schema.HasField type field d ∧ d.type.IsScalar) ∧ d.checkValue raw = .ok ⟨⟩)
  · apply Triple.ofExcept
    · rintro s ⟨⟩ ⟨⟨hs, htype⟩, hd⟩ hcheck
      exact ⟨⟨hs, hs.typeOf_eq_ok htype⟩, hs.scalarField_eq_ok hd, hcheck⟩
    · exact fun s e hs _ => hrefused s hs.1.1 e
  intro _
  split
  · apply Triple.mono (Q := fun _ s => ∃ g', s.Shows c base g' ∧
      Erases (fun k => k.bytes = (Key.field object field).bytes) g g') (erase_triple _)
    · exact fun s hs => hs.1.1
    · rintro _ s ⟨g', hs, herases⟩
      refine ⟨g', hs, hg.erase herases (fun a h => ?_) fun e => ?_⟩
      · exact absurd (Key.bytes_injective h) (by simp)
      · simp only [Key.bytes_inj, reduceCtorEq]
    · exact fun e s he => .inl he
  next hne =>
    rintro s ⟨⟨hs, htype⟩, ⟨hd, hscalar⟩, hcheck⟩
    obtain ⟨x, hx, hxd⟩ := FieldDef.checkValue_eq_ok (by simpa using hne) hcheck
    refine (put_triple (.field object field) raw).mono (fun _ h => h) (fun _ t ht => ?_)
      (fun e t he => .inl he) s hs
    exact ⟨_, ht, hg.setValue htype hd hscalar (by simpa using hne) hx hxd⟩

theorem owned_iff_touches {s : Session} (hs : s.Shows c base g) (hg : Integrity c.schema g) {a : Id}
    {k : Key} (hk : (g k).isSome) :
    (k.bytes ∈ (s.workspace.extending a.bytes).map Prod.fst ∨
      k.bytes ∈ ((s.workspace.extending a.bytes).map Prod.fst).filterMap Key.mirror?) ↔
        Integrity.Touches a k := by
  have howned : ∀ j : Key, j.owner = a → Integrity.Touches a j := by
    intro j hj
    cases j with
    | object b => exact hj
    | field b f => exact hj
    | association h => exact .inl hj
  constructor
  · rintro (hmem | hmem)
    · obtain ⟨j, hj, howner, -⟩ := hs.mem_owned.mp hmem
      rw [Key.bytes_injective hj]
      exact howned j howner
    · obtain ⟨bs, hbs, hmirror⟩ := List.mem_filterMap.mp hmem
      obtain ⟨j, rfl, howner, -⟩ := hs.mem_owned.mp hbs
      rw [Key.mirror?_bytes] at hmirror
      cases j with
      | object b => contradiction
      | field b f => contradiction
      | association h =>
        rw [← Key.bytes_injective (Option.some.inj hmirror)]
        exact .inr howner
  · intro htouches
    by_cases howner : k.owner = a
    · exact .inl (hs.mem_owned.mpr ⟨k, rfl, howner, hk⟩)
    · cases k with
      | object b => exact absurd htouches howner
      | field b f => exact absurd htouches howner
      | association h =>
        have hmirror : h.mirror.object = a := htouches.resolve_left howner
        rw [hg.mirrored] at hk
        refine .inr (List.mem_filterMap.mpr ⟨(Key.association h.mirror).bytes, ?_, ?_⟩)
        · exact hs.mem_owned.mpr ⟨_, rfl, hmirror, hk⟩
        · exact Key.mirror?_bytes (.association h.mirror)

theorem eraseOwned_triple {s : Session} (hs : s.Shows c base g) (hg : Integrity c.schema g) (a : Id) :
    let owned := (s.workspace.extending a.bytes).map Prod.fst
    Triple (Session.Shows c base g)
      (do owned.forM erase; (owned.filterMap Key.mirror?).forM erase; return true)
      (fun found t => found = true ∧ ∃ g', t.Shows c base g' ∧ Erases (Integrity.Touches a) g g')
      (fun e _ => e.IsExhaustion) := by
  apply Triple.bind (forM_erase_triple _)
  rintro _ t ⟨g', ht, howned⟩
  refine Triple.bind (forM_erase_triple _) (fun _ => Triple.pure ?_) t ht
  rintro t ⟨g'', ht, hmirrors⟩
  exact ⟨rfl, g'', ht, (howned.trans hmirrors).congr fun k hk => owned_iff_touches hs hg hk⟩

theorem preserves_delete (object : Id) : Preserves c base (delete object) := by
  apply Preserves.of_records
  intro g hg
  apply requireWritable_bind fun s hs _ => .inr ⟨g, hs, hg⟩
  apply Triple.get_bind
  intro s hs
  split
  · apply (eraseOwned_triple hs hg object).mono
    · rintro t rfl
      exact hs
    · exact fun _ t ⟨_, g', ht, herases⟩ => ⟨g', ht, hg.delete herases⟩
    · exact fun e t he => .inl he
  · exact Triple.pure fun t ht => ht ▸ ⟨g, hs, hg⟩

theorem ofEdge_mirror {e h : Half} :
    OfEdge e (.association h) ↔ OfEdge e (.association h.mirror) := by
  simp only [OfEdge, Key.association.injEq]
  constructor
  · rintro (rfl | rfl)
    · exact .inr rfl
    · exact .inl rfl
  · rintro (hm | hm)
    · exact .inr (congrArg Half.mirror hm)
    · exact .inl (Half.mirror_injective hm)

theorem preserves_unlink (e : Half) : Preserves c base (unlink e) := by
  apply Preserves.of_records
  intro g hg
  apply requireWritable_bind fun s hs _ => .inr ⟨g, hs, hg⟩
  apply Triple.get_bind
  intro s hs
  split
  · apply Triple.bind_pure
    apply (eraseEdge_triple e g).mono
    · rintro t rfl
      exact hs
    · rintro _ t ⟨g', ht, herases⟩
      refine ⟨g', ht, hg.erase herases (fun a ha => ?_) fun h => ofEdge_mirror⟩
      rcases ha with ha | ha <;> contradiction
    · exact fun e t he => .inl he
  · exact Triple.pure fun t ht => ht ▸ ⟨g, hs, hg⟩

theorem erase_ofField (hg : Integrity c.schema g) {g' : Records} {a f : Id}
    (h : Erases (OfField a f) g g') : Integrity c.schema g' :=
  hg.erase h (fun _ ha => ha) fun _ => Or.comm

theorem preserves_unlinkAll (object field : Id) : Preserves c base (unlinkAll object field) := by
  apply Preserves.of_records
  intro g hg
  apply (unlinkAll_triple hg object field).mono
  · exact fun s hs => hs
  · exact fun _ s ⟨g', hs, herases⟩ => ⟨g', hs, erase_ofField hg herases⟩
  · exact fun e s he => he

theorem clearEnd_triple (hg : Integrity c.schema g) (a f : Id) (p : Pairing) (rest : Editing Unit)
    {Q : Unit → Session → Prop}
    (hrest : ∀ g', Integrity c.schema g' → (∀ b, g' (.object b) = g (.object b)) →
      (∀ h, g (.association h) = none → g' (.association h) = none) →
      (p.multi = false → ∀ h : Half, h.object = a → h.field = f → g' (.association h) = none) →
      Triple (Session.Shows c base g') rest Q (Refused c base)) :
    Triple (Session.Shows c base g)
      (if p.multi = true then rest else do discard (unlinkAll a f); rest) Q (Refused c base) := by
  split
  next hmulti =>
    exact hrest g hg (fun _ => rfl) (fun _ h => h) fun h => absurd hmulti (by simp [h])
  next hmulti =>
    apply Triple.bind (Triple.discard (unlinkAll_triple hg a f))
    rintro _ s ⟨_, g', hs, herases⟩
    refine hrest g' (erase_ofField hg herases) (fun b => herases.eq_of _ id) (fun h hh => ?_)
      (fun _ h hobject hfield => herases.none_of _ (.inl ⟨hobject, hfield⟩)) s hs
    cases hg' : g' (.association h) with
    | none => rfl
    | some v => rw [(herases.of_eq_some hg').2] at hh; contradiction

theorem preserves_link (e : Half) : Preserves c base (link e) := by
  apply Preserves.of_records
  intro g hg
  have hrefused : ∀ s, s.Shows c base g → ∀ e, Refused c base e s := fun s hs e => .inr ⟨g, hs, hg⟩
  have hend : ∀ (s : Session) (a f : Id) (p : Pairing), s.Shows c base g →
      (do s.pairing (← s.typeOf a) f) = .ok p → g.HasEnd c.schema a f p := by
    intro s a f p hs hp
    obtain ⟨type, htype, hp⟩ := Stateful.bind_eq_ok.mp hp
    obtain ⟨d, hd, hpairing⟩ := hs.pairing_eq_ok hp
    exact ⟨type, d, hs.typeOf_eq_ok htype, hd, hpairing⟩
  apply requireWritable_bind fun s hs _ => hrefused s hs _
  apply ask_bind fun s e hs _ => hrefused s hs e
  intro near
  apply ask_bind fun s e hs _ => hrefused s hs.1 e
  intro far
  dsimp only
  split
  · exact Triple.throw_bind fun s hs => hrefused s hs.1.1 _
  next hpaired =>
    obtain ⟨hother, hfield⟩ := not_or.mp hpaired
    apply Triple.get_bind
    rintro s ⟨⟨hs, hnear⟩, hfar⟩
    have hnear := hend s _ _ _ hs hnear
    have hfar := hend s _ _ _ hs hfar
    split
    · exact Triple.pure fun t ht => ht ▸ ⟨g, hs, hg⟩
    · suffices hclear : Triple (Session.Shows c base g) _ (fun _ => Sound c base) (Refused c base) by
        rintro t rfl
        exact hclear t hs
      apply clearEnd_triple hg e.object e.field near
      intro g₁ hg₁ hobject₁ hnone₁ hclear₁
      apply clearEnd_triple hg₁ e.other e.otherField far
      intro g₂ hg₂ hobject₂ hnone₂ hclear₂
      have hlinked := hg₂.link (e := e)
        ((Records.HasEnd.congr (hobject₂ _)).mpr ((Records.HasEnd.congr (hobject₁ _)).mpr hnear))
        ((Records.HasEnd.congr (hobject₂ _)).mpr ((Records.HasEnd.congr (hobject₁ _)).mpr hfar))
        (not_not.mp hother) (not_not.mp hfield)
        (fun hmulti h hobject hfield => hnone₂ h (hclear₁ hmulti h hobject hfield)) hclear₂
      apply Triple.bind ((put_triple (.association e) []).mono (fun _ ht => ht) (fun _ _ ht => ht)
        fun e t he => .inl he)
      intro _
      exact (put_triple (.association e.mirror) []).mono (fun _ ht => ht) (fun _ t ht => ⟨_, ht, hlinked⟩)
        fun e t he => .inl he

theorem Preserves.discard {m : Editing α} (h : Preserves c base m) :
    Preserves c base (discard m) :=
  (Triple.discard h).mono (fun _ hs => hs) (fun _ _ ⟨_, hs⟩ => hs) fun _ _ he => he

theorem preserves_rollback (hkeyed : Keyed base.entries)
    (hbase : Integrity c.schema (recorded base.entries)) :
    Preserves c base (modify Session.rollback) := by
  rintro s ⟨g, hs, -⟩
  exact ⟨_, hs.rollback hkeyed, hbase⟩

theorem preserves_perform (hkeyed : Keyed base.entries)
    (hbase : Integrity c.schema (recorded base.entries)) (edit : Edit) :
    Preserves c base edit.perform := by
  cases edit with
  | create type object => exact preserves_create type object
  | createRandom type bits => exact (preserves_createRandom type bits).discard
  | delete object => exact (preserves_delete object).discard
  | setValue object field raw => exact preserves_setValue object field raw
  | link edge => exact preserves_link edge
  | unlink edge => exact (preserves_unlink edge).discard
  | unlinkAll object field => exact (preserves_unlinkAll object field).discard
  | rollback => exact preserves_rollback hkeyed hbase

end Editing

namespace Schema

variable {c : Catalog} {base : Table}

theorem composable_preserves : Composable fun _ m => Editing.Preserves c base m where
  pure := Editing.Preserves.pure
  bind := Editing.Preserves.bind
  discard := Editing.Preserves.discard
  ask _ := Stateful.Triple.get_bind fun _ hs =>
    Stateful.Triple.ofExcept (fun _ _ ht _ => ht ▸ hs) fun _ _ ht _ => .inr (ht ▸ hs)
  create := Editing.preserves_create
  delete := Editing.preserves_delete
  setValue := Editing.preserves_setValue

theorem preserves_store (s : Schema) : Editing.Preserves c base s.store := composable_preserves.store s

end Schema

end ObjectGraph
