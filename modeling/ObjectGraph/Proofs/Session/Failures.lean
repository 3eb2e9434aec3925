import Mathlib.Data.List.TakeWhile
import ObjectGraph.Proofs.Session.Editing
/-!
What a failed edit leaves behind. An edit that writes once leaves nothing. One that writes several times
may run out of room between two writes; then the first of them stay staged, among the records which the
edit is about, until the session rolls back.
-/

namespace ObjectGraph

open Stateful (Triple)

namespace Overlay

variable {o o' : Overlay} {k v : Bytes}

theorem reset_of_put (h : o.put k v = .ok o') : o'.reset = o.reset := by
  obtain ⟨quota, hquota, h⟩ := Stateful.bind_eq_ok.mp h
  cases h
  rw [Quota.take] at hquota
  split at hquota
  · cases hquota
    rfl
  · contradiction

theorem reset_remove (o : Overlay) (k : Bytes) : (o.remove k).2.reset = o.reset := by
  rw [remove]
  split <;> rfl

end Overlay

namespace Session

structure Confined (P : Key → Prop) (s t : Session) : Prop where
  valid : t.workspace.Valid KeyOrder.lexicographic
  get?_eq : ∀ k, ¬ P k → t.get? k = s.get? k
  rollback_eq : t.rollback = s.rollback

namespace Confined

variable {P : Key → Prop} {s t : Session} {w : Workspace} {a : Id}

theorem refl (h : s.workspace.Valid KeyOrder.lexicographic) : Confined P s s := ⟨h, fun _ _ => rfl, rfl⟩

theorem catalog_eq (h : Confined P s t) : t.catalog = s.catalog :=
  show t.rollback.catalog = s.rollback.catalog by rw [h.rollback_eq]

theorem writable_eq (h : Confined P s t) : t.writable = s.writable :=
  show t.rollback.writable = s.rollback.writable by rw [h.rollback_eq]

theorem put (h : Confined P s t) {k : Key} {v : Bytes} (hk : P k)
    (hput : t.workspace.put k.bytes v = .ok w) : Confined P s { t with workspace := w } := by
  obtain ⟨hvalid, -, hview⟩ := h.valid.put hput
  refine ⟨hvalid, fun j hj => ?_, ?_⟩
  · have hjk : KeyOrder.lexicographic j.bytes k.bytes ≠ .eq := by
      rw [ne_eq, KeyOrder.lexicographic_eq_iff, Key.bytes_inj]
      rintro rfl
      exact hj hk
    rw [← h.get?_eq j hj, Session.get?, Session.get?, hvalid.get?_eq, h.valid.get?_eq, hview,
      Dictionary.get?, Dictionary.find?_insert h.valid.ascending_view, if_neg hjk, Dictionary.get?]
  · obtain ⟨o, ho, rfl⟩ := Workspace.put_eq_ok hput
    have hreset := Overlay.reset_of_put ho
    rw [← h.rollback_eq]
    simp only [rollback, Workspace.reset, hreset]

theorem erase (h : Confined P s t) {bs : Bytes} (hbs : ∀ k : Key, k.bytes = bs → P k)
    (hdelete : t.workspace.delete bs = .ok w) : Confined P s { t with workspace := w } := by
  obtain ⟨hvalid, -, hview⟩ := h.valid.delete hdelete
  refine ⟨hvalid, fun j hj => ?_, ?_⟩
  · have hjk : KeyOrder.lexicographic j.bytes bs ≠ .eq := by
      rw [ne_eq, KeyOrder.lexicographic_eq_iff]
      exact fun hkey => hj (hbs j hkey)
    rw [← h.get?_eq j hj, Session.get?, Session.get?, hvalid.get?_eq, h.valid.get?_eq, hview,
      Dictionary.get?, Dictionary.find?_erase h.valid.ascending_view, if_neg hjk, Dictionary.get?]
  · rw [← h.rollback_eq]
    rcases Workspace.delete_eq_ok hdelete with ⟨-, o, ho, rfl⟩ | ⟨-, rfl⟩
    · have hreset := Overlay.reset_of_put ho
      simp only [rollback, Workspace.reset, hreset]
    · have hreset := Overlay.reset_remove t.workspace.overlay bs
      simp only [rollback, Workspace.reset, hreset]

theorem type?_eq (h : Confined P s t) (ha : ¬ P (.object a)) : t.type? a = s.type? a := by
  rw [type?, type?, h.get?_eq _ ha]

theorem links_eq_ok (h : Confined P s t) (ha : ¬ P (.object a)) {f type : Id} {p : Pairing}
    (htype : s.type? a = .ok (some type)) (hp : s.pairing type f = .ok p) :
    t.links a f = .ok (t.halves a f) := by
  have hp' : t.pairing type f = .ok p := by
    rw [← hp, pairing, pairing, h.catalog_eq]
  rw [links, h.type?_eq ha, htype]
  change (t.pairing type f >>= fun _ => .ok (t.halves a f)) = _
  rw [hp']
  rfl

end Confined

theorem type?_eq_of_typeOf {s : Session} {a type : Id} (h : s.typeOf a = .ok type) :
    s.type? a = .ok (some type) := by
  obtain ⟨found, hfound, h⟩ := Stateful.bind_eq_ok.mp h
  cases found with
  | none => contradiction
  | some t =>
    cases h
    exact hfound

theorem of_mem_halves {s : Session} {a f : Id} {h : Half} (hh : h ∈ s.halves a f) :
    h.object = a ∧ h.field = f := by
  obtain ⟨e, he, hread⟩ := List.mem_filterMap.mp hh
  have hprefix := List.mem_takeWhile_imp he
  split at hread
  next h' hkey =>
    cases hread
    rw [Key.bytes_eq_of_ofBytes? hkey, Key.isPrefixOf_field] at hprefix
    rcases hprefix with hprefix | ⟨h', hh', hobject, hfield⟩
    · contradiction
    · cases hh'
      exact ⟨hobject, hfield⟩
  · contradiction

theorem of_mem_links {s : Session} {a f : Id} {links : List Half} (h : s.links a f = .ok links)
    {x : Half} (hx : x ∈ links) : x.object = a ∧ x.field = f := by
  obtain ⟨type, -, h⟩ := Stateful.bind_eq_ok.mp h
  cases type with
  | none =>
    cases h
    contradiction
  | some type =>
    obtain ⟨p, -, h⟩ := Stateful.bind_eq_ok.mp h
    cases h
    exact of_mem_halves hx

theorem touches_of_mem_owned {s : Session} {a : Id} {bs : Bytes}
    (hbs : bs ∈ (s.workspace.extending a.bytes).map Prod.fst) {k : Key}
    (hk : k.bytes = bs ∨ Key.mirror? bs = some k.bytes) : Integrity.Touches a k := by
  obtain ⟨e, he, rfl⟩ := List.mem_map.mp hbs
  have hprefix := List.mem_takeWhile_imp he
  rcases hk with hk | hk
  · rw [← hk, Key.isPrefixOf_owner] at hprefix
    cases k with
    | object b => exact hprefix
    | field b f => exact hprefix
    | association h => exact .inl hprefix
  · rw [Key.mirror?] at hk
    split at hk
    next h hkey =>
      rw [Key.bytes_eq_of_ofBytes? hkey, Key.isPrefixOf_owner] at hprefix
      have hmirror : k = .association h.mirror := Key.bytes_injective (Option.some.inj hk).symm
      rw [hmirror]
      exact .inr hprefix
    · contradiction

end Session

namespace Editing

open Session (Confined)

variable {P : Key → Prop} {s : Session}

def Exhausts (P : Key → Prop) (s : Session) (e : Error) (t : Session) : Prop :=
  e.IsExhaustion ∧ Confined P s t

def Leaves (P : Key → Prop) (s : Session) (e : Error) (t : Session) : Prop := t = s ∨ Exhausts P s e t

theorem put_confined {k : Key} (v : Bytes) (hk : P k) :
    Triple (Confined P s) (put k v) (fun _ => Confined P s) (Exhausts P s) := by
  apply Triple.get_bind
  intro t ht
  apply Triple.ofExcept_bind
  · rintro w hw _ rfl
    exact ht.put hk hw
  · rintro _ e rfl he
    exact ⟨Workspace.put_error he, ht⟩

theorem erase_confined {bs : Bytes} (hbs : ∀ k : Key, k.bytes = bs → P k) :
    Triple (Confined P s) (erase bs) (fun _ => Confined P s) (Exhausts P s) := by
  apply Triple.get_bind
  intro t ht
  apply Triple.ofExcept_bind
  · rintro w hw _ rfl
    exact ht.erase hbs hw
  · rintro _ e rfl he
    exact ⟨Workspace.delete_error he, ht⟩

theorem forM_confined {γ : Type} {f : γ → Editing PUnit} {xs : List γ}
    (h : ∀ x ∈ xs, Triple (Confined P s) (f x) (fun _ => Confined P s) (Exhausts P s)) :
    Triple (Confined P s) (xs.forM f) (fun _ => Confined P s) (Exhausts P s) := by
  induction xs with
  | nil => exact Triple.pure fun _ ht => ht
  | cons x xs ih =>
    have hrest := ih fun y hy => h y (List.mem_cons_of_mem x hy)
    exact (h x List.mem_cons_self).bind fun _ => hrest

theorem eraseEdge_confined {h : Half} (hP : ∀ k, OfEdge h k → P k) :
    Triple (Confined P s) (eraseEdge h) (fun _ => Confined P s) (Exhausts P s) := by
  have hhalf : ∀ k : Key, k.bytes = h.bytes → P k :=
    fun k hk => hP k (.inl (@Key.bytes_injective k (.association h) hk))
  have hmirror : ∀ k : Key, k.bytes = h.mirror.bytes → P k :=
    fun k hk => hP k (.inr (@Key.bytes_injective k (.association h.mirror) hk))
  exact (erase_confined hhalf).bind fun _ => erase_confined hmirror

theorem forM_eraseEdge_confined {a f : Id} {links : List Half} (hP : ∀ k, OfField a f k → P k)
    (hlinks : ∀ h ∈ links, h.object = a ∧ h.field = f) :
    Triple (Confined P s) (links.forM eraseEdge) (fun _ => Confined P s) (Exhausts P s) := by
  apply forM_confined
  intro h hh
  apply eraseEdge_confined
  rintro _ (rfl | rfl)
  · exact hP _ (.inl (hlinks h hh))
  · exact hP _ (.inr (hlinks h hh))

theorem unlinkAll_confined {a f type : Id} {p : Pairing} (hwritable : s.writable = true)
    (htype : s.type? a = .ok (some type)) (hp : s.pairing type f = .ok p) (ha : ¬ P (.object a))
    (hP : ∀ k, OfField a f k → P k) :
    Triple (Confined P s) (unlinkAll a f) (fun _ => Confined P s) (Exhausts P s) := by
  apply Triple.bind (Q := fun _ => Confined P s)
  · apply Triple.get_bind
    intro t ht
    rw [if_pos (ht.writable_eq.trans hwritable)]
    exact Triple.pure fun _ hu => hu ▸ ht
  intro _
  apply ask_bind
  · intro t e ht he
    rw [ht.links_eq_ok ha htype hp] at he
    contradiction
  rintro links t ⟨ht, hlinks⟩
  have hloop : Triple (Confined P s) (links.forM eraseEdge) (fun _ => Confined P s) (Exhausts P s) :=
    forM_eraseEdge_confined hP fun h hh => Session.of_mem_links hlinks hh
  exact hloop.bind_pure t ht

theorem create_leaves (type object : Id) :
    Triple (· = s) (create type object) (fun _ _ => True) (fun _ t => t = s) := by
  apply requireWritable_bind (E := fun _ t => t = s) fun _ ht _ => ht
  apply Triple.get_bind
  rintro t rfl
  dsimp only
  split
  · exact Triple.throw_bind fun _ ht => ht
  · split
    · exact Triple.throw_bind fun _ ht => ht
    · split
      · exact Triple.throw_bind fun _ ht => ht
      · apply Triple.get_bind
        rintro t rfl
        exact Triple.ofExcept_bind (fun _ _ => fun _ _ => trivial) fun _ _ ht _ => ht

theorem setValue_leaves (object field : Id) (raw : Bytes) :
    Triple (· = s) (setValue object field raw) (fun _ _ => True) (fun _ t => t = s) := by
  apply requireWritable_bind (E := fun _ t => t = s) fun _ ht _ => ht
  apply ask_bind fun _ _ hs _ => hs
  intro type
  apply ask_bind fun _ _ hs _ => hs.1
  intro d
  apply Triple.mono (P := (· = s)) _ (fun _ ht => ht.1.1) (fun _ _ ht => ht) fun _ _ ht => ht
  apply Triple.ofExcept_bind ?_ fun _ _ ht _ => ht
  intro _ _
  split
  · apply Triple.get_bind
    rintro t rfl
    exact Triple.ofExcept_bind (fun _ _ => fun _ _ => trivial) fun _ _ ht _ => ht
  · apply Triple.get_bind
    rintro t rfl
    exact Triple.ofExcept_bind (fun _ _ => fun _ _ => trivial) fun _ _ ht _ => ht

variable (hs : s.workspace.Valid KeyOrder.lexicographic)

include hs

theorem Leaves.of_confined {α : Type} {m : Editing α}
    (h : Triple (Confined P s) m (fun _ => Confined P s) (Exhausts P s)) :
    Triple (· = s) m (fun _ _ => True) (Leaves P s) := by
  apply h.mono _ (fun _ _ _ => trivial) fun _ _ ht => .inr ht
  rintro t rfl
  exact Confined.refl hs

theorem delete_leaves (object : Id) :
    Triple (· = s) (delete object) (fun _ _ => True) (Leaves (Integrity.Touches object) s) := by
  apply requireWritable_bind fun _ ht _ => .inl ht
  apply Triple.get_bind
  rintro t rfl
  split
  · apply Leaves.of_confined hs
    have howned : ∀ bs ∈ (t.workspace.extending object.bytes).map Prod.fst, ∀ k : Key, k.bytes = bs →
        Integrity.Touches object k := fun bs hbs k hk => Session.touches_of_mem_owned hbs (.inl hk)
    have hmirrors : ∀ bs ∈ ((t.workspace.extending object.bytes).map Prod.fst).filterMap Key.mirror?,
        ∀ k : Key, k.bytes = bs → Integrity.Touches object k := by
      rintro bs hbs k rfl
      obtain ⟨bs', hbs', hmirror⟩ := List.mem_filterMap.mp hbs
      exact Session.touches_of_mem_owned hbs' (.inr hmirror)
    exact (forM_confined fun bs hbs => erase_confined (howned bs hbs)).bind fun _ =>
      (forM_confined fun bs hbs => erase_confined (hmirrors bs hbs)).bind_pure
  · exact Triple.pure fun _ _ => trivial

theorem unlink_leaves (h : Half) :
    Triple (· = s) (unlink h) (fun _ _ => True) (Leaves (OfEdge h) s) := by
  apply requireWritable_bind fun _ ht _ => .inl ht
  apply Triple.get_bind
  rintro t rfl
  split
  · apply Leaves.of_confined hs
    exact (eraseEdge_confined fun _ hk => hk).bind_pure
  · exact Triple.pure fun _ _ => trivial

theorem unlinkAll_leaves (object field : Id) :
    Triple (· = s) (unlinkAll object field) (fun _ _ => True) (Leaves (OfField object field) s) := by
  apply requireWritable_bind fun _ ht _ => .inl ht
  apply ask_bind fun _ _ ht _ => .inl ht
  rintro links t ⟨rfl, hlinks⟩
  have hloop : Triple (Confined (OfField object field) t) (links.forM eraseEdge)
      (fun _ => Confined (OfField object field) t) (Exhausts (OfField object field) t) :=
    forM_eraseEdge_confined (fun _ hk => hk) fun h hh => Session.of_mem_links hlinks hh
  exact Leaves.of_confined hs hloop.bind_pure t rfl

def OfEnds (h : Half) (k : Key) : Prop := OfField h.object h.field k ∨ OfField h.other h.otherField k

theorem link_leaves (h : Half) :
    Triple (· = s) (link h) (fun _ _ => True) (Leaves (OfEnds h) s) := by
  apply Triple.bind (Q := fun _ t => t = s ∧ t.writable = true)
  · apply Triple.get_bind
    rintro t rfl
    split
    next hwritable => exact Triple.pure fun u hu => ⟨hu, hu ▸ hwritable⟩
    · exact Triple.throw fun _ ht => .inl ht
  intro _
  apply ask_bind fun _ _ ht _ => .inl ht.1
  intro near
  apply ask_bind fun _ _ ht _ => .inl ht.1.1
  intro far
  dsimp only
  split
  · exact Triple.throw_bind fun _ ht => .inl ht.1.1.1
  apply Triple.get_bind
  rintro t ⟨⟨⟨rfl, hwritable⟩, hnear⟩, hfar⟩
  split
  · exact Triple.pure fun _ _ => trivial
  apply Leaves.of_confined hs
  have hclear : ∀ (a f : Id) (p : Pairing) (rest : Editing Unit),
      (do t.pairing (← t.typeOf a) f) = .ok p → (∀ k, OfField a f k → OfEnds h k) →
      Triple (Confined (OfEnds h) t) rest (fun _ => Confined (OfEnds h) t) (Exhausts (OfEnds h) t) →
      Triple (Confined (OfEnds h) t) (if p.multi = true then rest else do discard (unlinkAll a f); rest)
        (fun _ => Confined (OfEnds h) t) (Exhausts (OfEnds h) t) := by
    intro a f p rest hp hof hrest
    split
    · exact hrest
    · obtain ⟨type, htype, hp⟩ := Stateful.bind_eq_ok.mp hp
      have hobject : ¬ OfEnds h (.object a) := by rintro (hk | hk) <;> exact hk
      have hunlink := unlinkAll_confined hwritable (Session.type?_eq_of_typeOf htype) hp hobject hof
      exact (hunlink.discard.mono (fun _ hu => hu) (fun _ _ ⟨_, hu⟩ => hu) fun _ _ hu => hu).bind
        fun _ => hrest
  have hputs : Triple (Confined (OfEnds h) t)
      (do put (.association h) []; put (.association h.mirror) [])
      (fun _ => Confined (OfEnds h) t) (Exhausts (OfEnds h) t) :=
    (put_confined (k := .association h) [] (.inl (.inl ⟨rfl, rfl⟩))).bind fun _ =>
      put_confined (k := .association h.mirror) [] (.inl (.inr ⟨rfl, rfl⟩))
  exact hclear _ _ near _ hnear (fun _ hk => .inl hk)
    (hclear _ _ far _ hfar (fun _ hk => .inr hk) hputs)

end Editing

end ObjectGraph
