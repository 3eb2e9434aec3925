import Mathlib.Logic.Function.Basic
import ObjectGraph.Proofs.Key
import ObjectGraph.Proofs.Schema.Inheritance
import ObjectGraph.Value

namespace ObjectGraph

open Function (update)

def Half.Joins (e h : Half) : Prop := h = e ∨ h = e.mirror

theorem Half.Joins.mirror {e h : Half} (hh : e.Joins h) : e.Joins h.mirror := by
  rcases hh with rfl | rfl
  · exact .inr rfl
  · exact .inl rfl

theorem Half.Joins.eq_of_same {e h h' : Half} (hh : e.Joins h) (hh' : e.Joins h')
    (hobject : h.object = h'.object) (hfield : h.field = h'.field) : h = h' := by
  rcases hh with rfl | rfl <;> rcases hh' with rfl | rfl
  · rfl
  · simp only [Half.mirror] at hobject hfield
    cases h
    simp_all [Half.mirror]
  · simp only [Half.mirror] at hobject hfield
    cases h'
    simp_all [Half.mirror]
  · rfl

abbrev Records := Key → Option Bytes

def Records.HasType (g : Records) (object type : Id) : Prop :=
  g (.object object) = some type.bytes ∧ type ≠ Id.nil

def Records.HasEnd (schema : Schema) (g : Records) (object field : Id) (p : Pairing) : Prop :=
  ∃ type d, g.HasType object type ∧ schema.HasField type field d ∧ d.pairing = some p

structure Integrity (schema : Schema) (g : Records) : Prop where
  object : ∀ a v, g (.object a) = some v → ∃ type : Id, v = type.bytes ∧ (schema.type? type).isSome
  value : ∀ a f v, g (.field a f) = some v → v ≠ [] ∧ ∃ type d x, g.HasType a type ∧
    schema.HasField type f d ∧ d.type.IsScalar ∧ Value.decode v = .ok (some x) ∧ x.type = d.type
  half : ∀ h v, g (.association h) = some v → v = [] ∧ ∃ p q,
    g.HasEnd schema h.object h.field p ∧ g.HasEnd schema h.other h.otherField q ∧
      p.other = h.otherField ∧ q.other = h.field
  mirrored : ∀ h, g (.association h) = g (.association h.mirror)
  single : ∀ h h' p, (g (.association h)).isSome → (g (.association h')).isSome →
    h.object = h'.object → h.field = h'.field → g.HasEnd schema h.object h.field p →
      p.multi = false → h = h'

namespace Records

variable {schema : Schema} {g g' : Records}

theorem HasType.congr {a t : Id} (hg : g' (.object a) = g (.object a)) :
    g'.HasType a t ↔ g.HasType a t := by rw [HasType, HasType, hg]

theorem HasEnd.congr {a f : Id} {p : Pairing} (hg : g' (.object a) = g (.object a)) :
    g'.HasEnd schema a f p ↔ g.HasEnd schema a f p := by
  simp only [HasEnd, HasType.congr hg]

theorem HasEnd.unique {a f : Id} {p q : Pairing} (hp : g.HasEnd schema a f p)
    (hq : g.HasEnd schema a f q) : p = q := by
  obtain ⟨t, d, ht, hd, hp⟩ := hp
  obtain ⟨t', d', ht', hd', hq⟩ := hq
  have hdd : d = d' := Option.some.inj (hd.defined.symm.trans hd'.defined)
  rw [hdd, hq] at hp
  exact (Option.some.inj hp).symm

structure Erases (gone : Key → Prop) (g g' : Records) : Prop where
  none_of : ∀ k, gone k → g' k = none
  eq_of : ∀ k, ¬ gone k → g' k = g k

theorem Erases.of_eq_some {gone : Key → Prop} (h : Erases gone g g') {k : Key} {v : Bytes}
    (hv : g' k = some v) : ¬ gone k ∧ g k = some v := by
  by_cases hk : gone k
  · rw [h.none_of k hk] at hv
    contradiction
  · exact ⟨hk, by rw [← h.eq_of k hk, hv]⟩

theorem Erases.refl (g : Records) : Erases (fun _ => False) g g := ⟨by simp, fun _ _ => rfl⟩

theorem Erases.trans {gone gone' : Key → Prop} {g'' : Records} (h : Erases gone g g')
    (h' : Erases gone' g' g'') : Erases (fun k => gone k ∨ gone' k) g g'' := by
  constructor
  · intro k hk
    by_cases hk' : gone' k
    · exact h'.none_of k hk'
    · rw [h'.eq_of k hk']
      exact h.none_of k (hk.resolve_right hk')
  · intro k hk
    obtain ⟨hk, hk'⟩ := not_or.mp hk
    rw [h'.eq_of k hk', h.eq_of k hk]

theorem Erases.unique {gone : Key → Prop} {g'' : Records} (h : Erases gone g g')
    (h' : Erases gone g g'') : g' = g'' := by
  funext k
  by_cases hk : gone k
  · rw [h.none_of k hk, h'.none_of k hk]
  · rw [h.eq_of k hk, h'.eq_of k hk]

theorem erases_update (g : Records) (k : Key) :
    Erases (fun j => j.bytes = k.bytes) g (update g k none) := by
  constructor
  · intro j hj
    rw [Key.bytes_injective hj, Function.update_self]
  · intro j hj
    exact Function.update_of_ne (fun hjk => hj (congrArg Key.bytes hjk)) _ _

theorem Erases.congr {gone gone' : Key → Prop} (h : Erases gone g g')
    (hiff : ∀ k, (g k).isSome → (gone k ↔ gone' k)) : Erases gone' g g' := by
  have hnone : ∀ k, g k = none → g' k = none := by
    intro k hk
    by_cases hgone : gone k
    · exact h.none_of k hgone
    · rw [h.eq_of k hgone, hk]
  constructor
  · intro k hk
    cases hg : g k with
    | none => exact hnone k hg
    | some v => exact h.none_of k ((hiff k (by rw [hg]; rfl)).mpr hk)
  · intro k hk
    cases hg : g k with
    | none => exact hnone k hg
    | some v => rw [h.eq_of k fun hgone => hk ((hiff k (by rw [hg]; rfl)).mp hgone), hg]

def linked (g : Records) (e : Half) : Records :=
  update (update g (.association e) (some [])) (.association e.mirror) (some [])

theorem linked_object (g : Records) (e : Half) (a : Id) : g.linked e (.object a) = g (.object a) := by
  rw [linked, Function.update_of_ne (by simp), Function.update_of_ne (by simp)]

theorem linked_field (g : Records) (e : Half) (a f : Id) :
    g.linked e (.field a f) = g (.field a f) := by
  rw [linked, Function.update_of_ne (by simp), Function.update_of_ne (by simp)]

theorem linked_of_joins {e h : Half} (hh : e.Joins h) : g.linked e (.association h) = some [] := by
  by_cases hm : h = e.mirror
  · rw [hm]
    exact Function.update_self _ _ _
  · rw [linked, Function.update_of_ne (by simpa using hm), hh.resolve_right hm, Function.update_self]

theorem linked_of_not_joins {e h : Half} (hh : ¬ e.Joins h) :
    g.linked e (.association h) = g (.association h) := by
  obtain ⟨he, hm⟩ := not_or.mp hh
  rw [linked, Function.update_of_ne (by simpa using hm), Function.update_of_ne (by simpa using he)]

end Records

namespace Integrity

variable {schema : Schema} {g g' : Records}

theorem empty : Integrity schema fun _ => none where
  object := by simp
  value := by simp
  half := by simp
  mirrored _ := rfl
  single := by simp

theorem exists_type_of_half (hg : Integrity schema g) {h : Half}
    (hh : (g (.association h)).isSome) : ∃ type, g.HasType h.object type := by
  obtain ⟨v, hv⟩ := Option.isSome_iff_exists.mp hh
  obtain ⟨-, p, q, ⟨t, -, ht, -⟩, -⟩ := hg.half h v hv
  exact ⟨t, ht⟩

theorem create (hg : Integrity schema g) {a type : Id} (hnew : g (.object a) = none)
    (htype : (schema.type? type).isSome) :
    Integrity schema (update g (.object a) (some type.bytes)) := by
  have hother : ∀ b v, g (.object b) = some v →
      update g (.object a) (some type.bytes) (.object b) = g (.object b) := by
    intro b v hb
    apply Function.update_of_ne
    rintro ⟨⟩
    rw [hnew] at hb
    contradiction
  have hend : ∀ b f p, g.HasEnd schema b f p →
      Records.HasEnd schema (update g (.object a) (some type.bytes)) b f p := by
    rintro b f p ⟨t, d, ht, hd⟩
    exact ⟨t, d, (Records.HasType.congr (hother b _ ht.1)).mpr ht, hd⟩
  constructor
  · intro b v hv
    by_cases hb : b = a
    · rw [hb, Function.update_self] at hv
      exact ⟨type, (Option.some.inj hv).symm, htype⟩
    · rw [Function.update_of_ne (by simpa using hb)] at hv
      exact hg.object b v hv
  · intro b f v hv
    rw [Function.update_of_ne (by simp)] at hv
    obtain ⟨hne, t, d, x, ht, hd⟩ := hg.value b f v hv
    exact ⟨hne, t, d, x, (Records.HasType.congr (hother b _ ht.1)).mpr ht, hd⟩
  · intro h v hv
    rw [Function.update_of_ne (by simp)] at hv
    obtain ⟨hempty, p, q, hp, hq, hpq⟩ := hg.half h v hv
    exact ⟨hempty, p, q, hend _ _ _ hp, hend _ _ _ hq, hpq⟩
  · intro h
    rw [Function.update_of_ne (by simp), Function.update_of_ne (by simp)]
    exact hg.mirrored h
  · intro h h' p hh hh' hobject hfield hp
    rw [Function.update_of_ne (by simp)] at hh hh'
    obtain ⟨v, hv⟩ := Option.isSome_iff_exists.mp hh
    obtain ⟨-, q, -, hq, -⟩ := hg.half h v hv
    have hpq := hp.unique (hend _ _ _ hq)
    exact hg.single h h' p hh hh' hobject hfield (hpq ▸ hq)

theorem setValue (hg : Integrity schema g) {a f type : Id} {d : FieldDef} {raw : Bytes} {x : Value}
    (ha : g.HasType a type) (hd : schema.HasField type f d) (hscalar : d.type.IsScalar)
    (hne : raw ≠ []) (hx : Value.decode raw = .ok (some x)) (htype : x.type = d.type) :
    Integrity schema (update g (.field a f) (some raw)) := by
  have hobject : ∀ b, update g (.field a f) (some raw) (.object b) = g (.object b) :=
    fun b => Function.update_of_ne (by simp) _ _
  have hassociation : ∀ h, update g (.field a f) (some raw) (.association h) = g (.association h) :=
    fun h => Function.update_of_ne (by simp) _ _
  constructor
  · intro b v hv
    rw [hobject] at hv
    exact hg.object b v hv
  · intro b f' v hv
    simp only [Records.HasType.congr (hobject _)]
    by_cases hb : Key.field b f' = .field a f
    · cases hb
      rw [Function.update_self] at hv
      cases hv
      exact ⟨hne, type, d, x, ha, hd, hscalar, hx, htype⟩
    · rw [Function.update_of_ne hb] at hv
      exact hg.value b f' v hv
  · intro h v hv
    rw [hassociation] at hv
    simpa only [Records.HasEnd.congr (hobject _)] using hg.half h v hv
  · intro h
    rw [hassociation, hassociation]
    exact hg.mirrored h
  · intro h h' p hh hh' hsame hfield hp
    rw [hassociation] at hh hh'
    exact hg.single h h' p hh hh' hsame hfield ((Records.HasEnd.congr (hobject _)).mp hp)

theorem erase (hg : Integrity schema g) {gone : Key → Prop} (h : Records.Erases gone g g')
    (hobject : ∀ a, ¬ gone (.object a))
    (hmirror : ∀ e, gone (.association e) ↔ gone (.association e.mirror)) :
    Integrity schema g' := by
  have hkept : ∀ a, g' (.object a) = g (.object a) := fun a => h.eq_of _ (hobject a)
  constructor
  · intro a v hv
    exact hg.object a v (h.of_eq_some hv).2
  · intro a f v hv
    simp only [Records.HasType.congr (hkept _)]
    exact hg.value a f v (h.of_eq_some hv).2
  · intro e v hv
    simpa only [Records.HasEnd.congr (hkept _)] using hg.half e v (h.of_eq_some hv).2
  · intro e
    by_cases he : gone (.association e)
    · rw [h.none_of _ he, h.none_of _ ((hmirror e).mp he)]
    · rw [h.eq_of _ he, h.eq_of _ fun hm => he ((hmirror e).mpr hm)]
      exact hg.mirrored e
  · intro e e' p he he' hsame hfield hp
    obtain ⟨v, hv⟩ := Option.isSome_iff_exists.mp he
    obtain ⟨v', hv'⟩ := Option.isSome_iff_exists.mp he'
    exact hg.single e e' p (by rw [(h.of_eq_some hv).2]; rfl) (by rw [(h.of_eq_some hv').2]; rfl)
      hsame hfield ((Records.HasEnd.congr (hkept _)).mp hp)

def Touches (a : Id) : Key → Prop
  | .object b => b = a
  | .field b _ => b = a
  | .association h => h.object = a ∨ h.other = a

theorem touches_mirror {a : Id} {h : Half} :
    Touches a (.association h.mirror) ↔ Touches a (.association h) := Or.comm

theorem delete (hg : Integrity schema g) {a : Id} (h : Records.Erases (Touches a) g g') :
    Integrity schema g' := by
  have hkept : ∀ b v, g' (.object b) = some v → b ≠ a := fun b v hv => (h.of_eq_some hv).1
  have hsame : ∀ b, b ≠ a → g' (.object b) = g (.object b) := fun b hb => h.eq_of _ hb
  constructor
  · intro b v hv
    exact hg.object b v (h.of_eq_some hv).2
  · intro b f v hv
    obtain ⟨hb, hv⟩ := h.of_eq_some hv
    simp only [Records.HasType.congr (hsame b hb)]
    exact hg.value b f v hv
  · intro e v hv
    obtain ⟨he, hv⟩ := h.of_eq_some hv
    obtain ⟨hobject, hother⟩ := not_or.mp he
    simpa only [Records.HasEnd.congr (hsame _ hobject), Records.HasEnd.congr (hsame _ hother)]
      using hg.half e v hv
  · intro e
    by_cases he : Touches a (.association e)
    · rw [h.none_of _ he, h.none_of _ (touches_mirror.mpr he)]
    · rw [h.eq_of _ he, h.eq_of _ fun hm => he (touches_mirror.mp hm)]
      exact hg.mirrored e
  · intro e e' p he he' hobject hfield hp
    obtain ⟨v, hv⟩ := Option.isSome_iff_exists.mp he
    obtain ⟨v', hv'⟩ := Option.isSome_iff_exists.mp he'
    obtain ⟨hgone, hv⟩ := h.of_eq_some hv
    have hend := (Records.HasEnd.congr (hsame _ (not_or.mp hgone).1)).mp hp
    exact hg.single e e' p (by rw [hv]; rfl) (by rw [(h.of_eq_some hv').2]; rfl) hobject hfield hend

theorem link (hg : Integrity schema g) {e : Half} {p q : Pairing}
    (hp : g.HasEnd schema e.object e.field p) (hq : g.HasEnd schema e.other e.otherField q)
    (hother : p.other = e.otherField) (hfield : q.other = e.field)
    (hnear : p.multi = false → ∀ h : Half, h.object = e.object → h.field = e.field →
      g (.association h) = none)
    (hfar : q.multi = false → ∀ h : Half, h.object = e.other → h.field = e.otherField →
      g (.association h) = none) :
    Integrity schema (g.linked e) := by
  -- The only half of a field that holds one edge only is the one just added.
  have hsingle : ∀ h h' r, e.Joins h → (g.linked e (.association h')).isSome →
      h.object = h'.object → h.field = h'.field → g.HasEnd schema h.object h.field r →
        r.multi = false → h = h' := by
    intro h h' r hh hh' hsame hfields hr hmulti
    have hnone : g (.association h') = none := by
      rcases hh with rfl | rfl
      · exact hnear (hr.unique hp ▸ hmulti) h' hsame.symm hfields.symm
      · exact hfar (hr.unique hq ▸ hmulti) h' hsame.symm hfields.symm
    by_cases hjoins : e.Joins h'
    · exact hh.eq_of_same hjoins hsame hfields
    · rw [Records.linked_of_not_joins hjoins, hnone] at hh'
      contradiction
  constructor
  · intro a v hv
    rw [Records.linked_object] at hv
    exact hg.object a v hv
  · intro a f v hv
    rw [Records.linked_field] at hv
    simp only [Records.HasType.congr (Records.linked_object g e _)]
    exact hg.value a f v hv
  · intro h v hv
    simp only [Records.HasEnd.congr (Records.linked_object g e _)]
    by_cases hh : e.Joins h
    · rw [Records.linked_of_joins hh] at hv
      refine ⟨(Option.some.inj hv).symm, ?_⟩
      rcases hh with rfl | rfl
      · exact ⟨p, q, hp, hq, hother, hfield⟩
      · exact ⟨q, p, hq, hp, hfield, hother⟩
    · rw [Records.linked_of_not_joins hh] at hv
      exact hg.half h v hv
  · intro h
    by_cases hh : e.Joins h
    · rw [Records.linked_of_joins hh, Records.linked_of_joins hh.mirror]
    · rw [Records.linked_of_not_joins hh, Records.linked_of_not_joins fun hm => hh hm.mirror]
      exact hg.mirrored h
  · intro h h' r hh hh' hsame hfields hr hmulti
    rw [Records.HasEnd.congr (Records.linked_object g e _)] at hr
    by_cases hn : e.Joins h
    · exact hsingle h h' r hn hh' hsame hfields hr hmulti
    · by_cases hn' : e.Joins h'
      · rw [hsame, hfields] at hr
        exact (hsingle h' h r hn' hh hsame.symm hfields.symm hr hmulti).symm
      · rw [Records.linked_of_not_joins hn] at hh
        rw [Records.linked_of_not_joins hn'] at hh'
        exact hg.single h h' r hh hh' hsame hfields hr hmulti

end Integrity

end ObjectGraph
