import Mathlib.Data.Finset.Card
import Mathlib.Data.Nat.Find
import ObjectGraph.Proofs.Schema.Construction
import ObjectGraph.Proofs.Schema.Inheritance
/-!
Walks up the parent links of a schema. They are counted against the number of types, which stops no walk
that has somewhere to go, for a chain without repetitions passes through each type once.
-/

namespace ObjectGraph.Schema

variable {s : Schema} {t p a r : Id} {k m n : Nat}

def HasParent (s : Schema) (t p : Id) : Prop := ∃ d, s.type? t = some d ∧ d.parent = some p

def IsRoot (s : Schema) (t : Id) : Prop := ∃ d, s.type? t = some d ∧ d.parent = none

def parent? (s : Schema) (t : Id) : Option Id := (s.type? t).bind TypeDef.parent

def climb (s : Schema) : Nat → Id → Option Id
  | 0, t => some t
  | n + 1, t => (s.parent? t).bind (s.climb n)

@[simp] theorem climb_zero : s.climb 0 t = some t := rfl

theorem parent?_eq_some_iff : s.parent? t = some p ↔ s.HasParent t p := Option.bind_eq_some_iff

theorem IsRoot.parent? (h : s.IsRoot r) : s.parent? r = none := by
  obtain ⟨d, hd, hparent⟩ := h
  rw [Schema.parent?, hd, Option.bind_some, hparent]

theorem HasParent.known (h : s.HasParent t p) : (s.type? t).isSome := by
  obtain ⟨d, hd, -⟩ := h
  rw [hd, Option.isSome_some]

theorem climb_succ_of_hasParent (h : s.HasParent t p) (n : Nat) : s.climb (n + 1) t = s.climb n p := by
  rw [climb, parent?_eq_some_iff.mpr h, Option.bind_some]

theorem climb_succ_eq_some_iff : s.climb (n + 1) t = some a ↔ ∃ p, s.HasParent t p ∧ s.climb n p = some a := by
  simp only [climb, Option.bind_eq_some_iff, parent?_eq_some_iff]

theorem climb_add (m n : Nat) (t : Id) : s.climb (m + n) t = (s.climb m t).bind (s.climb n) := by
  induction m generalizing t with
  | zero => rw [Nat.zero_add, climb_zero, Option.bind_some]
  | succ m ih =>
    rw [Nat.succ_add, climb, climb, Option.bind_assoc]
    exact Option.bind_congr fun p _ => ih p

theorem inherits_iff_climb : s.Inherits t a ↔ ∃ k, s.climb k t = some a := by
  constructor
  · intro h
    induction h with
    | refl t => exact ⟨0, rfl⟩
    | step hd hparent _ ih =>
      obtain ⟨k, hk⟩ := ih
      exact ⟨k + 1, climb_succ_eq_some_iff.mpr ⟨_, ⟨_, hd, hparent⟩, hk⟩⟩
  · rintro ⟨k, hk⟩
    induction k generalizing t with
    | zero => exact Option.some.inj hk ▸ .refl t
    | succ k ih =>
      obtain ⟨p, ⟨d, hd, hparent⟩, hp⟩ := climb_succ_eq_some_iff.mp hk
      exact .step hd hparent (ih hp)

theorem reaches_iff_climb : s.reaches a n t = true ↔ ∃ k ≤ n, s.climb k t = some a := by
  induction n generalizing t with
  | zero => simp [reaches]
  | succ n ih =>
    rw [reaches, Bool.or_eq_true, decide_eq_true_iff, Option.any_eq_true]
    constructor
    · rintro (rfl | ⟨p, hp, hreach⟩)
      · exact ⟨0, Nat.zero_le _, rfl⟩
      · obtain ⟨k, hk, hclimb⟩ := ih.mp hreach
        exact ⟨k + 1, Nat.succ_le_succ hk, climb_succ_eq_some_iff.mpr ⟨p, parent?_eq_some_iff.mp hp, hclimb⟩⟩
    · rintro ⟨k, hk, hclimb⟩
      cases k with
      | zero => exact .inl (Option.some.inj hclimb)
      | succ k =>
        obtain ⟨p, hp, hclimb⟩ := climb_succ_eq_some_iff.mp hclimb
        exact .inr ⟨p, parent?_eq_some_iff.mpr hp, ih.mpr ⟨k, Nat.le_of_succ_le_succ hk, hclimb⟩⟩

theorem exists_climb_eq (h : ∀ i < k, ∃ x, s.climb i t = some x ∧ (s.type? x).isSome)
    (hk : s.types.length < k) : ∃ i j, i < j ∧ j < k ∧ s.climb i t = s.climb j t := by
  have hmaps : ∀ i ∈ Finset.range k, s.climb i t ∈ (s.types.map fun e => some e.1).toFinset := by
    intro i hi
    obtain ⟨x, hx, hknown⟩ := h i (Finset.mem_range.mp hi)
    obtain ⟨d, hd⟩ := Option.isSome_iff_exists.mp hknown
    obtain ⟨e, he, -⟩ := Option.map_eq_some_iff.mp hd
    obtain ⟨hmem, hkey⟩ := Dictionary.mem_and_eq_of_find? he
    rw [hx, List.mem_toFinset, List.mem_map]
    exact ⟨e, hmem, congrArg some (Std.LawfulEqOrd.eq_of_compare hkey).symm⟩
  have hfew : (s.types.map fun e => some e.1).toFinset.card < (Finset.range k).card := by
    have hle := List.toFinset_card_le (s.types.map fun e => some e.1)
    rw [List.length_map] at hle
    rw [Finset.card_range]
    omega
  obtain ⟨i, hi, j, hj, hne, heq⟩ := Finset.exists_ne_map_eq_of_card_lt_of_maps_to hfew hmaps
  rw [Finset.mem_range] at hi hj
  rcases Nat.lt_or_gt_of_ne hne with hlt | hgt
  · exact ⟨i, j, hlt, hj, heq⟩
  · exact ⟨j, i, hgt, hi, heq.symm⟩

theorem type?_of_climb_lt (h : s.climb n t = some a) (hk : k < n) :
    ∃ x, s.climb k t = some x ∧ (s.type? x).isSome := by
  obtain ⟨i, rfl⟩ := Nat.exists_eq_add_of_lt hk
  rw [Nat.add_assoc, climb_add, Option.bind_eq_some_iff] at h
  obtain ⟨x, hx, h⟩ := h
  obtain ⟨p, hp, -⟩ := climb_succ_eq_some_iff.mp h
  exact ⟨x, hx, hp.known⟩

theorem exists_short_climb (h : s.climb n t = some a) :
    ∃ k ≤ s.types.length, s.climb k t = some a := by
  classical
  have hex : ∃ k, s.climb k t = some a := ⟨n, h⟩
  have hshortest := Nat.find_spec hex
  -- the shortest climb repeats nothing, for a repetition could be left out
  refine ⟨Nat.find hex, Nat.le_of_not_lt fun hlong => ?_, hshortest⟩
  obtain ⟨i, j, hij, hj, heq⟩ := exists_climb_eq (fun i hi => type?_of_climb_lt hshortest hi) hlong
  apply Nat.find_min hex (m := i + (Nat.find hex - j)) (by omega)
  rw [climb_add, heq, ← climb_add, Nat.add_sub_cancel' (Nat.le_of_lt hj), hshortest]

theorem isA_iff_inherits : s.isA t a = true ↔ s.Inherits t a := by
  rw [isA, reaches_iff_climb, inherits_iff_climb]
  constructor
  · rintro ⟨k, -, hk⟩
    exact ⟨k, hk⟩
  · rintro ⟨n, hn⟩
    exact exists_short_climb hn

theorem fieldOn_eq_ok_iff {f : Id} {d : FieldDef} : s.fieldOn t f = .ok d ↔ s.HasField t f d := by
  constructor
  · exact hasField_of_fieldOn
  · rintro ⟨hknown, hd, hinherits⟩
    have htype : ¬ (s.type? t).isNone := by simpa [Option.isSome_iff_ne_none] using hknown
    simp only [fieldOn, if_neg htype, hd, isA_iff_inherits.mpr hinherits, if_true]

def RootedWithin (s : Schema) (n : Nat) (t : Id) : Prop :=
  ∃ k < n, ∃ r, s.climb k t = some r ∧ s.IsRoot r

theorem rootedWithin_succ :
    s.RootedWithin (n + 1) t ↔ s.IsRoot t ∨ ∃ p, s.HasParent t p ∧ s.RootedWithin n p := by
  constructor
  · rintro ⟨k, hk, r, hr, hroot⟩
    cases k with
    | zero => exact .inl (Option.some.inj hr ▸ hroot)
    | succ k =>
      obtain ⟨p, hp, hr⟩ := climb_succ_eq_some_iff.mp hr
      exact .inr ⟨p, hp, k, Nat.lt_of_succ_lt_succ hk, r, hr, hroot⟩
  · rintro (hroot | ⟨p, hp, k, hk, r, hr, hroot⟩)
    · exact ⟨0, Nat.succ_pos n, t, rfl, hroot⟩
    · exact ⟨k + 1, Nat.succ_lt_succ hk, r, climb_succ_eq_some_iff.mpr ⟨p, hp, hr⟩, hroot⟩

theorem RootedWithin.known (h : s.RootedWithin n t) : (s.type? t).isSome := by
  cases n with
  | zero =>
    obtain ⟨k, hk, -⟩ := h
    contradiction
  | succ n =>
    rcases rootedWithin_succ.mp h with ⟨d, hd, -⟩ | ⟨p, hp, -⟩
    · rw [hd, Option.isSome_some]
    · exact hp.known

theorem checkAncestry_eq_ok_iff : s.checkAncestry n (some t) = .ok ⟨⟩ ↔ s.RootedWithin n t := by
  induction n generalizing t with
  | zero => cases h : s.type? t <;> simp [checkAncestry, RootedWithin, h]
  | succ n ih =>
    rw [rootedWithin_succ]
    cases h : s.type? t with
    | none => simp [checkAncestry, IsRoot, HasParent, h]
    | some d =>
      rw [checkAncestry, h]
      cases hparent : d.parent with
      | none => simp [checkAncestry, IsRoot, h, hparent]
      | some p => simp [IsRoot, HasParent, h, hparent, ih]

theorem checkAncestry_parent_eq_ok_iff {d : TypeDef} (hd : s.type? t = some d) :
    s.checkAncestry n d.parent = .ok ⟨⟩ ↔ s.RootedWithin (n + 1) t := by
  rw [← checkAncestry_eq_ok_iff, checkAncestry, hd]

theorem checkPairing_eq_ok_iff {d : FieldDef} : s.checkPairing d = .ok ⟨⟩ ↔ ∀ p, d.pairing = some p →
    ∃ d' p', s.field? p.other = some d' ∧ d'.pairing = some p' ∧ p'.other = d.id := by
  rw [checkPairing]
  cases d.pairing with
  | none => simp
  | some p => cases h : s.field? p.other <;> simp [h]

/-- The references of a schema: parents are types, no type is its own ancestor, and the fields at the two
ends of an edge name each other. -/
structure Coherent (s : Schema) : Prop where
  known : ∀ t p, s.HasParent t p → (s.type? p).isSome
  acyclic : ∀ t p, s.HasParent t p → ¬ s.Inherits p t
  mirrored : ∀ f d p, s.field? f = some d → d.pairing = some p →
    ∃ d' p', s.field? p.other = some d' ∧ d'.pairing = some p' ∧ p'.other = f

theorem HasParent.eq {p q : Id} (hp : s.HasParent t p) (hq : s.HasParent t q) : p = q := by
  rw [← parent?_eq_some_iff] at hp hq
  exact Option.some.inj (hp.symm.trans hq)

theorem IsRoot.not_hasParent (h : s.IsRoot t) : ¬ s.HasParent t p := by
  rw [← parent?_eq_some_iff, h.parent?]
  nofun

theorem Inherits.extend (h : s.Inherits a t) (hp : s.HasParent t p) : s.Inherits a p := by
  induction h with
  | refl t =>
    obtain ⟨d, hd, hparent⟩ := hp
    exact .step hd hparent (.refl p)
  | step hd hparent _ ih => exact .step hd hparent (ih hp)

theorem not_rootedWithin_of_inherits (hp : s.HasParent t p) (hcircle : s.Inherits p t) :
    ¬ s.RootedWithin n t := by
  -- on a circle every climb goes on
  induction n generalizing t p with
  | zero =>
    rintro ⟨k, hk, -⟩
    contradiction
  | succ n ih =>
    rw [rootedWithin_succ]
    rintro (hroot | ⟨q, hq, hrooted⟩)
    · exact hroot.not_hasParent hp
    · rw [hq.eq hp] at hrooted
      cases hcircle with
      | refl => exact ih hp (.refl _) hrooted
      | step hd hparent hinherits => exact ih ⟨_, hd, hparent⟩ (hinherits.extend hp) hrooted

theorem rootedWithin_of_acyclic (hknown : ∀ t p, s.HasParent t p → (s.type? p).isSome)
    (hacyclic : ∀ t p, s.HasParent t p → ¬ s.Inherits p t) (ht : (s.type? t).isSome) :
    s.RootedWithin (s.types.length + 1) t := by
  by_contra hrootless
  -- without a root the climb goes through more types than there are
  have hgoes : ∀ i < s.types.length + 1, ∃ x, s.climb i t = some x ∧ (s.type? x).isSome := by
    intro i
    induction i with
    | zero => exact fun _ => ⟨t, rfl, ht⟩
    | succ i ih =>
      intro hi
      obtain ⟨x, hx, hdefined⟩ := ih (by omega)
      obtain ⟨d, hd⟩ := Option.isSome_iff_exists.mp hdefined
      cases hparent : d.parent with
      | none => exact absurd ⟨i, by omega, x, hx, d, hd, hparent⟩ hrootless
      | some p =>
        refine ⟨p, ?_, hknown x p ⟨d, hd, hparent⟩⟩
        rw [climb_add, hx, Option.bind_some, climb_succ_of_hasParent ⟨d, hd, hparent⟩, climb_zero]
  obtain ⟨i, j, hij, hj, heq⟩ := exists_climb_eq hgoes (Nat.lt_succ_self _)
  obtain ⟨x, hx, -⟩ := hgoes j hj
  obtain ⟨m, rfl⟩ := Nat.exists_eq_add_of_lt hij
  have hreturn := hx
  rw [Nat.add_assoc, climb_add, heq, hx, Option.bind_some] at hreturn
  obtain ⟨p, hp, hclimb⟩ := climb_succ_eq_some_iff.mp hreturn
  exact hacyclic x p hp (inherits_iff_climb.mpr ⟨m, hclimb⟩)

theorem forall_rootedWithin_iff : (∀ t, (s.type? t).isSome → s.RootedWithin (s.types.length + 1) t) ↔
    (∀ t p, s.HasParent t p → (s.type? p).isSome) ∧ ∀ t p, s.HasParent t p → ¬ s.Inherits p t := by
  constructor
  · intro h
    refine ⟨fun t p hp => ?_, fun t p hp hcircle => not_rootedWithin_of_inherits hp hcircle (h t hp.known)⟩
    rcases rootedWithin_succ.mp (h t hp.known) with hroot | ⟨q, hq, hrooted⟩
    · exact absurd hp hroot.not_hasParent
    · exact hq.eq hp ▸ hrooted.known
  · rintro ⟨hknown, hacyclic⟩ t ht
    exact rootedWithin_of_acyclic hknown hacyclic ht

theorem validateAlong_eq_ok_iff (hs : s.Lawful) {types : List (Id × TypeDef)}
    {fields : List (Id × FieldDef)} (htypes : types.Perm s.types) (hfields : fields.Perm s.fields) :
    s.validateAlong types fields = .ok ⟨⟩ ↔ s.Coherent := by
  have hmem {e : Id × TypeDef} : e ∈ types ↔ s.type? e.1 = some e.2 :=
    htypes.mem_iff.trans (Dictionary.get?_eq_some_iff hs.types).symm
  have hmem' {e : Id × FieldDef} : e ∈ fields ↔ s.field? e.1 = some e.2 :=
    hfields.mem_iff.trans (Dictionary.get?_eq_some_iff hs.fields).symm
  have hancestry : types.forM (fun e => s.checkAncestry s.types.length e.2.parent) = .ok ⟨⟩ ↔
      ∀ t, (s.type? t).isSome → s.RootedWithin (s.types.length + 1) t := by
    rw [Stateful.forM_eq_ok]
    constructor
    · intro h t ht
      obtain ⟨d, hd⟩ := Option.isSome_iff_exists.mp ht
      exact (checkAncestry_parent_eq_ok_iff hd).mp (h (t, d) (hmem.mpr hd))
    · intro h e he
      apply (checkAncestry_parent_eq_ok_iff (hmem.mp he)).mpr
      exact h e.1 (by rw [hmem.mp he, Option.isSome_some])
  have hpairing : fields.forM (fun e => s.checkPairing e.2) = .ok ⟨⟩ ↔
      ∀ f d p, s.field? f = some d → d.pairing = some p →
        ∃ d' p', s.field? p.other = some d' ∧ d'.pairing = some p' ∧ p'.other = f := by
    rw [Stateful.forM_eq_ok]
    constructor
    · intro h f d p hd hp
      have hother := checkPairing_eq_ok_iff.mp (h (f, d) (hmem'.mpr hd)) p hp
      rwa [hs.field_id f d hd] at hother
    · intro h e he
      rw [checkPairing_eq_ok_iff, hs.field_id e.1 e.2 (hmem'.mp he)]
      exact fun p hp => h e.1 e.2 p (hmem'.mp he) hp
  rw [validateAlong, Stateful.bind_eq_ok]
  constructor
  · rintro ⟨⟨⟩, htypes, hfields⟩
    obtain ⟨hknown, hacyclic⟩ := forall_rootedWithin_iff.mp (hancestry.mp htypes)
    exact ⟨hknown, hacyclic, hpairing.mp hfields⟩
  · rintro ⟨hknown, hacyclic, hmirrored⟩
    exact ⟨⟨⟩, hancestry.mpr (forall_rootedWithin_iff.mpr ⟨hknown, hacyclic⟩), hpairing.mpr hmirrored⟩

/-- Inheritance and membership are decided by the bounded walks, and validation decides coherence in
whatever order it goes through the definitions. -/
theorem Built.walks_decide (h : s.Built) :
    (∀ t a, s.isA t a = true ↔ s.Inherits t a) ∧
    (∀ t f d, s.fieldOn t f = .ok d ↔ s.HasField t f d) ∧
    (s.validate = .ok ⟨⟩ ↔ s.Coherent) ∧
    ∀ types fields, types.Perm s.types → fields.Perm s.fields →
      (s.validateAlong types fields = .ok ⟨⟩ ↔ s.Coherent) := by
  refine ⟨fun t a => isA_iff_inherits, fun t f d => fieldOn_eq_ok_iff, ?_, ?_⟩
  · exact validateAlong_eq_ok_iff h.lawful (.refl _) (.refl _)
  · intro types fields htypes hfields
    exact validateAlong_eq_ok_iff h.lawful htypes hfields

def tangled : Schema :=
  ((((builtin.withType { id := Id.ofNat 0x1000, name := "egg", parent := some (Id.ofNat 0x1001) }).withType
    { id := Id.ofNat 0x1001, name := "hen", parent := some (Id.ofNat 0x1000) }).withType
    { id := Id.ofNat 0x1002, name := "omelette", parent := some (Id.ofNat 0x1000) }).withType
    { id := Id.ofNat 0x1003, name := "phoenix", parent := some (Id.ofNat 0x1004) }).withField
    { id := Id.ofNat 0x2000, name := "breed", owner := Id.ofNat 0x1001, type := .string }

theorem Built.walks_decide_tangled : tangled.Built ∧
    tangled.Inherits (Id.ofNat 0x1002) (Id.ofNat 0x1001) ∧
    ¬ tangled.Inherits (Id.ofNat 0x1000) (Id.ofNat 0x1002) ∧
    tangled.Inherits (Id.ofNat 0x1003) (Id.ofNat 0x1004) ∧
    (∃ d, tangled.HasField (Id.ofNat 0x1002) (Id.ofNat 0x2000) d) ∧ ¬ tangled.Coherent := by
  have htangled : tangled.Built :=
    ((((Built.builtin.withType rfl).withType rfl).withType rfl).withType rfl).withField rfl rfl (by decide)
  obtain ⟨hisA, hfieldOn, hvalidate, -⟩ := Built.walks_decide htangled
  refine ⟨htangled, (hisA _ _).mp (by decide), mt (hisA _ _).mpr (by decide), (hisA _ _).mp (by decide),
    ⟨_, (hfieldOn _ _ _).mp rfl⟩, mt hvalidate.mpr (by decide)⟩

end ObjectGraph.Schema
