namespace ObjectGraph

open Std (LawfulEqCmp LawfulEqOrd OrientedCmp TransCmp)

variable {α : Type} {P : α → Prop} {typed plain cmp : α → α → Ordering} {a b c : α}

def Cyclic (cmp : α → α → Ordering) (a b c : α) : Prop :=
  cmp a b = .lt ∧ cmp b c = .lt ∧ cmp c a = .lt

theorem Cyclic.rotate (h : Cyclic cmp a b c) : Cyclic cmp b c a := ⟨h.2.1, h.2.2, h.1⟩

theorem not_cyclic [TransCmp cmp] : ¬ Cyclic cmp a b c := by
  rintro ⟨hab, hbc, hca⟩
  exact OrientedCmp.not_lt_of_lt (TransCmp.lt_trans hab hbc) hca

theorem isLE_iff_not_cyclic [OrientedCmp cmp] [LawfulEqCmp cmp] (hab : (cmp a b).isLE)
    (hbc : (cmp b c).isLE) : (cmp a c).isLE ↔ ¬ Cyclic cmp a b c := by
  constructor
  · rintro hac ⟨-, -, hca⟩
    exact OrientedCmp.not_lt_of_isLE hac hca
  · intro hcyclic
    rcases Ordering.isLE_iff_eq_lt_or_eq_eq.mp hab with hab' | hab'
    · rcases Ordering.isLE_iff_eq_lt_or_eq_eq.mp hbc with hbc' | hbc'
      · refine Ordering.isLE_iff_ne_gt.mpr fun hgt => hcyclic ⟨hab', hbc', ?_⟩
        exact OrientedCmp.lt_of_gt hgt
      · rwa [← LawfulEqCmp.eq_of_compare hbc']
    · rwa [LawfulEqCmp.eq_of_compare hab']

theorem compareOn_tie {β : Type} [Ord β] [LawfulEqOrd β] {f : α → β} (h : compareOn f a b = .eq)
    (c : α) : compareOn f a c = compareOn f b c :=
  congrArg (compare · (f c)) (LawfulEqOrd.eq_of_compare h)

theorem compareLex_eq_swap {c₁ c₂ : α → α → Ordering} [OrientedCmp c₁]
    (h : c₁ a b = .eq → c₂ a b = (c₂ b a).swap) :
    compareLex c₁ c₂ a b = (compareLex c₁ c₂ b a).swap := by
  rw [compareLex, compareLex, Ordering.swap_then, ← OrientedCmp.eq_swap]
  cases hab : c₁ a b with
  | lt => rfl
  | eq => exact h hab
  | gt => rfl

theorem Cyclic.of_then {c₁ c₂ : α → α → Ordering} [OrientedCmp c₁]
    (htie : ∀ {x y}, c₁ x y = .eq → ∀ z, c₁ x z = c₁ y z)
    (h : Cyclic (compareLex c₁ c₂) a b c) :
    Cyclic c₁ a b c ∨ c₁ a b = .eq ∧ c₁ b c = .eq ∧ Cyclic c₂ a b c := by
  -- a tie of two of them makes the other comparisons opposite, so neither is strict
  have hties {x y z : α} (hxy : c₁ x y = .eq) (hyz : (c₁ y z).isLE) (hzx : (c₁ z x).isLE) :
      c₁ y z = .eq ∧ c₁ z x = .eq := by
    rw [← htie hxy] at hyz ⊢
    have hxz := OrientedCmp.isLE_antisymm hyz hzx
    exact ⟨hxz, OrientedCmp.eq_symm hxz⟩
  obtain ⟨hab, hbc, hca⟩ := h
  by_cases hcyclic : Cyclic c₁ a b c
  · exact .inl hcyclic
  · have hle {x y : α} (hxy : compareLex c₁ c₂ x y = .lt) : (c₁ x y).isLE :=
      Ordering.isLE_left_of_isLE_then (Ordering.isLE_of_eq_lt hxy)
    have heq : c₁ a b = .eq ∧ c₁ b c = .eq ∧ c₁ c a = .eq := by
      rcases Ordering.isLE_iff_eq_lt_or_eq_eq.mp (hle hab) with hab' | hab'
      · rcases Ordering.isLE_iff_eq_lt_or_eq_eq.mp (hle hbc) with hbc' | hbc'
        · rcases Ordering.isLE_iff_eq_lt_or_eq_eq.mp (hle hca) with hca' | hca'
          · exact absurd ⟨hab', hbc', hca'⟩ hcyclic
          · exact ⟨(hties hca' (hle hab) (hle hbc)).1, (hties hca' (hle hab) (hle hbc)).2, hca'⟩
        · obtain ⟨hca', hab'⟩ := hties hbc' (hle hca) (hle hab)
          exact ⟨hab', hbc', hca'⟩
      · obtain ⟨hbc', hca'⟩ := hties hab' (hle hbc) (hle hca)
        exact ⟨hab', hbc', hca'⟩
    obtain ⟨hab', hbc', hca'⟩ := heq
    rw [compareLex, hab', Ordering.eq_then] at hab
    rw [compareLex, hbc', Ordering.eq_then] at hbc
    rw [compareLex, hca', Ordering.eq_then] at hca
    exact .inr ⟨hab', hbc', hab, hbc, hca⟩

structure Switching (P : α → Prop) (typed plain cmp : α → α → Ordering) : Prop where
  both : ∀ {a b}, P a → P b → cmp a b = typed a b
  other : ∀ {a b}, ¬ (P a ∧ P b) → cmp a b = plain a b

def Crossed (P : α → Prop) (typed plain : α → α → Ordering) (x z y : α) : Prop :=
  P x ∧ ¬ P z ∧ P y ∧ plain x z = .lt ∧ plain z y = .lt ∧ typed y x = .lt

namespace Switching

theorem orientedCmp [OrientedCmp plain] (hcmp : Switching P typed plain cmp)
    (htyped : ∀ {a b}, P a → P b → typed a b = (typed b a).swap) : OrientedCmp cmp where
  eq_swap {a b} := by
    by_cases h : P a ∧ P b
    · rw [hcmp.both h.1 h.2, hcmp.both h.2 h.1]
      exact htyped h.1 h.2
    · rw [hcmp.other h, hcmp.other (mt And.symm h)]
      exact OrientedCmp.eq_swap

theorem eq_of_cmp [LawfulEqCmp plain] (hcmp : Switching P typed plain cmp)
    (htyped : ∀ {a b}, P a → P b → typed a b = .eq → a = b) (h : cmp a b = .eq) : a = b := by
  by_cases hP : P a ∧ P b
  · rw [hcmp.both hP.1 hP.2] at h
    exact htyped hP.1 hP.2 h
  · rw [hcmp.other hP] at h
    exact LawfulEqCmp.eq_of_compare h

theorem cyclic_of_crossed (hcmp : Switching P typed plain cmp) (h : Crossed P typed plain a b c) :
    Cyclic cmp a b c := by
  obtain ⟨ha, hb, hc, hab, hbc, hca⟩ := h
  exact ⟨(hcmp.other fun h => hb h.2).trans hab, (hcmp.other fun h => hb h.1).trans hbc,
    (hcmp.both hc ha).trans hca⟩

theorem crossed_of_cyclic [TransCmp plain] (hcmp : Switching P typed plain cmp) (hb : ¬ P b)
    (h : Cyclic cmp a b c) : Crossed P typed plain a b c := by
  obtain ⟨hab, hbc, hca⟩ := h
  rw [hcmp.other fun h => hb h.2] at hab
  rw [hcmp.other fun h => hb h.1] at hbc
  by_cases h : P c ∧ P a
  · rw [hcmp.both h.1 h.2] at hca
    exact ⟨h.2, hb, h.1, hab, hbc, hca⟩
  · rw [hcmp.other h] at hca
    exact absurd ⟨hab, hbc, hca⟩ not_cyclic

theorem cyclic_cases [TransCmp plain] (hcmp : Switching P typed plain cmp) (h : Cyclic cmp a b c) :
    (P a ∧ P b ∧ P c) ∨ Crossed P typed plain a b c ∨ Crossed P typed plain b c a ∨
      Crossed P typed plain c a b := by
  by_cases hb : P b
  · by_cases hc : P c
    · by_cases ha : P a
      · exact .inl ⟨ha, hb, hc⟩
      · exact .inr (.inr (.inr (hcmp.crossed_of_cyclic ha h.rotate.rotate)))
    · exact .inr (.inr (.inl (hcmp.crossed_of_cyclic hc h.rotate)))
  · exact .inr (.inl (hcmp.crossed_of_cyclic hb h))

end Switching

end ObjectGraph
