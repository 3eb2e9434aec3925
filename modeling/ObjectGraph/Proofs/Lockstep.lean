import Mathlib.Data.List.Forall2
import ObjectGraph.Proofs.Stateful
/-!
Two lists that are related item by item, and two computations in lockstep: from related states they end
alike, with the same result or the same error, and in related states again.
-/

namespace ObjectGraph

section Lists

variable {α β : Type} {R : α → β → Prop} {l : List α} {l' : List β}

theorem forall₂_getElem? (h : List.Forall₂ R l l') (i : Nat) : Option.Rel R l[i]? l'[i]? := by
  induction h generalizing i with
  | nil => exact .none
  | cons hab _ ih =>
    cases i with
    | zero => exact .some hab
    | succ i => exact ih i

theorem forall₂_set (h : List.Forall₂ R l l') (i : Nat) {a : α} {b : β} (hab : R a b) :
    List.Forall₂ R (l.set i a) (l'.set i b) := by
  induction h generalizing i with
  | nil => exact .nil
  | cons hcd hrest ih =>
    cases i with
    | zero => exact .cons hab hrest
    | succ i => exact .cons hcd (ih i)

theorem forall₂_modify (h : List.Forall₂ R l l') (i : Nat) {f : α → α} {g : β → β}
    (hfg : ∀ a b, R a b → R (f a) (g b)) : List.Forall₂ R (l.modify i f) (l'.modify i g) := by
  induction h generalizing i with
  | nil =>
    rw [List.modify_nil, List.modify_nil]
    exact .nil
  | cons hab hrest ih =>
    cases i with
    | zero => exact .cons (hfg _ _ hab) hrest
    | succ i => exact .cons hab (ih i)

theorem forall₂_eraseIdx (h : List.Forall₂ R l l') (i : Nat) :
    List.Forall₂ R (l.eraseIdx i) (l'.eraseIdx i) := by
  induction h generalizing i with
  | nil => exact .nil
  | cons hab hrest ih =>
    cases i with
    | zero => exact hrest
    | succ i => exact .cons hab (ih i)

end Lists

namespace Stateful

variable {ε σ τ α β γ δ : Type}

inductive Both (R : α → β → Prop) : Except ε α → Except ε β → Prop where
  | ok {a : α} {b : β} : R a b → Both R (.ok a) (.ok b)
  | error (e : ε) : Both R (.error e) (.error e)

namespace Both

variable {R R' : α → β → Prop} {S : γ → δ → Prop} {x : Except ε α} {y : Except ε β}

theorem refl {S : α → α → Prop} (h : ∀ a, S a a) (x : Except ε α) : Both S x x := by
  cases x with
  | error e => exact .error e
  | ok a => exact .ok (h a)

theorem exists_of_ok {a : α} {y : Except ε β} (h : Both R (.ok a) y) : ∃ b, R a b := by
  cases h with
  | ok hab => exact ⟨_, hab⟩

theorem mono (h : Both R x y) (hR : ∀ a b, R a b → R' a b) : Both R' x y := by
  cases h with
  | ok hab => exact .ok (hR _ _ hab)
  | error e => exact .error e

theorem map {f : α → γ} {g : β → δ} (h : Both R x y) (hfg : ∀ a b, R a b → S (f a) (g b)) :
    Both S (x.map f) (y.map g) := by
  cases h with
  | ok hab => exact .ok (hfg _ _ hab)
  | error e => exact .error e

theorem bind {f : α → Except ε γ} {g : β → Except ε δ} (h : Both R x y)
    (hfg : ∀ a b, R a b → Both S (f a) (g b)) : Both S (x >>= f) (y >>= g) := by
  cases h with
  | ok hab => exact hfg _ _ hab
  | error e => exact .error e

theorem foldlM {f : α → γ → Except ε α} {g : β → γ → Except ε β}
    (step : ∀ a b c, R a b → Both R (f a c) (g b c)) (l : List γ) {a : α} {b : β} (h : R a b) :
    Both R (l.foldlM f a) (l.foldlM g b) := by
  induction l generalizing a b with
  | nil => exact .ok h
  | cons c l ih =>
    rw [List.foldlM_cons, List.foldlM_cons]
    exact (step a b c h).bind fun _ _ => ih

end Both

/-- Runs from states related by `P` end alike, in states related by `Q` or, failing, by `E`. -/
def Lockstep (P : σ → τ → Prop) (m : ExceptT ε (StateM σ) α) (m' : ExceptT ε (StateM τ) α)
    (Q E : σ → τ → Prop) : Prop :=
  ∀ s t, P s t → Both (fun a b => a = b) (m.run s).1 (m'.run t).1 ∧
    match (m.run s).1 with
    | .ok _ => Q (m.run s).2 (m'.run t).2
    | .error _ => E (m.run s).2 (m'.run t).2

namespace Lockstep

variable {P P' Q Q' R E E' : σ → τ → Prop} {m : ExceptT ε (StateM σ) α}
  {m' : ExceptT ε (StateM τ) α}

theorem cases_run (h : Lockstep P m m' Q E) {s : σ} {t : τ} (hst : P s t) :
    (∃ a s' t', m.run s = (.ok a, s') ∧ m'.run t = (.ok a, t') ∧ Q s' t') ∨
      ∃ e s' t', m.run s = (.error e, s') ∧ m'.run t = (.error e, t') ∧ E s' t' := by
  obtain ⟨hsame, hend⟩ := h s t hst
  rcases hs : m.run s with ⟨x, s'⟩
  rcases ht : m'.run t with ⟨y, t'⟩
  rw [hs, ht] at hsame hend
  cases hsame with
  | ok hab => exact .inl ⟨_, s', t', rfl, by rw [hab], hend⟩
  | error e => exact .inr ⟨e, s', t', rfl, rfl, hend⟩

theorem of_cases (h : ∀ s t, P s t →
    (∃ a s' t', m.run s = (.ok a, s') ∧ m'.run t = (.ok a, t') ∧ Q s' t') ∨
      ∃ e s' t', m.run s = (.error e, s') ∧ m'.run t = (.error e, t') ∧ E s' t') :
    Lockstep P m m' Q E := by
  intro s t hst
  rcases h s t hst with ⟨a, s', t', hs, ht, hQ⟩ | ⟨e, s', t', hs, ht, hE⟩
  · rw [hs, ht]
    exact ⟨.ok rfl, hQ⟩
  · rw [hs, ht]
    exact ⟨.error e, hE⟩

theorem mono (h : Lockstep P m m' Q E) (hP : ∀ s t, P' s t → P s t) (hQ : ∀ s t, Q s t → Q' s t)
    (hE : ∀ s t, E s t → E' s t) : Lockstep P' m m' Q' E' := by
  apply of_cases
  intro s t hst
  rcases h.cases_run (hP s t hst) with ⟨a, s', t', hs, ht, hend⟩ | ⟨e, s', t', hs, ht, hend⟩
  · exact .inl ⟨a, s', t', hs, ht, hQ _ _ hend⟩
  · exact .inr ⟨e, s', t', hs, ht, hE _ _ hend⟩

theorem refl {m : ExceptT ε (StateM σ) α} : Lockstep Eq m m Eq Eq := by
  rintro s _ rfl
  refine ⟨.refl (fun _ => rfl) _, ?_⟩
  split <;> rfl

theorem pure {a : α} (h : ∀ s t, P s t → Q s t) :
    Lockstep P (Pure.pure a : ExceptT ε (StateM σ) α) (Pure.pure a : ExceptT ε (StateM τ) α) Q E :=
  fun s t hst => ⟨.ok rfl, h s t hst⟩

theorem throw {e : ε} (h : ∀ s t, P s t → E s t) :
    Lockstep P (MonadExcept.throw e : ExceptT ε (StateM σ) α)
      (MonadExcept.throw e : ExceptT ε (StateM τ) α) Q E :=
  fun s t hst => ⟨.error e, h s t hst⟩

theorem ofExcept (x : Except ε α) (hQ : ∀ s t, P s t → Q s t) (hE : ∀ s t, P s t → E s t) :
    Lockstep P (MonadExcept.ofExcept x : ExceptT ε (StateM σ) α)
      (MonadExcept.ofExcept x : ExceptT ε (StateM τ) α) Q E := by
  cases x with
  | error e => exact throw hE
  | ok a => exact pure hQ

theorem bind {f : α → ExceptT ε (StateM σ) β} {f' : α → ExceptT ε (StateM τ) β}
    (h : Lockstep P m m' Q E) (hf : ∀ a, Lockstep Q (f a) (f' a) R E) :
    Lockstep P (m >>= f) (m' >>= f') R E := by
  apply of_cases
  intro s t hst
  rcases h.cases_run hst with ⟨a, s', t', hs, ht, hend⟩ | ⟨e, s', t', hs, ht, hend⟩
  · rw [run_bind_of_ok hs, run_bind_of_ok ht]
    exact (hf a).cases_run hend
  · rw [run_bind_of_error hs, run_bind_of_error ht]
    exact .inr ⟨e, s', t', rfl, rfl, hend⟩

theorem get_bind {f : σ → ExceptT ε (StateM σ) β} {f' : τ → ExceptT ε (StateM τ) β}
    (h : ∀ s t, P s t → Lockstep (fun s' t' => s' = s ∧ t' = t) (f s) (f' t) R E) :
    Lockstep P (get >>= f) (get >>= f') R E := by
  apply of_cases
  intro s t hst
  rw [run_bind_of_ok (run_get s), run_bind_of_ok (run_get t)]
  exact (h s t hst).cases_run ⟨rfl, rfl⟩

theorem modify {f : σ → σ} {f' : τ → τ} (h : ∀ s t, P s t → Q (f s) (f' t)) :
    Lockstep P (modify f : ExceptT ε (StateM σ) PUnit) (modify f' : ExceptT ε (StateM τ) PUnit) Q E :=
  fun s t hst => ⟨.ok rfl, h s t hst⟩

theorem ofExcept_bind {x : Except ε γ} {y : Except ε δ} {f : γ → ExceptT ε (StateM σ) β}
    {f' : δ → ExceptT ε (StateM τ) β} {S : γ → δ → Prop} (hxy : Both S x y)
    (hok : ∀ a b, S a b → Lockstep P (f a) (f' b) R E) (herror : ∀ s t, P s t → E s t) :
    Lockstep P (MonadExcept.ofExcept x >>= f) (MonadExcept.ofExcept y >>= f') R E := by
  cases hxy with
  | ok hab => exact hok _ _ hab
  | error e => exact fun s t hst => ⟨.error e, herror s t hst⟩

theorem ofExcept_bind_same {x : Except ε γ} {f : γ → ExceptT ε (StateM σ) β} {f' : γ → ExceptT ε (StateM τ) β}
    (hok : ∀ a, Lockstep P (f a) (f' a) R E) (herror : ∀ s t, P s t → E s t) :
    Lockstep P (MonadExcept.ofExcept x >>= f) (MonadExcept.ofExcept x >>= f') R E := by
  apply ofExcept_bind (Both.refl (S := Eq) (fun _ => rfl) x) _ herror
  rintro a _ rfl
  exact hok a

theorem discard (h : Lockstep P m m' Q E) : Lockstep P (discard m) (discard m') Q E := by
  apply of_cases
  intro s t hst
  have hrun {ρ : Type} (n : ExceptT ε (StateM ρ) α) (r : ρ) :
      (Functor.discard n).run r = ((n.run r).1.map fun _ => ⟨⟩, (n.run r).2) := run_map _ _ _
  rcases h.cases_run hst with ⟨a, s', t', hs, ht, hend⟩ | ⟨e, s', t', hs, ht, hend⟩
  · exact .inl ⟨⟨⟩, s', t', by rw [hrun, hs]; rfl, by rw [hrun, ht]; rfl, hend⟩
  · exact .inr ⟨e, s', t', by rw [hrun, hs]; rfl, by rw [hrun, ht]; rfl, hend⟩

theorem forM {f : γ → ExceptT ε (StateM σ) PUnit} {f' : γ → ExceptT ε (StateM τ) PUnit}
    (h : ∀ c, Lockstep P (f c) (f' c) P E) (l : List γ) : Lockstep P (l.forM f) (l.forM f') P E := by
  induction l with
  | nil => exact pure fun _ _ hst => hst
  | cons c l ih => exact (h c).bind fun _ => ih

theorem ite {C : Prop} [Decidable C] {n : ExceptT ε (StateM σ) α} {n' : ExceptT ε (StateM τ) α}
    (h : Lockstep P m m' Q E) (h' : Lockstep P n n' Q E) :
    Lockstep P (if C then m else n) (if C then m' else n') Q E := by split <;> assumption

end Lockstep

end Stateful

end ObjectGraph
