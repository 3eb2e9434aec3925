import ObjectGraph.Bytes

namespace ObjectGraph.Stateful

variable {ε σ α β : Type}

theorem ok_bind (a : α) (f : α → Except ε β) : (Except.ok a >>= f) = f a := rfl

theorem bind_eq_ok {x : Except ε α} {f : α → Except ε β} {b : β} :
    (x >>= f) = .ok b ↔ ∃ a, x = .ok a ∧ f a = .ok b := by
  cases x with
  | error e => simp [bind, Except.bind]
  | ok a => simp [bind, Except.bind]

theorem exists_bind_eq_ok {x : Except ε α} {f : α → Except ε β} :
    (∃ b, (x >>= f) = .ok b) ↔ ∃ a, x = .ok a ∧ ∃ b, f a = .ok b := by
  cases x with
  | error e => simp [bind, Except.bind]
  | ok a => simp [bind, Except.bind]

theorem map_eq_ok {x : Except ε α} {f : α → β} {b : β} :
    x.map f = .ok b ↔ ∃ a, x = .ok a ∧ f a = b := by
  cases x with
  | error e => simp [Except.map]
  | ok a => simp [Except.map]

theorem ok_of_toOption {x : Except ε α} {a : α} (h : x.toOption = some a) : x = .ok a := by
  cases x with
  | error e => contradiction
  | ok b => exact congrArg Except.ok (Option.some.inj h)

theorem mapM_eq_ok {f : α → Except ε β} {l : List α} {bs : List β} (h : l.map f = bs.map Except.ok) :
    l.mapM f = .ok bs := by
  induction l generalizing bs with
  | nil =>
    rw [List.map_nil, List.nil_eq, List.map_eq_nil_iff] at h
    rw [h]
    rfl
  | cons a l ih =>
    cases bs with
    | nil => contradiction
    | cons b bs =>
      obtain ⟨ha, hl⟩ := List.cons.inj h
      rw [List.mapM_cons, ha, ok_bind, ih hl]
      rfl

theorem map_eq_of_mapM_eq_ok {f : α → Except ε β} {l : List α} {bs : List β} (h : l.mapM f = .ok bs) :
    l.map f = bs.map Except.ok := by
  induction l generalizing bs with
  | nil =>
    cases h
    rfl
  | cons a l ih =>
    rw [List.mapM_cons] at h
    obtain ⟨b, ha, h⟩ := bind_eq_ok.mp h
    obtain ⟨bs, hl, hend⟩ := bind_eq_ok.mp h
    cases hend
    rw [List.map_cons, List.map_cons, ha, ih hl]

theorem mapM_map_eq {m : Type → Type} [Monad m] [LawfulMonad m] {γ δ : Type} {f : α → β} {g : β → m γ}
    {h : α → m δ} {k : δ → γ} {l : List α} (heq : ∀ a ∈ l, g (f a) = k <$> h a) :
    (l.map f).mapM g = List.map k <$> l.mapM h := by
  induction l with
  | nil => simp
  | cons a l ih =>
    obtain ⟨ha, hl⟩ := List.forall_mem_cons.mp heq
    rw [List.map_cons, List.mapM_cons, List.mapM_cons, ha, ih hl]
    simp only [map_eq_pure_bind, bind_assoc, pure_bind, List.map_cons]

theorem exists_mapM_eq_ok {f : α → Except ε β} {l : List α} :
    (∃ bs, l.mapM f = .ok bs) ↔ ∀ a ∈ l, ∃ b, f a = .ok b := by
  constructor
  · rintro ⟨bs, h⟩ a ha
    have hmem : f a ∈ bs.map Except.ok := map_eq_of_mapM_eq_ok h ▸ List.mem_map_of_mem ha
    obtain ⟨b, -, hb⟩ := List.mem_map.mp hmem
    exact ⟨b, hb.symm⟩
  · intro h
    induction l with
    | nil => exact ⟨[], rfl⟩
    | cons a l ih =>
      obtain ⟨b, hb⟩ := h a List.mem_cons_self
      obtain ⟨bs, hbs⟩ := ih fun c hc => h c (List.mem_cons_of_mem a hc)
      exact ⟨b :: bs, by rw [List.mapM_cons, hb, ok_bind, hbs]; rfl⟩

theorem forM_eq_ok {f : α → Except ε Unit} {l : List α} :
    l.forM f = .ok ⟨⟩ ↔ ∀ a ∈ l, f a = .ok ⟨⟩ := by
  induction l with
  | nil => simp [List.forM, pure, Except.pure]
  | cons a l ih =>
    have hcons : (a :: l).forM f = f a >>= fun _ => l.forM f := rfl
    rw [hcons, bind_eq_ok, List.forall_mem_cons, ← ih]
    constructor
    · rintro ⟨⟨⟩, ha, hl⟩
      exact ⟨ha, hl⟩
    · rintro ⟨ha, hl⟩
      exact ⟨⟨⟩, ha, hl⟩

theorem foldlM_induction {f : β → α → Except ε β} {I : β → Prop}
    (step : ∀ b a b', I b → f b a = .ok b' → I b') {l : List α} {b b' : β} (hb : I b)
    (h : l.foldlM f b = .ok b') : I b' := by
  induction l generalizing b with
  | nil =>
    cases h
    exact hb
  | cons a l ih =>
    rw [List.foldlM_cons] at h
    obtain ⟨c, hc, h⟩ := bind_eq_ok.mp h
    exact ih (step b a c hb hc) h

theorem foldlM_error {f : β → α → Except ε β} {I : β → Prop} {E : ε → Prop}
    (step : ∀ b a b', I b → f b a = .ok b' → I b') (fails : ∀ b a e, I b → f b a = .error e → E e)
    {l : List α} {b : β} {e : ε} (hb : I b) (h : l.foldlM f b = .error e) : E e := by
  induction l generalizing b with
  | nil => contradiction
  | cons a l ih =>
    rw [List.foldlM_cons] at h
    cases hstep : f b a with
    | error e' =>
      rw [hstep] at h
      cases h
      exact fails b a e hb hstep
    | ok c =>
      rw [hstep, ok_bind] at h
      exact ih (step b a c hb hstep) h

@[simp] theorem run_get (s : σ) : (get : ExceptT ε (StateM σ) σ).run s = (.ok s, s) := rfl

@[simp] theorem run_set (t s : σ) :
    (set t : ExceptT ε (StateM σ) PUnit).run s = (.ok ⟨⟩, t) := rfl

@[simp] theorem run_ofExcept (x : Except ε α) (s : σ) :
    (ofExcept x : ExceptT ε (StateM σ) α).run s = (x, s) := by cases x <;> rfl

theorem ofExcept_ok_bind (a : α) (f : α → ExceptT ε (StateM σ) β) :
    (MonadExcept.ofExcept (Except.ok a : Except ε α) >>= f) = f a := rfl

theorem run_bind (m : ExceptT ε (StateM σ) α) (f : α → ExceptT ε (StateM σ) β) (s : σ) :
    (m >>= f).run s =
      match m.run s with
      | (.ok a, t) => (f a).run t
      | (.error e, t) => (.error e, t) := by
  simp only [bind, ExceptT.bind, ExceptT.bindCont, ExceptT.mk, ExceptT.run, StateT.bind]
  rcases m s with ⟨_ | _, t⟩ <;> rfl

theorem run_bind_of_ok {m : ExceptT ε (StateM σ) α} {f : α → ExceptT ε (StateM σ) β} {s t : σ}
    {a : α} (h : m.run s = (.ok a, t)) : (m >>= f).run s = (f a).run t := by rw [run_bind, h]

theorem run_bind_of_error {m : ExceptT ε (StateM σ) α} {f : α → ExceptT ε (StateM σ) β} {s t : σ}
    {e : ε} (h : m.run s = (.error e, t)) : (m >>= f).run s = (.error e, t) := by rw [run_bind, h]

theorem run_bind_eq_ok {m : ExceptT ε (StateM σ) α} {f : α → ExceptT ε (StateM σ) β} {s u : σ}
    {b : β} : (m >>= f).run s = (.ok b, u) ↔
      ∃ a t, m.run s = (.ok a, t) ∧ (f a).run t = (.ok b, u) := by
  rw [run_bind]
  rcases hm : m.run s with ⟨e | a, t⟩
  · constructor
    · rintro ⟨⟩
    · rintro ⟨_, _, ⟨⟩, _⟩
  · constructor
    · intro h
      exact ⟨a, t, rfl, h⟩
    · rintro ⟨_, _, ⟨⟩, h⟩
      exact h

theorem run_ofExcept_bind_eq_ok {x : Except ε α} {f : α → ExceptT ε (StateM σ) β} {s t : σ} {b : β} :
    (MonadExcept.ofExcept x >>= f).run s = (.ok b, t) ↔ ∃ a, x = .ok a ∧ (f a).run s = (.ok b, t) := by
  cases x with
  | error e => exact iff_of_false nofun nofun
  | ok a =>
    constructor
    · intro h
      exact ⟨a, rfl, h⟩
    · rintro ⟨_, ⟨⟩, h⟩
      exact h

theorem run_mapM (f : α → ExceptT ε (StateM σ) β) (a : α) (l : List α) (s : σ) :
    ((a :: l).mapM f).run s =
      match (f a).run s with
      | (.error e, t) => (.error e, t)
      | (.ok b, t) =>
        match (l.mapM f).run t with
        | (.error e, u) => (.error e, u)
        | (.ok bs, u) => (.ok (b :: bs), u) := by
  rw [List.mapM_cons, run_bind]
  rcases (f a).run s with ⟨e | b, t⟩
  · rfl
  · dsimp only
    rw [run_bind]
    rcases (l.mapM f).run t with ⟨e | bs, u⟩ <;> rfl

theorem run_map (g : α → β) (m : ExceptT ε (StateM σ) α) (s : σ) :
    (g <$> m).run s = ((m.run s).1.map g, (m.run s).2) := by
  simp only [Functor.map, ExceptT.map, ExceptT.mk, ExceptT.run, bind, StateT.bind]
  rcases m s with ⟨_ | _, t⟩ <;> rfl

theorem run_discard_eq_ok {m : ExceptT ε (StateM σ) α} {s t : σ} {u : PUnit} :
    (discard m).run s = (.ok u, t) ↔ ∃ a, m.run s = (.ok a, t) := by
  have hrun : (discard m).run s = ((m.run s).1.map fun _ => ⟨⟩, (m.run s).2) := run_map _ _ _
  rw [hrun, Prod.mk.injEq, map_eq_ok]
  constructor
  · rintro ⟨⟨a, ha, -⟩, rfl⟩
    exact ⟨a, Prod.ext ha rfl⟩
  · rintro ⟨a, ha⟩
    rw [ha]
    exact ⟨⟨a, rfl, rfl⟩, rfl⟩

theorem run_mapM_cons (f : α → StateM σ β) (a : α) (l : List α) (s : σ) :
    ((a :: l).mapM f).run s =
      ((f a s).1 :: ((l.mapM f).run (f a s).2).1, ((l.mapM f).run (f a s).2).2) := by
  rw [List.mapM_cons]
  rfl

/-- A run from a state with `P` ends with `Q` where it succeeds and with `E` where it fails. -/
def Triple (P : σ → Prop) (m : ExceptT ε (StateM σ) α) (Q : α → σ → Prop) (E : ε → σ → Prop) : Prop :=
  ∀ s, P s → match m.run s with
    | (.ok a, t) => Q a t
    | (.error e, t) => E e t

namespace Triple

variable {P P' : σ → Prop} {Q Q' : α → σ → Prop} {R : β → σ → Prop} {E E' : ε → σ → Prop}
  {m : ExceptT ε (StateM σ) α} {f : α → ExceptT ε (StateM σ) β}

theorem ok {s t : σ} {a : α} (h : Triple P m Q E) (hs : P s) (hrun : m.run s = (.ok a, t)) : Q a t := by
  have hm := h s hs
  rwa [hrun] at hm

theorem error {s t : σ} {e : ε} (h : Triple P m Q E) (hs : P s) (hrun : m.run s = (.error e, t)) :
    E e t := by
  have hm := h s hs
  rwa [hrun] at hm

theorem intro (hok : ∀ s a t, P s → m.run s = (.ok a, t) → Q a t)
    (herror : ∀ s e t, P s → m.run s = (.error e, t) → E e t) : Triple P m Q E := by
  intro s hs
  rcases hrun : m.run s with ⟨e | a, t⟩
  · exact herror s e t hs hrun
  · exact hok s a t hs hrun

theorem mono (h : Triple P m Q E) (hP : ∀ s, P' s → P s) (hQ : ∀ a s, Q a s → Q' a s)
    (hE : ∀ e s, E e s → E' e s) : Triple P' m Q' E' := by
  intro s hs
  have hm := h s (hP s hs)
  split at hm
  · exact hQ _ _ hm
  · exact hE _ _ hm

theorem pure {a : α} (h : ∀ s, P s → Q a s) : Triple P (Pure.pure a) Q E := h

theorem throw {e : ε} (h : ∀ s, P s → E e s) :
    Triple P (MonadExcept.throw e : ExceptT ε (StateM σ) α) Q E := h

theorem throw_bind {e : ε} (h : ∀ s, P s → E e s) :
    Triple P (MonadExcept.throw e >>= f) R E := h

theorem bind (hm : Triple P m Q E) (hf : ∀ a, Triple (Q a) (f a) R E) : Triple P (m >>= f) R E := by
  intro s hs
  rw [run_bind]
  have hs' := hm s hs
  split at hs'
  · exact hf _ _ hs'
  · exact hs'

theorem bind_pure {I : σ → Prop} {b : β} (h : Triple P m (fun _ => I) E) :
    Triple P (m >>= fun _ => Pure.pure b) (fun _ => I) E := h.bind fun _ => pure fun _ hs => hs

theorem get_bind {f : σ → ExceptT ε (StateM σ) β} (h : ∀ s, P s → Triple (· = s) (f s) R E) :
    Triple P (get >>= f) R E := by
  intro s hs
  rw [run_bind, run_get]
  exact h s hs s rfl

theorem modify {f : σ → σ} {Q : PUnit → σ → Prop} (h : ∀ s, P s → Q ⟨⟩ (f s)) :
    Triple P (modify f : ExceptT ε (StateM σ) PUnit) Q E := h

theorem ofExcept_bind {x : Except ε α} (hok : ∀ a, x = .ok a → Triple P (f a) R E)
    (herror : ∀ s e, P s → x = .error e → E e s) : Triple P (MonadExcept.ofExcept x >>= f) R E := by
  intro s hs
  rw [run_bind, run_ofExcept]
  cases hx : x with
  | error e => exact herror s e hs hx
  | ok a => exact hok a hx s hs

theorem ofExcept {x : Except ε α} (hok : ∀ s a, P s → x = .ok a → Q a s)
    (herror : ∀ s e, P s → x = .error e → E e s) : Triple P (ofExcept x) Q E := by
  intro s hs
  rw [run_ofExcept]
  cases hx : x with
  | error e => exact herror s e hs hx
  | ok a => exact hok s a hs hx

theorem discard (h : Triple P m Q E) : Triple P (discard m) (fun _ s => ∃ a, Q a s) E := by
  intro s hs
  have hrun : (Functor.discard m).run s = ((m.run s).1.map fun _ => ⟨⟩, (m.run s).2) := run_map _ _ _
  have hm := h s hs
  rw [hrun]
  rcases hr : m.run s with ⟨e | a, t⟩
  · rw [hr] at hm
    exact hm
  · rw [hr] at hm
    exact ⟨a, hm⟩

theorem forM {γ : Type} {f : γ → ExceptT ε (StateM σ) PUnit} {I : List γ → σ → Prop}
    (step : ∀ (x : γ) (rest : List γ), Triple (I (x :: rest)) (f x) (fun _ => I rest) E)
    (xs : List γ) : Triple (I xs) (xs.forM f) (fun _ => I []) E := by
  induction xs with
  | nil => exact pure fun _ hs => hs
  | cons x xs ih => exact (step x xs).bind fun _ => ih

end Triple

section Partial

variable {f : α → ExceptT ε Option β} {a : α}

theorem run_bind_of_some_ok {m : ExceptT ε Option α} (h : m.run = some (.ok a)) :
    (m >>= f).run = (f a).run := by
  rw [ExceptT.run_bind, h]
  rfl

theorem run_lift_bind {x : Option α} (h : x = some a) : ((x : ExceptT ε Option α) >>= f).run = (f a).run := by
  subst h
  rfl

theorem run_ofExcept_bind {x : Except ε α} (h : x = .ok a) :
    ((MonadExcept.ofExcept x : ExceptT ε Option α) >>= f).run = (f a).run := by
  subst h
  rfl

end Partial

def Ends (m : ExceptT ε (StateT σ Option) α) (s : σ) (r : Except ε α) (t : σ) : Prop :=
  m.run.run s = some (r, t)

namespace Ends

variable {m : ExceptT ε (StateT σ Option) α} {f : α → ExceptT ε (StateT σ Option) β} {s t u : σ} {a : α}
  {e : ε} {r : Except ε β}

theorem pure (a : α) (s : σ) : Ends (Pure.pure a : ExceptT ε (StateT σ Option) α) s (.ok a) s := rfl

theorem throw (e : ε) (s : σ) :
    Ends (MonadExcept.throw e : ExceptT ε (StateT σ Option) α) s (.error e) s := rfl

theorem bind (h : Ends m s (.ok a) t) (hf : Ends (f a) t r u) : Ends (m >>= f) s r u := by
  simp only [Ends, ExceptT.run_bind, StateT.run_bind] at h hf ⊢
  rw [h]
  exact hf

theorem bind_error (h : Ends m s (.error e) t) : Ends (m >>= f) s (.error e) t := by
  simp only [Ends, ExceptT.run_bind, StateT.run_bind] at h ⊢
  rw [h]
  rfl

theorem get_bind {f : σ → ExceptT ε (StateT σ Option) β} (hf : Ends (f s) s r u) :
    Ends (get >>= f) s r u := bind (m := get) (a := s) rfl hf

theorem modify (f : σ → σ) (s : σ) :
    Ends (modify f : ExceptT ε (StateT σ Option) PUnit) s (.ok ⟨⟩) (f s) := rfl

end Ends

end ObjectGraph.Stateful
