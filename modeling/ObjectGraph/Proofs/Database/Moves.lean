import ObjectGraph.Proofs.Database.Admission
import ObjectGraph.Proofs.Database.Steps

namespace ObjectGraph.System

inductive Moves (s : System) : Except Error Unit → System → Prop where
  | apart {result : Except Error Unit} {sessions : List Session} :
      (∀ t ∈ sessions, t ∈ s.sessions ∨ (∃ writable, s.database.session writable = .ok t) ∨
        ∃ u ∈ s.sessions, ∃ actor, t = u.withActor actor) →
      Moves s result ⟨s.database, sessions⟩
  | called {call : WriterCall} {session : Session} {result : Except Error Unit} {w : Work}
      {sessions : List Session} : session ∈ s.sessions →
      call.run.run ⟨s.database, session⟩ = (result, w) →
      (∀ t ∈ sessions, t ∈ s.sessions ∨ t = w.session) → Moves s result ⟨w.database, sessions⟩
  | rebuilt {field : Id} {count : Nat} {db : Database} :
      s.database.rebuildSearch field = .ok (count, db) → Moves s (.ok ⟨⟩) ⟨db, s.sessions⟩

theorem Moves.idle (s : System) (result : Except Error Unit) : s.Moves result s :=
  .apart fun _ ht => .inl ht

theorem moves (s : System) (step : Step) : s.Moves (step.perform s).1 (step.perform s).2 := by
  cases step with
  | opened writable =>
    simp only [Step.perform]
    cases hs : s.database.session writable with
    | error e => exact .idle s _
    | ok session =>
      refine .apart fun t ht => ?_
      rcases List.mem_cons.mp ht with rfl | ht
      · exact .inr (.inl ⟨writable, hs⟩)
      · exact .inl ht
  | named index actor =>
    refine .apart fun t ht => ?_
    obtain ⟨i, hi, rfl⟩ := List.mem_iff_getElem.mp ht
    rw [List.getElem_modify]
    split
    · exact .inr (.inr ⟨_, List.getElem_mem _, actor, rfl⟩)
    · exact .inl (List.getElem_mem _)
  | called index call =>
    simp only [Step.perform]
    cases hs : s.sessions[index]? with
    | none => exact .idle s _
    | some session =>
      exact .called (List.mem_of_getElem? hs) (Prod.eta _).symm fun t ht => List.mem_or_eq_of_mem_set ht
  | closed index => exact .apart fun t ht => .inl ((List.eraseIdx_sublist _ _).subset ht)
  | rebuilt field =>
    simp only [Step.perform]
    rcases Database.rebuild_cases s.database field with ⟨n, x, -, hrebuild⟩ | ⟨e, hrebuild⟩
    · have hsearch := Database.rebuildSearch_eq s.database field
      rw [hrebuild] at hsearch ⊢
      exact .rebuilt hsearch
    · rw [hrebuild]
      exact .idle s _

theorem run_invariant {I : System → Prop} {E : Error → Prop} {s : System} {steps : List Step}
    (hstep : ∀ s result s', I s → s.Moves result s' → (∀ e, result = .error e → ¬ E e) → I s') (hs : I s)
    (hanswers : ∀ e, .error e ∈ (s.run steps).1 → ¬ E e) :
    ∀ past, past <+: steps → I (s.run past).2 := by
  induction steps generalizing s with
  | nil =>
    intro past hpast
    rw [List.prefix_nil.mp hpast]
    exact hs
  | cons step steps ih =>
    rw [run_cons] at hanswers
    have hfirst : ∀ e, (step.perform s).1 = .error e → ¬ E e :=
      fun e he => hanswers e (he ▸ List.mem_cons_self)
    intro past hpast
    cases past with
    | nil => exact hs
    | cons first past =>
      obtain ⟨rfl, hrest⟩ := List.cons_prefix_cons.mp hpast
      rw [run_cons]
      exact ih (hstep _ _ _ hs (s.moves first) hfirst) (fun e he => hanswers e (List.mem_cons_of_mem _ he))
        past hrest

structure Orderly (schema : Schema) (config : Config) (s : System) : Prop where
  database : s.database.Orderly schema config
  sessions : ∀ t ∈ s.sessions, t.Orderly s.database.catalog

theorem Orderly.moves {schema : Schema} {config : Config} {s s' : System} {result : Except Error Unit}
    (h : s.Orderly schema config) (hmove : s.Moves result s') :
    s'.Orderly schema config ∧ s'.database.catalog = s.database.catalog := by
  cases hmove with
  | apart hsessions =>
    refine ⟨⟨h.database, fun t ht => ?_⟩, rfl⟩
    rcases hsessions t ht with hold | ⟨writable, hopened⟩ | ⟨u, hu, actor, rfl⟩
    · exact h.sessions t hold
    · exact h.database.session hopened
    · obtain ⟨hcatalog, hvalid, hbase, hstaged⟩ := h.sessions u hu
      exact ⟨hcatalog, hvalid, hbase, hstaged⟩
  | called hsession hrun hsessions =>
    obtain ⟨hdb, hcatalog, hcalled⟩ := Working.orderly_of_call h.database (h.sessions _ hsession) hrun
    refine ⟨⟨hdb, fun t ht => ?_⟩, hcatalog⟩
    rw [hcatalog]
    rcases hsessions t ht with hold | rfl
    · exact h.sessions t hold
    · exact hcalled
  | rebuilt hrebuild =>
    obtain ⟨hdb, hcatalog⟩ := h.database.rebuildSearch hrebuild
    exact ⟨⟨hdb, hcatalog ▸ h.sessions⟩, hcatalog⟩

end ObjectGraph.System
