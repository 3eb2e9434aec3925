import ObjectGraph.Proofs.History.Resolving

namespace ObjectGraph

open Stateful (Ends Both)

inductive DraftCall where
  | start (time : Int64) (actor : Id)
  | observe (change : Change)
  | resolve {σ : Type} (lookup : TypeLookup σ) (s : σ)

namespace Draft

def call (d : Draft) : DraftCall → Except Error Unit × Draft
  | .start time actor =>
    match d.start time actor with
    | .ok d => (.ok ⟨⟩, d)
    | .error e => (.error e, d)
  | .observe c => (observe c).run d
  | .resolve lookup s => (((resolve lookup).run (d, s)).1, ((resolve lookup).run (d, s)).2.1)

def calls (d : Draft) : List DraftCall → List (Except Error Unit) × Draft
  | [] => ([], d)
  | c :: cs => ((d.call c).1 :: ((d.call c).2.calls cs).1, ((d.call c).2.calls cs).2)

end Draft

namespace LinkedDraft

open Draft (lengthOf)

def call (l : LinkedDraft) : DraftCall → Option (Except Error Unit × LinkedDraft)
  | .start time actor => (start time actor).run.run l
  | .observe c => (observe c).run.run l
  | .resolve lookup s => ((resolve lookup).run.run (l, s)).map fun (r, l, _) => (r, l)

def calls (l : LinkedDraft) : List DraftCall → Option (List (Except Error Unit) × LinkedDraft)
  | [] => some ([], l)
  | c :: cs => do
    let (r, l) ← l.call c
    let (rs, l) ← l.calls cs
    return (r :: rs, l)

section Start

variable {capacity pageSize : Nat} (hcapacity : capacity ≤ Quota.maxCapacity) (hpage : 0 < pageSize)
  (hword : pageSize < 1 <<< 64)

include hcapacity hpage hword

theorem start_room {l : LinkedDraft} {ps : List Bytes} (h : l.arena.Carries capacity pageSize ps)
    (hroom : Draft.headLength ≤ capacity) (time : Int64) (actor : Id) :
    ∃ l', Ends (start time actor) l (.ok ⟨⟩) l' ∧ Lays capacity pageSize l' (Draft.begun capacity time actor) := by
  let l₀ : LinkedDraft := { arena := l.arena.reset }
  obtain ⟨a₁, hallot, h₁⟩ := @allot_room _ _ l₀ [] hcapacity hpage hword h.reset Draft.headLength (by simpa using hroom)
  have h₁ : a₁.Carries capacity pageSize [List.replicate 4 0, List.replicate 2 0, [0, 0], List.replicate 8 0,
      List.replicate 16 0, Bytes.littleEndian 4 0 ++ Bytes.littleEndian 4 0] := h₁.regroup rfl
  obtain ⟨a₂, hmagic, h₂⟩ := put_ends hcapacity l₀ h₁ 0 0 Draft.magic rfl rfl rfl
  obtain ⟨a₃, hversion, h₃⟩ := put_ends hcapacity l₀ h₂ 1 4 (Bytes.littleEndian 2 Draft.version) rfl rfl rfl
  obtain ⟨a₄, htime, h₄⟩ := put_ends hcapacity l₀ h₃ 3 8 (Bytes.littleEndian 8 time.toUInt64.toNat) rfl rfl
    (Bytes.length_littleEndian _ _)
  obtain ⟨a₅, hactor, h₅⟩ := put_ends hcapacity l₀ h₄ 4 16 actor.bytes rfl
    (by simp [Bytes.length_littleEndian, Draft.magic]) actor.length_bytes
  refine ⟨{ l₀ with arena := a₅ }, ?_, ?_⟩
  · exact (Ends.modify _ l).bind (hallot.bind (ends_option_bind rfl (hmagic.bind (hversion.bind (htime.bind hactor)))))
  · refine ⟨hcapacity, hpage, hword, h₅.regroup ?_, rfl, rfl, rfl, rfl, rfl, rfl⟩
    simp [Draft.begun, Draft.bytes, Block.encodeAll]

omit hpage hword in
theorem start_full {l : LinkedDraft} {ps : List Bytes} (h : l.arena.Carries capacity pageSize ps)
    (hfull : ¬ Draft.headLength ≤ capacity) (time : Int64) (actor : Id) :
    ∃ l', Ends (start time actor) l (.error (.arenaExhausted Draft.headLength 0 capacity)) l' := by
  let l₀ : LinkedDraft := { arena := l.arena.reset }
  have hallot := @allot_full _ _ l₀ [] hcapacity h.reset Draft.headLength (by simpa using hfull)
  exact ⟨l₀, (Ends.modify _ l).bind hallot.bind_error⟩

end Start

theorem create_comes (capacity pageSize : UInt64) : ∃ r, Reader.Comes (create capacity.toNat pageSize.toNat) r ∧
    Both (Lays (min capacity.toNat Quota.maxCapacity) pageSize.toNat) r
      (Draft.create capacity.toNat pageSize.toNat) := by
  let limit := min capacity.toNat Quota.maxCapacity
  have hlimit : limit ≤ Quota.maxCapacity := Nat.min_le_right _ _
  by_cases hpage : pageSize.toNat = 0
  · have harena : Arena.create capacity.toNat pageSize.toNat = .error (.invalidArgument .zeroPageSize) := by
      rw [Arena.create, Quota.create, if_pos hpage]
      rfl
    refine ⟨.error (.invalidArgument .zeroPageSize), ?_, ?_⟩
    · rw [create, harena]
      rfl
    · rw [Draft.create, Quota.create, if_pos hpage]
      exact .error _
  · have hquota : Quota.create capacity.toNat pageSize.toNat = .ok ⟨limit, 0⟩ := if_neg hpage
    have hfresh : (⟨⟨limit, 0⟩, pageSize.toNat, .reserve limit⟩ : Arena).Carries limit pageSize.toNat [] :=
      ⟨[], [], Arena.holds_fresh limit pageSize.toNat, rfl⟩
    let l : LinkedDraft := { arena := ⟨⟨limit, 0⟩, pageSize.toNat, .reserve limit⟩ }
    have hcreate {r : Except Error Unit} {l' : LinkedDraft} (hstart : Ends (start 0 Id.nil) l r l') :
        Reader.Comes (create capacity.toNat pageSize.toNat) (r.map fun _ => l') := by
      rw [Reader.Comes, create, Stateful.run_ofExcept_bind (Arena.create_eq_ok hpage), Stateful.run_lift_bind hstart]
      cases r <;> rfl
    rw [Draft.create, hquota, Stateful.ok_bind, Draft.start_eq]
    by_cases hroom : Draft.headLength ≤ limit
    · obtain ⟨l', hstart, hlays⟩ := @start_room limit pageSize.toNat hlimit (Nat.pos_of_ne_zero hpage)
        pageSize.toNat_lt l [] hfresh hroom 0 Id.nil
      rw [if_pos hroom]
      exact ⟨_, hcreate hstart, .ok hlays⟩
    · obtain ⟨l', hstart⟩ := @start_full limit pageSize.toNat hlimit l [] hfresh hroom 0 Id.nil
      rw [if_neg hroom]
      exact ⟨_, hcreate hstart, .error _⟩

theorem Lays.start {capacity pageSize : Nat} {l : LinkedDraft} {d : Draft} (h : Lays capacity pageSize l d)
    (time : Int64) (actor : Id) : d.start time actor = .ok (Draft.begun capacity time actor) ∧
      ∃ l', Ends (start time actor) l (.ok ⟨⟩) l' ∧ Lays capacity pageSize l' (Draft.begun capacity time actor) := by
  have hroom : Draft.headLength ≤ capacity := (Nat.le_add_right _ _).trans h.lengthOf_le
  have hcapacity : d.quota.capacity = capacity := by rw [h.quota_eq]
  refine ⟨?_, start_room h.capacity_le h.page_pos h.page_lt h.carries hroom time actor⟩
  rw [Draft.start_eq, hcapacity, if_pos hroom]

theorem eq_of_both {R : Unit → Unit → Prop} {r r' : Except Error Unit} (h : Both R r r') : r = r' := by
  cases h <;> rfl

theorem call_lays {capacity pageSize : Nat} {l : LinkedDraft} {d : Draft} (h : Lays capacity pageSize l d)
    (c : DraftCall) : ∃ l', l.call c = some ((d.call c).1, l') ∧ Lays capacity pageSize l' (d.call c).2 := by
  cases c with
  | start time actor =>
    obtain ⟨hstart, l', hends, hlays⟩ := h.start time actor
    rw [Draft.call, hstart]
    exact ⟨l', hends, hlays⟩
  | observe c =>
    obtain ⟨r, l', hends, hlays, hboth⟩ := observe_follows c l d h trivial
    have hresult : r = (d.call (.observe c)).1 := eq_of_both hboth
    refine ⟨l', ?_, hlays⟩
    rw [← hresult]
    exact hends
  | resolve lookup s =>
    obtain ⟨l', hends, hlays⟩ := resolve_ends lookup h s
    refine ⟨l', ?_, hlays⟩
    change ((resolve lookup).run.run (l, s)).map _ = _
    rw [hends]
    rfl

theorem calls_lay {capacity pageSize : Nat} {l : LinkedDraft} {d : Draft} (h : Lays capacity pageSize l d)
    (cs : List DraftCall) : ∃ l', l.calls cs = some ((d.calls cs).1, l') ∧ Lays capacity pageSize l' (d.calls cs).2 := by
  induction cs generalizing l d with
  | nil => exact ⟨l, rfl, h⟩
  | cons c cs ih =>
    obtain ⟨l₁, hcall, h₁⟩ := call_lays h c
    obtain ⟨l₂, hcalls, h₂⟩ := ih h₁
    refine ⟨l₂, ?_, h₂⟩
    rw [calls, hcall, Option.bind_eq_bind, Option.bind_some]
    dsimp only
    rw [hcalls]
    rfl

theorem Lays.isEmpty_eq {capacity pageSize : Nat} {l : LinkedDraft} {d : Draft} (h : Lays capacity pageSize l d) :
    l.isEmpty = d.isEmpty := by
  rw [isEmpty, Draft.isEmpty, Bool.eq_iff_iff, decide_eq_true_iff, h.objects_eq, List.isEmpty_iff,
    List.length_eq_zero_iff]

theorem drafts_agree (capacity pageSize : UInt64) : ∃ r, Reader.Comes (create capacity.toNat pageSize.toNat) r ∧
    Both (fun l₀ d₀ => ∀ cs : List DraftCall, ∃ l, l₀.calls cs = some ((d₀.calls cs).1, l) ∧
      l.bytes = some (d₀.calls cs).2.bytes ∧ l.touched = (d₀.calls cs).2.touched ∧
      l.isEmpty = (d₀.calls cs).2.isEmpty) r (Draft.create capacity.toNat pageSize.toNat) := by
  obtain ⟨r, hcreate, hlays⟩ := create_comes capacity pageSize
  refine ⟨r, hcreate, hlays.mono fun l₀ d₀ h cs => ?_⟩
  obtain ⟨l, hcalls, hl⟩ := calls_lay h cs
  exact ⟨l, hcalls, hl.bytes_eq, hl.touched_eq, hl.isEmpty_eq⟩

/-- Whatever a draft has been through, the bytes of the next record are read back, step by step, as the events of
the changes that it observes, if it can observe them all. Types are looked up for them as for the events, and
if one cannot be found out, so it is in both. -/
theorem builds_records {capacity pageSize : UInt64} {l₀ : LinkedDraft}
    (hcreate : Reader.Comes (create capacity.toNat pageSize.toNat) (.ok l₀)) (past : List DraftCall) (time : Int64)
    (actor : Id) (changes : List Change) :
    ∃ l l₁ r l₂, (l₀.calls past).map Prod.snd = some l ∧ Ends (start time actor) l (.ok ⟨⟩) l₁ ∧
      Ends (changes.forM observe) l₁ r l₂ ∧
      r = ((changes.forM Draft.observe).run (Draft.begun (min capacity.toNat Quota.maxCapacity) time actor)).1 ∧
      (r = .ok ⟨⟩ → ∀ {σ : Type} (lookup : TypeLookup σ) (s : σ),
        match (ObjectChanges.ofLog lookup (Change.log none changes)).run s with
        | (.ok objects, t) => ∃ l₃ bs, Ends (resolve lookup) (l₂, s) (.ok ⟨⟩) (l₃, t) ∧ l₃.bytes = some bs ∧
            Draft.ReadsAs bs time actor objects ∧ objects.flatMap ObjectChanges.log = Change.log none changes
        | (.error e, t) => ∃ l₃, Ends (resolve lookup) (l₂, s) (.error e) (l₃, t)) := by
  obtain ⟨r₀, hcomes, hcreated⟩ := create_comes capacity pageSize
  cases Option.some.inj (hcomes.symm.trans hcreate)
  obtain ⟨d₀, h₀⟩ := hcreated.exists_of_ok
  obtain ⟨l, hpast, h⟩ := calls_lay h₀ past
  obtain ⟨-, l₁, hstart, h₁⟩ := h.start time actor
  obtain ⟨r, l₂, hobserve, h₂, hresult⟩ := observe_all_follows changes l₁ _ h₁ trivial
  refine ⟨l, l₁, r, l₂, by rw [hpast]; rfl, hstart, hobserve, eq_of_both hresult, fun hr {σ} lookup s => ?_⟩
  rw [eq_of_both hresult] at hr
  obtain ⟨d, hd⟩ : ∃ d, (changes.forM Draft.observe).run
      (Draft.begun (min capacity.toNat Quota.maxCapacity) time actor) = (.ok ⟨⟩, d) := ⟨_, Prod.ext hr rfl⟩
  rw [hd] at h₂
  have hreads := Draft.observed_readsAs (Nat.min_le_right _ _) h₁.lengthOf_le hd lookup s
  obtain ⟨l₃, hresolve, h₃⟩ := resolve_ends lookup h₂ s
  rcases hofLog : (ObjectChanges.ofLog lookup (Change.log none changes)).run s with ⟨e | objects, t⟩
  · rw [hofLog] at hreads
    obtain ⟨d', hd'⟩ := hreads
    rw [hd'] at hresolve
    exact ⟨l₃, hresolve⟩
  · rw [hofLog] at hreads
    obtain ⟨d', hd', hreads, hflat⟩ := hreads
    rw [hd'] at hresolve h₃
    exact ⟨l₃, _, hresolve, h₃.bytes_eq, hreads, hflat⟩

theorem builds_records_reopened :
    let one := Id.ofNat 1
    let two := Id.ofNat 2
    let changes : List Change :=
      [⟨(Key.object one).bytes, some (Id.ofNat 5).bytes, none⟩,
        ⟨(Key.field one (Id.ofNat 3)).bytes, some [5, 1], none⟩,
        ⟨(Key.field two (Id.ofNat 3)).bytes, none, some []⟩,
        ⟨(Key.association ⟨two, Id.ofNat 3, one, Id.ofNat 4⟩).bytes, some [], none⟩,
        ⟨(Key.field two (Id.ofNat 4)).bytes, some [5, 1], some [5, 1]⟩,
        ⟨(Key.object one).bytes, some (Id.ofNat 5).bytes, some (Id.ofNat 6).bytes⟩]
    let lookup : TypeLookup (List Id) := fun a => do
      modify (a :: ·)
      return some (Id.ofNat 8)
    ∃ l₀ l l₁ l₂ l₃ bs, Reader.Comes (create 1000 64) (.ok l₀) ∧
      (l₀.calls [.observe ⟨[0], none, none⟩]).map Prod.snd = some l ∧
      Ends (start 7 (Id.ofNat 9)) l (.ok ⟨⟩) l₁ ∧ Ends (changes.forM observe) l₁ (.ok ⟨⟩) l₂ ∧
      Ends (resolve lookup) (l₂, []) (.ok ⟨⟩) (l₃, [two]) ∧ l₃.bytes = some bs ∧
      Draft.ReadsAs bs 7 (Id.ofNat 9)
        [⟨one, Id.ofNat 5, [.deleted (Id.ofNat 5)]⟩,
          ⟨two, Id.ofNat 8, [.changed (Id.ofNat 3) [] [], .unlinked (Id.ofNat 3) one (Id.ofNat 4)]⟩,
          ⟨one, Id.ofNat 6, [.deleted (Id.ofNat 5), .created (Id.ofNat 6)]⟩] := by
  intro one two changes lookup
  obtain ⟨r, hcreate, hcreated⟩ := create_comes 1000 64
  have hok : Draft.create (1000 : UInt64).toNat (64 : UInt64).toNat = .ok (Draft.begun 1000 0 Id.nil) := rfl
  rw [hok] at hcreated
  obtain ⟨l₀, rfl⟩ : ∃ l₀, r = .ok l₀ := by
    cases hcreated
    exact ⟨_, rfl⟩
  obtain ⟨l, l₁, r, l₂, hpast, hstart, hobserve, hr, hreads⟩ :=
    builds_records hcreate [.observe ⟨[0], none, none⟩] 7 (Id.ofNat 9) changes
  have hlimit : min (1000 : UInt64).toNat Quota.maxCapacity = 1000 := by decide
  have hobserved : ((changes.forM Draft.observe).run (Draft.begun 1000 7 (Id.ofNat 9))).1 = .ok ⟨⟩ := by
    decide +kernel
  rw [hlimit, hobserved] at hr
  have hlog : Change.log none changes = [(one, .deleted (Id.ofNat 5)), (two, .changed (Id.ofNat 3) [] []),
      (two, .unlinked (Id.ofNat 3) one (Id.ofNat 4)), (one, .deleted (Id.ofNat 5)), (one, .created (Id.ofNat 6))] := by
    decide +kernel
  rw [hlog] at hreads
  obtain ⟨l₃, bs, hresolve, hbytes, hback, -⟩ := hreads hr lookup []
  rw [hr] at hobserve
  exact ⟨l₀, l, l₁, l₂, l₃, bs, hcreate, hpast, hstart, hobserve, hresolve, hbytes, hback⟩

end LinkedDraft

end ObjectGraph
