import ObjectGraph.Proofs.Session.Writes

namespace ObjectGraph

open Function (update)
open Stateful (Triple)

def Mirrored (σ : Bytes → Option Bytes) : Prop := ∀ h : Half, σ h.bytes = σ h.mirror.bytes

def Staged.overwrite (σ target : Bytes → Option Bytes) (keys : List Bytes) (k : Bytes) : Option Bytes :=
  if k ∈ keys then target k else σ k

def Staged.remnant (base : Table) (k : Bytes) : Option Bytes :=
  if (base.get? k).isSome then some tombstone else none

section Lookups

variable {σ target : Bytes → Option Bytes} {base : Table} {keys : List Bytes}

theorem Half.bytes_inj {h h' : Half} : h.bytes = h'.bytes ↔ h = h' := by
  rw [← Key.association.injEq h h', ← Key.bytes_inj]
  rfl

theorem Half.mirror_eq_iff {h h' : Half} : h.mirror = h' ↔ h = h'.mirror :=
  ⟨fun hm => hm ▸ rfl, fun hm => hm ▸ rfl⟩

theorem Mirrored.remnant (h : Mirrored base.get?) : Mirrored (Staged.remnant base) := by
  intro half
  rw [Staged.remnant, Staged.remnant, h half]

theorem Mirrored.overwrite (h : Mirrored σ) (htarget : Mirrored target)
    (hkeys : ∀ half : Half, half.bytes ∈ keys ↔ half.mirror.bytes ∈ keys) :
    Mirrored (Staged.overwrite σ target keys) := by
  intro half
  simp only [Staged.overwrite, hkeys half, h half, htarget half]

theorem Mirrored.update (h : Mirrored σ) {k : Bytes} (hk : ∀ half : Half, half.bytes ≠ k)
    (v : Option Bytes) : Mirrored (update σ k v) := by
  intro half
  rw [Function.update_of_ne (hk half), Function.update_of_ne (hk half.mirror), h half]

theorem Staged.overwrite_cons (k : Bytes) :
    overwrite (update σ k (target k)) target keys = overwrite σ target (k :: keys) := by
  funext j
  simp only [overwrite, List.mem_cons]
  by_cases hj : j = k
  · rw [if_pos (Or.inl hj), hj, Function.update_self, ite_self]
  · rw [Function.update_of_ne hj]
    simp only [hj, false_or]

theorem Key.mem_filterMap_mirror? {half : Half} :
    half.bytes ∈ keys.filterMap mirror? ↔ half.mirror.bytes ∈ keys := by
  rw [List.mem_filterMap]
  constructor
  · rintro ⟨bs, hbs, hmirror⟩
    rw [mirror?] at hmirror
    split at hmirror
    next h hkey =>
      rwa [← Half.mirror_eq_iff.mp (Half.bytes_inj.mp (Option.some.inj hmirror)),
        ← show bs = h.bytes from bytes_eq_of_ofBytes? hkey]
    · contradiction
  · exact fun h => ⟨_, h, mirror?_bytes (.association half.mirror)⟩

theorem Key.bytes_ne_of_not_association {k : Key} (hk : ∀ half, k ≠ .association half) (half : Half) :
    half.bytes ≠ k.bytes :=
  fun h => hk half (@Key.bytes_injective k (.association half) h.symm)

end Lookups

structure Session.Staging (base : Table) (σ : Bytes → Option Bytes) (s : Session) : Prop where
  valid : s.workspace.Valid KeyOrder.lexicographic
  base_eq : s.workspace.base = base
  staged_eq : s.workspace.overlay.get? = σ

structure Session.Balanced (s : Session) : Prop where
  valid : s.workspace.Valid KeyOrder.lexicographic
  base : Mirrored s.workspace.base.get?
  staged : Mirrored s.workspace.overlay.get?

variable {base : Table} {σ target : Bytes → Option Bytes}

theorem Session.Staging.balanced {s : Session} (h : s.Staging base σ) (hbase : Mirrored base.get?)
    (hstaged : Mirrored σ) : s.Balanced :=
  ⟨h.valid, h.base_eq ▸ hbase, h.staged_eq ▸ hstaged⟩

theorem Session.Balanced.rollback {s : Session} (h : s.Balanced) : s.rollback.Balanced where
  valid := h.valid.reset.1
  base := h.base
  staged := by
    have hempty := h.valid.reset.1.overlay.get?_of_entries_eq_nil h.valid.overlay.reset.2
    exact fun half => (hempty half.bytes).trans (hempty half.mirror.bytes).symm

theorem Session.Staging.put {s : Session} (h : s.Staging base σ) {k v : Bytes} {w : Workspace}
    (hput : s.workspace.put k v = .ok w) :
    Session.Staging base (update σ k (some (Staged.upsert v))) { s with workspace := w } := by
  obtain ⟨hvalid, hbase, -⟩ := h.valid.put hput
  obtain ⟨o, ho, rfl⟩ := Workspace.put_eq_ok hput
  obtain ⟨-, hentries⟩ := h.valid.overlay.put ho
  refine ⟨hvalid, hbase.trans h.base_eq, ?_⟩
  funext j
  rw [← h.staged_eq, hvalid.overlay.get?_eq, hentries, Dictionary.get?_insert h.valid.overlay.ascending,
    ← h.valid.overlay.get?_eq, Function.update_apply]

theorem Session.Staging.delete {s : Session} (h : s.Staging base σ) {k : Bytes} {w : Workspace}
    (hdelete : s.workspace.delete k = .ok w) :
    Session.Staging base (update σ k (Staged.remnant base k)) { s with workspace := w } := by
  obtain ⟨hvalid, hbase, -⟩ := h.valid.delete hdelete
  refine ⟨hvalid, hbase.trans h.base_eq, ?_⟩
  funext j
  rw [← h.staged_eq, hvalid.overlay.get?_eq, Function.update_apply, Staged.remnant, ← h.base_eq]
  rcases Workspace.delete_eq_ok hdelete with ⟨hpinned, o, ho, rfl⟩ | ⟨hpinned, rfl⟩
  · obtain ⟨-, hentries⟩ := h.valid.overlay.put ho
    rw [if_pos hpinned, hentries, Dictionary.get?_insert h.valid.overlay.ascending,
      ← h.valid.overlay.get?_eq]
  · obtain ⟨-, hentries⟩ := h.valid.overlay.remove k
    rw [hpinned, hentries, Dictionary.get?_erase h.valid.overlay.ascending,
      ← h.valid.overlay.get?_eq]
    rfl

namespace Editing

variable {α β γ : Type} {I : Session → Prop}

theorem put_staging (k : Key) (v : Bytes) :
    Triple (Session.Staging base σ) (put k v)
      (fun _ => Session.Staging base (update σ k.bytes (some (Staged.upsert v))))
      (fun e _ => e.IsExhaustion) := by
  apply Triple.get_bind
  intro s hs
  apply Triple.ofExcept_bind
  · rintro w hw _ rfl
    exact hs.put hw
  · exact fun t e _ he => Workspace.put_error he

theorem erase_staging (bs : Bytes) :
    Triple (Session.Staging base σ) (erase bs)
      (fun _ => Session.Staging base (update σ bs (Staged.remnant base bs)))
      (fun e _ => e.IsExhaustion) := by
  apply Triple.get_bind
  intro s hs
  apply Triple.ofExcept_bind
  · rintro w hw _ rfl
    exact hs.delete hw
  · exact fun t e _ he => Workspace.delete_error he

theorem forM_staging (target : Bytes → Option Bytes) (key : γ → Bytes) {f : γ → Editing Unit}
    (h : ∀ x σ, Triple (Session.Staging base σ) (f x)
      (fun _ => Session.Staging base (update σ (key x) (target (key x)))) (fun e _ => e.IsExhaustion))
    (xs : List γ) :
    Triple (Session.Staging base σ) (xs.forM f)
      (fun _ => Session.Staging base (Staged.overwrite σ target (xs.map key)))
      (fun e _ => e.IsExhaustion) := by
  induction xs generalizing σ with
  | nil => exact Triple.pure fun s hs => hs
  | cons x xs ih =>
    apply Triple.bind (h x σ)
    intro _
    rw [List.map_cons, ← Staged.overwrite_cons]
    exact ih

def Upholds (I : Session → Prop) (m : Editing α) : Prop :=
  Triple I m (fun _ => I) fun e s => e.IsExhaustion ∨ I s

theorem Keeps.upholds {m : Editing α} (h : Keeps I m) : Upholds I m :=
  h.mono (fun _ hs => hs) (fun _ _ hs => hs) fun _ _ hs => .inr hs

namespace Upholds

theorem bind {m : Editing α} {f : α → Editing β} (hm : Upholds I m) (hf : ∀ a, Upholds I (f a)) :
    Upholds I (m >>= f) := Triple.bind hm hf

theorem read {f : Session → Editing β} (hf : ∀ s, Upholds I (f s)) : Upholds I (get >>= f) := by
  apply Triple.get_bind
  rintro t ht _ rfl
  exact hf _ _ ht

theorem forM {f : γ → Editing PUnit} (h : ∀ x, Upholds I (f x)) (xs : List γ) : Upholds I (xs.forM f) :=
  Triple.forM (I := fun _ => I) (fun x _ => h x) xs

theorem discard {m : Editing α} (h : Upholds I m) : Upholds I (discard m) :=
  (Triple.discard h).mono (fun _ hs => hs) (fun _ _ ⟨_, hs⟩ => hs) fun _ _ hs => hs

end Upholds

abbrev Balances (m : Editing α) : Prop := Upholds Session.Balanced m

theorem balances_of_staging {m : Editing Unit} {τ : Table → (Bytes → Option Bytes) → Bytes → Option Bytes}
    (h : ∀ base σ, Triple (Session.Staging base σ) m (fun _ => Session.Staging base (τ base σ))
      (fun e _ => e.IsExhaustion))
    (hτ : ∀ base σ, Mirrored base.get? → Mirrored σ → Mirrored (τ base σ)) : Balances m := by
  intro s hs
  have hstaging : s.Staging s.workspace.base s.workspace.overlay.get? := ⟨hs.valid, rfl, rfl⟩
  refine (h _ _).mono (fun _ ht => ht) (fun _ t ht => ?_) (fun _ _ he => .inl he) s hstaging
  exact ht.balanced hs.base (hτ _ _ hs.base hs.staged)

theorem balances_put {k : Key} (hk : ∀ half, k ≠ .association half) (v : Bytes) : Balances (put k v) :=
  balances_of_staging (fun _ _ => put_staging k v) fun _ _ _ hstaged =>
    hstaged.update (Key.bytes_ne_of_not_association hk) _

theorem balances_erase {k : Key} (hk : ∀ half, k ≠ .association half) : Balances (erase k.bytes) :=
  balances_of_staging (fun _ _ => erase_staging k.bytes) fun _ _ _ hstaged =>
    hstaged.update (Key.bytes_ne_of_not_association hk) _

theorem balances_forM_erase {keys : List Bytes}
    (hkeys : ∀ half : Half, half.bytes ∈ keys ↔ half.mirror.bytes ∈ keys) : Balances (keys.forM erase) := by
  apply balances_of_staging (fun base σ => forM_staging (Staged.remnant base) id (fun bs _ => erase_staging bs) keys)
  intro base σ hbase hstaged
  rw [List.map_id]
  exact hstaged.overwrite hbase.remnant hkeys

theorem mem_halves_iff (h half : Half) :
    half.bytes ∈ [h, h.mirror].map Half.bytes ↔ half.mirror.bytes ∈ [h, h.mirror].map Half.bytes := by
  simp only [List.map_cons, List.map_nil, List.mem_cons, List.not_mem_nil, or_false, Half.bytes_inj,
    Half.mirror_eq_iff, Half.mirror_mirror]
  exact Or.comm

theorem balances_eraseEdge (h : Half) : Balances (eraseEdge h) := by
  have hpair : eraseEdge h = ([h, h.mirror].map Half.bytes).forM erase := by
    simp [eraseEdge]
  rw [hpair]
  exact balances_forM_erase (mem_halves_iff h)

theorem balances_putEdge (h : Half) :
    Balances (do put (.association h) []; put (.association h.mirror) []) := by
  have hpair : (do put (.association h) []; put (.association h.mirror) [] : Editing Unit) =
      [h, h.mirror].forM fun half => put (.association half) [] := by
    simp
  rw [hpair]
  apply balances_of_staging fun base σ => forM_staging (fun _ => some (Staged.upsert [])) Half.bytes
    (fun half _ => put_staging (.association half) []) [h, h.mirror]
  exact fun base σ _ hstaged => hstaged.overwrite (fun _ => rfl) (mem_halves_iff h)

theorem balances_create (type object : Id) : Balances (create type object) := by
  refine Keeps.requireWritable.upholds.bind fun _ => .read fun s => ?_
  dsimp only
  split
  · exact (Keeps.throw_bind _ _).upholds
  · split
    · exact (Keeps.throw_bind _ _).upholds
    · split
      · exact (Keeps.throw_bind _ _).upholds
      · exact balances_put (k := .object object) nofun _

theorem balances_setValue (object field : Id) (raw : Bytes) : Balances (setValue object field raw) := by
  refine Keeps.requireWritable.upholds.bind fun _ => (Keeps.ask _).upholds.bind fun type =>
    (Keeps.ask _).upholds.bind fun d => (Keeps.ofExcept _).upholds.bind fun _ => ?_
  split
  · exact balances_erase (k := .field object field) nofun
  · exact balances_put (k := .field object field) nofun raw

theorem balances_delete (object : Id) : Balances (delete object) := by
  refine Keeps.requireWritable.upholds.bind fun _ => .read fun s => ?_
  split
  · have hkeys (owned : List Bytes) (half : Half) :
        half.bytes ∈ owned ++ owned.filterMap Key.mirror? ↔
          half.mirror.bytes ∈ owned ++ owned.filterMap Key.mirror? := by
      rw [List.mem_append, List.mem_append, Key.mem_filterMap_mirror?, Key.mem_filterMap_mirror?,
        Half.mirror_mirror]
      exact Or.comm
    have happend (xs ys : List Bytes) :
        (xs ++ ys).forM erase = (do xs.forM erase; ys.forM erase : Editing Unit) := List.forM_append
    have herases := balances_forM_erase (hkeys ((s.workspace.extending object.bytes).map Prod.fst))
    rw [happend] at herases
    have hdelete := herases.bind fun _ => (Keeps.pure true).upholds
    rwa [bind_assoc] at hdelete
  · exact (Keeps.pure _).upholds

theorem balances_unlinkAll (object field : Id) : Balances (unlinkAll object field) :=
  Keeps.requireWritable.upholds.bind fun _ => (Keeps.ask _).upholds.bind fun _ =>
    (Upholds.forM balances_eraseEdge _).bind fun _ => (Keeps.pure _).upholds

theorem balances_unlink (h : Half) : Balances (unlink h) := by
  refine Keeps.requireWritable.upholds.bind fun _ => .read fun s => ?_
  split
  · exact (balances_eraseEdge h).bind fun _ => (Keeps.pure _).upholds
  · exact (Keeps.pure _).upholds

theorem balances_link (h : Half) : Balances (link h) := by
  have hclear (a f : Id) (p : Pairing) {rest : Editing Unit} (hrest : Balances rest) :
      Balances (if p.multi = true then rest else do discard (unlinkAll a f); rest) := by
    split
    · exact hrest
    · exact (balances_unlinkAll a f).discard.bind fun _ => hrest
  refine Keeps.requireWritable.upholds.bind fun _ => (Keeps.ask _).upholds.bind fun near =>
    (Keeps.ask _).upholds.bind fun far => ?_
  dsimp only
  split
  · exact (Keeps.throw_bind _ _).upholds
  · refine .read fun s => ?_
    split
    · exact (Keeps.pure _).upholds
    · exact hclear _ _ near (hclear _ _ far (balances_putEdge h))

theorem balances_perform (edit : Edit) : Balances edit.perform := by
  cases edit with
  | create type object => exact balances_create type object
  | createRandom type bits =>
    exact ((balances_create _ _).bind fun _ => (Keeps.pure _).upholds).discard
  | delete object => exact (balances_delete object).discard
  | setValue object field raw => exact balances_setValue object field raw
  | link edge => exact balances_link edge
  | unlink edge => exact (balances_unlink edge).discard
  | unlinkAll object field => exact (balances_unlinkAll object field).discard
  | rollback => exact fun s hs => hs.rollback

end Editing

theorem Schema.composable_balances : Composable fun _ m => Editing.Balances m where
  pure a := (Editing.Keeps.pure a).upholds
  bind := Editing.Upholds.bind
  discard := Editing.Upholds.discard
  ask question := (Editing.Keeps.ask question).upholds
  create := Editing.balances_create
  delete := Editing.balances_delete
  setValue := Editing.balances_setValue

end ObjectGraph
