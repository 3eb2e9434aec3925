import ObjectGraph.Proofs.Session.Restart
import ObjectGraph.Proofs.Storage.Matching

namespace ObjectGraph

open Stateful (Both Lockstep)

structure Redated (v v' : Bytes) : Prop where
  length_eq : v'.length = v.length
  before_eq : v'.take 8 = v.take 8
  after_eq : v'.drop 16 = v.drop 16

structure Tables.Redates (t : Tables) (c c' : CommitId) (order : TableId → KeyOrder)
    (R : TableId → Entry → Entry → Prop) : Prop where
  corresponds : ∀ u, Corresponds (order u) (R u)
  objects : R t.objects = Eq
  search : R t.search = Eq
  record : ∀ v v', Redated v v' → R t.history (c.bytes, v) (c'.bytes, v')
  posting : ∀ object, R t.historyByObject (objectCommitKey object c, []) (objectCommitKey object c', [])

theorem Redated.of_append {head time time' rest : Bytes} (hhead : head.length = 8)
    (htime : time.length = 8) (htime' : time'.length = 8) :
    Redated (head ++ time ++ rest) (head ++ time' ++ rest) := by
  have hbefore (bs : Bytes) : (head ++ bs ++ rest).take 8 = head := by
    rw [List.append_assoc, ← hhead, List.take_left]
  have hafter (bs : Bytes) (hbs : bs.length = 8) : (head ++ bs ++ rest).drop 16 = rest :=
    List.drop_left' (by rw [List.length_append, hhead, hbs])
  refine ⟨?_, ?_, ?_⟩
  · simp only [List.length_append, htime, htime']
  · rw [hbefore, hbefore]
  · rw [hafter time htime, hafter time' htime']

theorem Draft.redated_bytes (d : Draft) (time : Int64) : Redated d.bytes (d.redated time).bytes := by
  have hbytes : ∃ rest, ∀ n, (d.redated n).bytes =
      magic ++ Bytes.littleEndian 2 version ++ [0, 0] ++ Bytes.littleEndian 8 n.toUInt64.toNat ++ rest := by
    refine ⟨d.actor.bytes ++ (Bytes.littleEndian 4 d.blocks.length ++
      (Bytes.littleEndian 4 (if d.blocks.isEmpty then 0 else headLength) ++
        Block.encodeAll headLength d.blocks.reverse)), fun n => ?_⟩
    simp only [bytes, redated, List.append_assoc]
    rfl
  obtain ⟨rest, hrest⟩ := hbytes
  have hsame : (d.redated d.time).bytes = d.bytes := rfl
  rw [← hsame, hrest, hrest]
  exact .of_append rfl (Bytes.length_littleEndian _ _) (Bytes.length_littleEndian _ _)

variable {t : Tables} {c c' : CommitId} {order : TableId → KeyOrder}
  {R : TableId → Entry → Entry → Prop} {x x' : WriteTxn} {schema : Schema} {time : Int64}

theorem Draft.store_redated (hR : t.Redates c c' order R) (h : x.Matches order R x') (d : Draft) :
    Both (WriteTxn.Matches order R) (d.store t c x) ((d.redated time).store t c' x') := by
  have htypes : x'.objectType? t = x.objectType? t := by
    funext object
    rw [WriteTxn.objectType?, WriteTxn.objectType?, h.working.table?_eq hR.objects]
  rw [store, store, htypes]
  change Both _ _ (if d.isEmpty then _ else _)
  split
  · exact .ok h
  · have hresolve : (resolveTypes (x.objectType? t)).run (d.redated time) =
        (((resolveTypes (x.objectType? t)).run d).1,
          ((resolveTypes (x.objectType? t)).run d).2.redated time) := rfl
    rw [hresolve]
    rcases (resolveTypes (x.objectType? t)).run d with ⟨resolved, d'⟩
    apply (Both.refl (S := Eq) (fun _ => rfl) resolved).bind
    rintro _ _ -
    apply (h.put (hR.corresponds _) (hR.record _ _ (d'.redated_bytes time))).bind
    intro y y' hy
    exact Both.foldlM (fun _ _ object hz => hz.put (hR.corresponds _) (hR.posting object)) d'.touched hy

theorem Indexer.flush_matches {i : Indexer} {s : TableId} (hs : R s = Eq) (h : x.Matches order R x') :
    Both (fun p p' => p'.1 = p.1 ∧ p.2.1.Matches order R p'.2.1 ∧ p'.2.2 = p.2.2) (i.flush s x)
      (i.flush s x') := by
  rw [flush, flush]
  have hwrite : ∀ (y y' : WriteTxn) (e : Entry), y.Matches order R y' →
      Both (WriteTxn.Matches order R) (writeKey s y e) (writeKey s y' e) := by
    intro y y' e hy
    rw [writeKey, writeKey]
    split
    · exact hy.put (hs ▸ .eq _) (by rw [hs])
    · exact (hy.delete hs e.1.dropLast).map fun _ _ hpair => hpair.2
  apply (Both.foldlM hwrite i.staged.entries h).bind
  exact fun _ _ hy => .ok ⟨rfl, hy, rfl⟩

namespace Recorders

theorem observeDraft_redated (change : Change) (r : Recorders) :
    (observeDraft change).run (r.redated time) =
      (((observeDraft change).run r).1, ((observeDraft change).run r).2.redated time) := by
  obtain ⟨draft, indexer⟩ := r
  cases draft with
  | none => rfl
  | some d =>
    have hrun (d : Draft) : (observeDraft change).run ⟨some d, indexer⟩ =
      (((Draft.observe change).run d).1, ⟨some ((Draft.observe change).run d).2, indexer⟩) := rfl
    change (observeDraft change).run ⟨some (d.redated time), indexer⟩ = _
    rw [hrun, hrun, (Draft.confined_observe change).redated]
    rfl

theorem observeIndex_redated (change : Change) (r : Recorders) :
    (observeIndex schema change).run (r.redated time) =
      (((observeIndex schema change).run r).1, ((observeIndex schema change).run r).2.redated time) := by
  obtain ⟨draft, indexer⟩ := r
  cases indexer <;> rfl

def Abreast (order : TableId → KeyOrder) (R : TableId → Entry → Entry → Prop) (time : Int64)
    (xs ys : WriteTxn × Recorders) : Prop :=
  xs.1.Matches order R ys.1 ∧ ys.2 = xs.2.redated time

theorem storeRecord_abreast (hR : t.Redates c c' order R) :
    Lockstep (Abreast order R time) (storeRecord t c) (storeRecord t c') (Abreast order R time)
      (Abreast order R time) := by
  apply Lockstep.get_bind
  rintro ⟨x, draft, indexer⟩ ⟨x', _⟩ ⟨hx, rfl⟩
  cases draft with
  | none =>
    apply Lockstep.pure
    rintro _ _ ⟨rfl, rfl⟩
    exact ⟨hx, rfl⟩
  | some d =>
    apply Lockstep.ofExcept_bind (d.store_redated hR hx)
    · exact fun y y' hy _ _ _ => ⟨.ok rfl, hy, rfl⟩
    · rintro _ _ ⟨rfl, rfl⟩
      exact ⟨hx, rfl⟩

theorem flushIndex_abreast (hR : R t.search = Eq) :
    Lockstep (Abreast order R time) (flushIndex t) (flushIndex t) (Abreast order R time) (Abreast order R time) := by
  apply Lockstep.get_bind
  rintro ⟨x, draft, indexer⟩ ⟨x', _⟩ ⟨hx, rfl⟩
  cases indexer with
  | none =>
    apply Lockstep.pure
    rintro _ _ ⟨rfl, rfl⟩
    exact ⟨hx, rfl⟩
  | some i =>
    apply Lockstep.ofExcept_bind (Indexer.flush_matches (i := i) hR hx)
    · rintro ⟨n, y, i'⟩ ⟨_, y', _⟩ ⟨rfl, hy, rfl⟩ _ _ _
      exact ⟨.ok rfl, hy, rfl⟩
    · rintro _ _ ⟨rfl, rfl⟩
      exact ⟨hx, rfl⟩

end Recorders

namespace Replay

open Recorders (Abreast observeDraft_redated observeIndex_redated)

theorem announce_abreast {observer : Observer Recorders} {change : Change}
    (h : ∀ r, (observer change).run (r.redated time) =
      (((observer change).run r).1, ((observer change).run r).2.redated time)) :
    Lockstep (Abreast order R time) (announce observer change) (announce observer change) (Abreast order R time)
      (Abreast order R time) := by
  rintro ⟨x, r⟩ ⟨x', _⟩ ⟨hx, rfl⟩
  rw [announce_run, announce_run, h]
  refine ⟨.refl (fun _ => rfl) _, ?_⟩
  dsimp only
  split <;> exact ⟨hx, rfl⟩

theorem write_abreast {u : TableId} (hu : R u = Eq) (change : Change) :
    Lockstep (Abreast order R time) (write u change) (write u change) (Abreast order R time) (Abreast order R time) := by
  apply Lockstep.get_bind
  rintro ⟨x, r⟩ ⟨x', _⟩ ⟨hx, rfl⟩
  dsimp only
  cases change.new with
  | some v =>
    apply Lockstep.ofExcept_bind (hx.put (t := u) (hu ▸ .eq _) (by rw [hu]))
    · exact fun y y' hy _ _ _ => ⟨.ok rfl, hy, rfl⟩
    · rintro _ _ ⟨rfl, rfl⟩
      exact ⟨hx, rfl⟩
  | none =>
    apply Lockstep.ofExcept_bind (hx.delete hu change.key)
    · exact fun y y' hy _ _ _ => ⟨.ok rfl, hy.2, rfl⟩
    · rintro _ _ ⟨rfl, rfl⟩
      exact ⟨hx, rfl⟩

theorem entry_abreast {u : TableId} (hu : R u = Eq) (e : Entry) :
    Lockstep (Abreast order R time) (entry u [Recorders.observeDraft, Recorders.observeIndex schema] e)
      (entry u [Recorders.observeDraft, Recorders.observeIndex schema] e) (Abreast order R time)
      (Abreast order R time) := by
  apply Lockstep.get_bind
  rintro ⟨x, r⟩ ⟨x', _⟩ ⟨hx, rfl⟩
  have htable : x'.working.table? u = x.working.table? u := hx.working.table?_eq hu
  dsimp only
  rw [htable]
  apply Lockstep.ofExcept_bind (Both.refl (fun _ => rfl) _)
  · rintro table _ rfl
    have hobserve (change : Change) : Lockstep (Abreast order R time)
        ([Recorders.observeDraft, Recorders.observeIndex schema].forM (announce · change))
        ([Recorders.observeDraft, Recorders.observeIndex schema].forM (announce · change))
        (Abreast order R time) (Abreast order R time) :=
      (announce_abreast (observeDraft_redated change)).bind fun _ =>
        (announce_abreast (observeIndex_redated change)).bind fun _ => Lockstep.pure fun _ _ h => h
    apply Lockstep.bind (Q := Abreast order R time)
    · apply (hobserve _).mono _ (fun _ _ h => h) fun _ _ h => h
      rintro _ _ ⟨rfl, rfl⟩
      exact ⟨hx, rfl⟩
    · exact fun _ => write_abreast hu _
  · rintro _ _ ⟨rfl, rfl⟩
    exact ⟨hx, rfl⟩

end Replay

theorem Session.publish_redated {Q : Snapshot → Snapshot → Prop} {s s' : Session} (hs : s.Alike Q s')
    (hR : s.catalog.tables.Redates c c' order R) :
    Lockstep (fun xs ys => xs.1.Matches order R ys.1 ∧ xs.2.Alike ys.2) (s.publish c) (s'.publish c')
      (fun xs ys => xs.1.Matches order R ys.1 ∧ xs.2.Alike ys.2)
      (fun xs ys => xs.1.Matches order R ys.1 ∧ xs.2.Alike ys.2) := by
  rw [hs.eq]
  apply Lockstep.get_bind
  rintro ⟨x, r⟩ ⟨x', r'⟩ ⟨hx, hr⟩
  dsimp only
  have hstart : Both (fun r₁ r₁' => r₁' = r₁.redated (Int64.ofNat c'.millis)) (r.start c s.actor)
      (r'.start c' s.actor) := by
    rw [Recorders.start_congr hr, Recorders.start_redated r c c']
    cases r.start c s.actor with
    | error e => exact .error e
    | ok r₁ => exact .ok rfl
  apply Lockstep.ofExcept_bind hstart
  · rintro r₁ _ rfl
    apply Lockstep.bind (Q := Recorders.Abreast order R (Int64.ofNat c'.millis))
    · exact fun _ _ _ => ⟨.ok rfl, hx, rfl⟩
    intro _
    have hend : ∀ xs ys, Recorders.Abreast order R (Int64.ofNat c'.millis) xs ys →
        xs.1.Matches order R ys.1 ∧ xs.2.Alike ys.2 :=
      fun xs ys h => ⟨h.1, h.2 ▸ Recorders.alike_redated _ _⟩
    refine Lockstep.mono ?_ (fun _ _ h => h) hend hend
    apply Lockstep.bind (Lockstep.discard (Lockstep.bind (Lockstep.forM
      (fun e => Replay.entry_abreast hR.objects e) _) fun _ => Lockstep.pure fun _ _ h => h))
    intro _
    exact (Recorders.storeRecord_abreast hR).bind fun _ => Recorders.flushIndex_abreast hR.search
  · rintro _ _ ⟨rfl, rfl⟩
    exact ⟨hx, hr⟩

end ObjectGraph
