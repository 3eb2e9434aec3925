import Mathlib.Algebra.Order.Ring.Nat
import ObjectGraph.History.Draft
import ObjectGraph.Proofs.Key
import ObjectGraph.Proofs.Overlay.Contents
import ObjectGraph.Proofs.Stateful

namespace ObjectGraph

open Stateful (Triple)

def Block.log (b : Block) : List (Id × Event) := b.items.reverse.map fun i => (b.object, i.event)

def Block.Tidy (b : Block) : Prop := ∀ i ∈ b.items, i.stray = []

def Event.type? : Event → Option Id
  | created type | deleted type => some type
  | _ => none

namespace Draft

def lengthOf (blocks : List Block) : Nat := headLength + (blocks.map Block.length).sum

def logOf (blocks : List Block) : List (Id × Event) := blocks.reverse.flatMap Block.log

def opened (object : Id) (blocks : List Block) : List Block :=
  if blocks.head?.map Block.object = some object then blocks else ⟨object, Id.nil, []⟩ :: blocks

def withItem (i : Item) : List Block → List Block :=
  List.modifyHead fun b => { b with items := i :: b.items }

def withEvent (object : Id) (e : Event) (blocks : List Block) : List Block :=
  withItem ⟨e, []⟩ (opened object blocks)

def recording (blocks : List Block) (entry : Id × Event) : List Block :=
  (withEvent entry.1 entry.2 blocks).modifyHead fun b => { b with type := entry.2.type?.getD b.type }

section Blocks

variable {a : Id} {e : Event} {blocks : List Block}

theorem lengthOf_cons (b : Block) (blocks : List Block) : lengthOf (b :: blocks) = lengthOf blocks + b.length := by
  simp only [lengthOf, List.map_cons, List.sum_cons]
  omega

theorem length_le_lengthOf (blocks : List Block) : blocks.length ≤ lengthOf blocks := by
  induction blocks with
  | nil => exact Nat.zero_le _
  | cons b rest ih =>
    rw [lengthOf_cons, List.length_cons, Block.length, Block.headLength]
    omega

theorem opened_eq_cons (a : Id) (blocks : List Block) :
    ∃ type items rest, opened a blocks = ⟨a, type, items⟩ :: rest ∧
      logOf (⟨a, type, items⟩ :: rest) = logOf blocks := by
  rw [opened]
  split
  next hhead =>
    obtain ⟨b, hb, rfl⟩ := Option.map_eq_some_iff.mp hhead
    obtain ⟨rest, rfl⟩ := List.head?_eq_some_iff.mp hb
    exact ⟨b.type, b.items, rest, rfl, rfl⟩
  · refine ⟨Id.nil, [], blocks, rfl, ?_⟩
    simp [logOf, Block.log]

theorem lengthOf_withItem (i : Item) (a : Id) (blocks : List Block) :
    lengthOf (withItem i (opened a blocks)) = lengthOf (opened a blocks) + i.length := by
  obtain ⟨type, items, rest, hopened, -⟩ := opened_eq_cons a blocks
  rw [hopened]
  simp only [withItem, List.modifyHead_cons, lengthOf_cons, Block.length, Item.totalLength]
  omega

theorem tidy_opened (h : ∀ b ∈ blocks, b.Tidy) : ∀ b ∈ opened a blocks, b.Tidy := by
  rw [opened]
  split
  · exact h
  · intro b hb
    rcases List.mem_cons.mp hb with rfl | hb
    · nofun
    · exact h b hb

theorem recording_eq_cons (blocks : List Block) (a : Id) (e : Event) :
    ∃ type items rest, opened a blocks = ⟨a, type, items⟩ :: rest ∧
      recording blocks (a, e) = ⟨a, e.type?.getD type, ⟨e, []⟩ :: items⟩ :: rest ∧
      logOf (⟨a, type, items⟩ :: rest) = logOf blocks := by
  obtain ⟨type, items, rest, hopened, hlog⟩ := opened_eq_cons a blocks
  refine ⟨type, items, rest, hopened, ?_, hlog⟩
  rw [recording, withEvent, hopened]
  rfl

theorem recording_of_untyped (he : e.type? = none) : recording blocks (a, e) = withEvent a e blocks := by
  obtain ⟨type, items, rest, hopened, hrecording, -⟩ := recording_eq_cons blocks a e
  rw [hrecording, withEvent, hopened, he]
  rfl

theorem lengthOf_recording : lengthOf (recording blocks (a, e)) = lengthOf (withEvent a e blocks) := by
  obtain ⟨type, items, rest, hopened, hrecording, -⟩ := recording_eq_cons blocks a e
  rw [hrecording, withEvent, hopened]
  rfl

theorem logOf_recording : logOf (recording blocks (a, e)) = logOf blocks ++ [(a, e)] := by
  obtain ⟨type, items, rest, -, hrecording, hlog⟩ := recording_eq_cons blocks a e
  rw [hrecording, ← hlog]
  simp [logOf, Block.log]

theorem tidy_recording (h : ∀ b ∈ blocks, b.Tidy) : ∀ b ∈ recording blocks (a, e), b.Tidy := by
  obtain ⟨type, items, rest, hopened, hrecording, -⟩ := recording_eq_cons blocks a e
  have hbefore : ∀ b ∈ (⟨a, type, items⟩ :: rest : List Block), b.Tidy := hopened ▸ tidy_opened h
  rw [hrecording]
  intro b hb
  rcases List.mem_cons.mp hb with rfl | hb
  · intro i hi
    rcases List.mem_cons.mp hi with rfl | hi
    · rfl
    · exact hbefore _ List.mem_cons_self i hi
  · exact hbefore b (List.mem_cons_of_mem _ hb)

theorem logOf_foldl_recording (events : List (Id × Event)) :
    logOf (events.foldl recording blocks) = logOf blocks ++ events := by
  induction events generalizing blocks with
  | nil => exact (List.append_nil _).symm
  | cons entry events ih => rw [List.foldl_cons, ih, logOf_recording, List.append_assoc]; rfl

theorem tidy_foldl_recording (events : List (Id × Event)) (h : ∀ b ∈ blocks, b.Tidy) :
    ∀ b ∈ events.foldl recording blocks, b.Tidy := by
  induction events generalizing blocks with
  | nil => exact h
  | cons entry events ih => exact ih (tidy_recording h)

end Blocks

structure Has (capacity used : Nat) (deleted : Option Id) (blocks : List Block) (d : Draft) : Prop where
  blocks_eq : d.blocks = blocks
  deleted_eq : d.deleted = deleted
  used_eq : d.quota.used = used
  capacity_eq : d.quota.capacity = capacity
  used_le : used ≤ capacity

def Full (capacity : Nat) (e : Error) (d : Draft) : Prop :=
  e.IsExhaustion ∧ d.quota.capacity = capacity

variable {capacity used : Nat} {deleted : Option Id} {blocks : List Block}
  {log : List (Id × Event)}

theorem take_triple (length : Nat) :
    Triple (Has capacity used deleted blocks) (take length)
      (fun _ => Has capacity (used + length) deleted blocks) (Full capacity) := by
  apply Triple.get_bind
  intro d hd
  apply Triple.ofExcept_bind
  · rintro quota hquota _ rfl
    rw [Quota.take] at hquota
    split at hquota
    next hroom =>
      cases hquota
      rw [hd.used_eq, hd.capacity_eq] at hroom
      exact ⟨hd.blocks_eq, hd.deleted_eq, by rw [← hd.used_eq], hd.capacity_eq, hroom⟩
    · contradiction
  · rintro _ e rfl he
    rw [Quota.take] at he
    split at he
    · contradiction
    · cases he
      exact ⟨trivial, hd.capacity_eq⟩

theorem blocks_triple {blocks' : List Block} {f : List Block → List Block}
    (hf : f blocks = blocks') :
    Triple (Has capacity used deleted blocks) (modify fun d => { d with blocks := f d.blocks })
      (fun _ => Has capacity used deleted blocks') (Full capacity) := by
  apply Triple.modify
  intro d hd
  exact ⟨by rw [hd.blocks_eq, hf], hd.deleted_eq, hd.used_eq, hd.capacity_eq, hd.used_le⟩

theorem openBlock_triple (a : Id) :
    Triple (Has capacity (lengthOf blocks) deleted blocks) (openBlock a)
      (fun _ => Has capacity (lengthOf (opened a blocks)) deleted (opened a blocks))
      (Full capacity) := by
  apply Triple.get_bind
  intro d hd
  rw [opened, hd.blocks_eq]
  split
  · exact Triple.pure fun _ ht => ht ▸ hd
  · have hlength : lengthOf (⟨a, Id.nil, []⟩ :: blocks) = lengthOf blocks + Block.headLength := by
      simp only [lengthOf, List.map_cons, List.sum_cons, Block.length, Item.totalLength]
      omega
    rw [hlength]
    rintro t rfl
    exact (take_triple Block.headLength).bind (fun _ => blocks_triple rfl) t hd

theorem add_triple (a : Id) {e : Event} (he : e.payload = []) :
    Triple (Has capacity (lengthOf blocks) deleted blocks) (add a e)
      (fun _ => Has capacity (lengthOf (withEvent a e blocks)) deleted (withEvent a e blocks))
      (Full capacity) := by
  have hlength : lengthOf (withEvent a e blocks) =
      lengthOf (opened a blocks) + (Event.headLength + e.bodyLength) := by
    rw [withEvent, lengthOf_withItem, Item.length, he]
    rfl
  rw [hlength]
  apply (openBlock_triple a).bind
  intro _
  exact (take_triple _).bind fun _ => blocks_triple rfl

theorem addChange_triple (a field : Id) (old new : Bytes) :
    Triple (Has capacity (lengthOf blocks) deleted blocks) (addChange a field old new)
      (fun _ => Has capacity (lengthOf (withEvent a (.changed field old new) blocks)) deleted
        (withEvent a (.changed field old new) blocks)) (Full capacity) := by
  have hreplace : ∀ i j : Item, List.modifyHead (fun b => { b with items := i :: b.items.tail })
      (withItem j (opened a blocks)) = withItem i (opened a blocks) := by
    intro i j
    obtain ⟨type, items, rest, hopened, -⟩ := opened_eq_cons a blocks
    rw [hopened]
    rfl
  have hlength : lengthOf (withEvent a (.changed field old new) blocks) =
      lengthOf (withEvent a (.changed Id.nil [] []) blocks) + old.length + new.length := by
    simp only [withEvent, lengthOf_withItem, Item.length, Event.payload, Event.bodyLength,
      List.length_append, List.length_nil]
    omega
  rw [hlength]
  apply (add_triple a rfl).bind
  intro _
  apply (take_triple old.length).bind
  intro _
  apply (blocks_triple (hreplace _ _)).bind
  intro _
  apply (take_triple new.length).bind
  exact fun _ => blocks_triple (hreplace _ _)

structure Logs (capacity : Nat) (deleted : Option Id) (log : List (Id × Event)) (d : Draft) : Prop where
  has : d.Has capacity (lengthOf d.blocks) deleted d.blocks
  log_eq : logOf d.blocks = log
  tidy : ∀ b ∈ d.blocks, b.Tidy

theorem Logs.of_has {blocks : List Block} {d : Draft}
    (h : d.Has capacity (lengthOf blocks) deleted blocks) (hlog : logOf blocks = log)
    (htidy : ∀ b ∈ blocks, b.Tidy) : d.Logs capacity deleted log := by
  obtain rfl := h.blocks_eq
  exact ⟨h, hlog, htidy⟩

abbrev Holds (capacity : Nat) (deleted : Option Id) (blocks : List Block) : Draft → Prop :=
  Has capacity (lengthOf blocks) deleted blocks

def Adds (m : Drafting Unit) (deleted deleted' : Option Id) (events : List (Id × Event)) : Prop :=
  ∀ capacity blocks, Triple (Holds capacity deleted blocks) m
    (fun _ => Holds capacity deleted' (events.foldl recording blocks)) (Full capacity)

theorem Adds.logs {m : Drafting Unit} {deleted' : Option Id} {events : List (Id × Event)}
    (h : Adds m deleted deleted' events) : Triple (Logs capacity deleted log) m
      (fun _ => Logs capacity deleted' (log ++ events)) (Full capacity) := by
  intro d hd
  refine (h capacity d.blocks).mono (fun _ hs => hs) (fun _ d' hd' => ?_) (fun _ _ he => he) d hd.has
  exact .of_has hd' (by rw [logOf_foldl_recording, hd.log_eq]) (tidy_foldl_recording events hd.tidy)

theorem Adds.none : Adds (pure ()) deleted deleted [] := fun _ _ => Triple.pure fun _ hd => hd

theorem Adds.bind {m m' : Drafting Unit} {deleted₁ deleted₂ : Option Id}
    {events events' : List (Id × Event)} (h : Adds m deleted deleted₁ events)
    (h' : Adds m' deleted₁ deleted₂ events') :
    Adds (m >>= fun _ => m') deleted deleted₂ (events ++ events') := by
  intro capacity blocks
  rw [List.foldl_append]
  exact (h capacity blocks).bind fun _ => h' capacity _

theorem Adds.unless {P : Prop} [Decidable P] {m : Drafting Unit} {events : List (Id × Event)}
    (h : Adds m deleted deleted events) :
    Adds (if P then pure () else m) deleted deleted (if P then [] else events) := by
  split
  · exact Adds.none
  · exact h

theorem adds_add (a : Id) {e : Event} (he : e.payload = []) (htype : e.type? = none) :
    Adds (add a e) deleted deleted [(a, e)] := by
  intro capacity blocks
  rw [List.foldl_cons, List.foldl_nil, recording_of_untyped htype]
  exact add_triple a he

theorem adds_addChange (a field : Id) (old new : Bytes) :
    Adds (addChange a field old new) deleted deleted [(a, .changed field old new)] := by
  intro capacity blocks
  rw [List.foldl_cons, List.foldl_nil, recording_of_untyped rfl]
  exact addChange_triple a field old new

theorem adds_addObjectEvent (a : Id) {e : Event} (he : e.payload = []) {type : Id}
    (htype : e.type? = some type) :
    Adds (addObjectEvent a e type) deleted deleted [(a, e)] := by
  intro capacity blocks
  have hlength : lengthOf (recording blocks (a, e)) = lengthOf (withEvent a e blocks) := lengthOf_recording
  rw [List.foldl_cons, List.foldl_nil]
  change Triple _ _ (fun _ => Has capacity (lengthOf (recording blocks (a, e))) deleted _) _
  rw [hlength, recording, htype]
  exact (add_triple a he).bind fun _ => blocks_triple rfl

end Draft

namespace Key

def events (deleted : Option Id) (old new : Option Bytes) : Key → List (Id × Event)
  | object a =>
    match old.bind Id.ofBytes?, new.bind Id.ofBytes? with
    | none, none => []
    | none, some type => [(a, .created type)]
    | some type, none => [(a, .deleted type)]
    | some before, some after =>
      if before = after then [] else [(a, .deleted before), (a, .created after)]
  | field a f =>
    if new.isNone ∧ deleted = some a ∨ old = new then []
    else [(a, .changed f (old.getD []) (new.getD []))]
  | association h =>
    if new.isNone ∧ deleted = some h.object ∨ old = new then []
    else
      match old, new with
      | none, some _ => [(h.object, .linked h.field h.other h.otherField)]
      | some _, none => [(h.object, .unlinked h.field h.other h.otherField)]
      | _, _ => []

def deletes (deleted : Option Id) (old new : Option Bytes) : Key → Option Id
  | object a => if old.isSome ∧ new.isNone then some a else deleted
  | _ => deleted

end Key

namespace Draft

variable {capacity : Nat} {deleted : Option Id} {log : List (Id × Event)} {a : Id} {old new : Option Bytes}

theorem readType_bytes (type : Id) : readType (some type.bytes) = .ok (some type) := by
  simp only [readType, Id.ofBytes?_bytes]

theorem adds_delete (a : Id) :
    Adds (modify fun d => { d with deleted := some a }) deleted (some a) [] := by
  intro capacity blocks
  apply Triple.modify
  intro d hd
  exact ⟨hd.blocks_eq, rfl, hd.used_eq, hd.capacity_eq, hd.used_le⟩

theorem adds_observeObject (key : Bytes) (hold : ∀ v ∈ old, ∃ type : Id, v = type.bytes)
    (hnew : ∀ v ∈ new, ∃ type : Id, v = type.bytes) :
    Adds (observeObject a ⟨key, old, new⟩) deleted ((Key.object a).deletes deleted old new)
      ((Key.object a).events deleted old new) := by
  have hnone : readType none = .ok none := rfl
  cases old with
  | none =>
    cases new with
    | none =>
      simp only [observeObject, hnone, Stateful.ofExcept_ok_bind, Key.events, Key.deletes,
        Option.bind_none]
      exact Adds.none
    | some v =>
      obtain ⟨type, rfl⟩ := hnew v rfl
      simp only [observeObject, hnone, readType_bytes, Stateful.ofExcept_ok_bind, Key.events,
        Key.deletes, Option.bind_none, Option.bind_some, Id.ofBytes?_bytes]
      exact adds_addObjectEvent a rfl rfl
  | some v =>
    obtain ⟨before, rfl⟩ := hold v rfl
    cases new with
    | none =>
      simp only [observeObject, hnone, readType_bytes, Stateful.ofExcept_ok_bind, Key.events,
        Key.deletes, Option.bind_none, Option.bind_some, Id.ofBytes?_bytes]
      exact (adds_addObjectEvent a rfl rfl).bind (adds_delete a)
    | some w =>
      obtain ⟨after, rfl⟩ := hnew w rfl
      simp only [observeObject, readType_bytes, Stateful.ofExcept_ok_bind, Key.events, Key.deletes,
        Option.bind_some, Id.ofBytes?_bytes]
      split
      · exact Adds.none
      · exact (adds_addObjectEvent a rfl rfl).bind (adds_addObjectEvent a rfl rfl)

theorem adds_observe (k : Key)
    (htype : ∀ a, k = .object a → ∀ v, v ∈ old ∨ v ∈ new → ∃ type : Id, v = type.bytes) :
    Adds (observe ⟨k.bytes, old, new⟩) deleted (k.deletes deleted old new)
      (k.events deleted old new) := by
  simp only [observe, Key.ofBytes?_bytes]
  cases k with
  | object a =>
    exact adds_observeObject _ (fun v hv => htype a rfl v (.inl hv)) fun v hv => htype a rfl v (.inr hv)
  | field a f =>
    intro capacity blocks
    apply Triple.get_bind
    intro d hd
    rw [hd.deleted_eq]
    rintro t rfl
    exact (adds_addChange a f _ _).unless capacity blocks t hd
  | association h =>
    intro capacity blocks
    apply Triple.get_bind
    intro d hd
    rw [hd.deleted_eq]
    rintro t rfl
    refine Adds.unless ?_ capacity blocks t hd
    cases old with
    | none =>
      cases new with
      | none => exact Adds.none
      | some v => exact adds_add h.object rfl rfl
    | some v =>
      cases new with
      | none => exact adds_add h.object rfl rfl
      | some w => exact Adds.none

theorem observe_triple (k : Key)
    (htype : ∀ a, k = .object a → ∀ v, v ∈ old ∨ v ∈ new → ∃ type : Id, v = type.bytes) :
    Triple (Logs capacity deleted log) (observe ⟨k.bytes, old, new⟩)
      (fun _ => Logs capacity (k.deletes deleted old new) (log ++ k.events deleted old new))
      (Full capacity) := (adds_observe k htype).logs

end Draft

end ObjectGraph
