import ObjectGraph.History.Reader
import ObjectGraph.Proofs.History.Record

namespace ObjectGraph

namespace RecordBytes

variable {bs : Bytes} {offset origin link n : Nat}

theorem number_eq_ok (h : number bs offset = .ok n) : offset + 4 ≤ bs.length ∧ n < 1 <<< 32 := by
  obtain ⟨part, hpart, rfl⟩ := Stateful.map_eq_ok.mp h
  obtain ⟨hle, rfl⟩ := slice_eq_ok hpart
  have hlength : ((bs.drop offset).take 4).length = 4 := by
    rw [List.length_take, List.length_drop]
    omega
  refine ⟨hle, ?_⟩
  have hlt := Bytes.ofLittleEndian_lt ((bs.drop offset).take 4)
  rwa [hlength] at hlt

theorem follow_eq_ok (h : follow bs origin link = .ok (some n)) :
    origin < n ∧ n < bs.length ∧ n < 1 <<< 32 := by
  obtain ⟨target, htarget, h⟩ := Stateful.bind_eq_ok.mp h
  split at h
  · cases h
  · split at h
    next hinside =>
      cases h
      exact ⟨hinside.1, hinside.2, (number_eq_ok htarget).2⟩
    next => cases h

end RecordBytes

namespace Reader

def Comes {α : Type} (m : Reader α) (r : Except Error α) : Prop := m.run = some r

namespace Comes

variable {α β : Type} {m : Reader α} {r : Except Error α}

theorem pure (a : α) : Comes (Pure.pure a) (.ok a) := rfl

theorem throw (e : Error) : Comes (throw e : Reader α) (.error e) := rfl

theorem bind {f : α → Reader β} {g : α → Except Error β} (h : Comes m r)
    (hf : ∀ a, r = .ok a → Comes (f a) (g a)) : Comes (m >>= f) (r >>= g) := by
  rw [Comes, ExceptT.run_bind, h]
  cases r with
  | ok a => exact hf a rfl
  | error e => rfl

theorem map {g : α → β} (h : Comes m r) : Comes (do return g (← m)) (r.map g) := by
  rw [Comes, ExceptT.run_bind, h]
  cases r <;> rfl

theorem lift_bind {x : Option α} {a : α} {f : α → Reader β} {s : Except Error β} (hx : x = some a)
    (h : Comes (f a) s) : Comes ((x : Reader α) >>= f) s := by
  subst hx
  exact h

theorem ite {c : Prop} [Decidable c] {m' : Reader α} {r' : Except Error α} (h : Comes m r)
    (h' : Comes m' r') : Comes (if c then m else m') (if c then r else r') := by split <;> assumption

end Comes

variable {bs : Bytes} {offset length origin link start stop : Nat}

theorem sum_eq {a b : Nat} (h : a + b < 1 <<< 64) : sum a b = some (a + b) := if_pos h

theorem range_eq (h : offset + length ≤ bs.length) :
    range bs offset (offset + length) = some ((bs.drop offset).take length) := by
  rw [range, if_pos ⟨Nat.le_add_right .., h⟩, Nat.add_sub_cancel_left]

theorem range_eq_none (h : bs.length < stop) : range bs start stop = none :=
  if_neg fun hinside => Nat.not_le_of_lt h hinside.2

theorem comes_slice (h : offset + length < 1 <<< 64) :
    Comes (slice bs offset length) (RecordBytes.slice bs offset length) := by
  rw [slice, sum_eq h, Option.bind_some, RecordBytes.slice, Bytes.slice?]
  by_cases hle : offset + length ≤ bs.length
  · rw [range_eq hle, if_pos hle]
    exact .pure _
  · rw [range_eq_none (Nat.lt_of_not_le hle), if_neg hle]
    exact .throw _

theorem comes_number (h : offset + 4 < 1 <<< 64) :
    Comes (number bs offset) (RecordBytes.number bs offset) := (comes_slice h).map

theorem readAt?_eq (h : offset + 16 < 1 <<< 64) : readAt? bs offset = some (Id.readAt? bs offset) := by
  rw [readAt?, sum_eq h, Id.readAt?]
  by_cases hle : offset + 16 ≤ bs.length
  · exact congrArg (fun part => some (Option.bind part Id.ofBytes?)) (range_eq hle)
  · have hshort : ((bs.drop offset).take 16).length ≠ 16 := by
      rw [List.length_take, List.length_drop]
      omega
    rw [Id.ofBytes?, dif_neg hshort]
    exact congrArg (fun part => some (Option.bind part Id.ofBytes?))
      (range_eq_none (Nat.lt_of_not_le hle))

theorem comes_id (h : offset + 16 < 1 <<< 64) : Comes (id bs offset) (RecordBytes.id bs offset) := by
  apply Comes.lift_bind (readAt?_eq h)
  rw [RecordBytes.id]
  cases Id.readAt? bs offset with
  | some a => exact .pure a
  | none => exact .throw _

theorem comes_follow (h : link + 4 < 1 <<< 64) :
    Comes (follow bs origin link) (RecordBytes.follow bs origin link) :=
  (comes_number h).bind fun _ _ => (Comes.pure _).ite ((Comes.pure _).ite (.throw _))

theorem comes_payload (h : offset + 8 < 1 <<< 64) :
    Comes (payload bs offset) (RecordBytes.payload bs offset) := by
  refine (comes_number (by omega)).bind fun start hstart => ?_
  apply Comes.lift_bind (sum_eq (by omega))
  refine (comes_number (by omega)).bind fun length hlength => ?_
  have hstart := (RecordBytes.number_eq_ok hstart).2
  have hlength := (RecordBytes.number_eq_ok hlength).2
  exact (Comes.pure _).ite (comes_slice (by omega))

theorem comes_ids {f : Id → Id → Id → Event} (h : offset + 48 < 1 <<< 64) :
    Comes (do return f (← id bs offset) (← id bs (← sum offset 16)) (← id bs (← sum offset 32)))
      (do
        return f (← RecordBytes.id bs offset) (← RecordBytes.id bs (offset + 16))
          (← RecordBytes.id bs (offset + 32))) := by
  refine (comes_id (by omega)).bind fun field _ => ?_
  apply Comes.lift_bind (sum_eq (by omega))
  refine (comes_id (by omega)).bind fun other _ => ?_
  apply Comes.lift_bind (sum_eq (by omega))
  exact (comes_id (by omega)).bind fun otherField _ => .pure _

theorem comes_event (h : offset < 1 <<< 32) : Comes (event bs offset) (RecordBytes.event bs offset) := by
  have hhead : Event.headLength = 8 := rfl
  have hslice := @comes_slice bs offset Event.headLength (by omega)
  refine hslice.bind fun head hread => ?_
  obtain ⟨hle, rfl⟩ := RecordBytes.slice_eq_ok hread
  apply Comes.lift_bind (sum_eq (by omega))
  have hbyte : byte ((bs.drop offset).take Event.headLength) 0 =
      some (((bs.drop offset).take Event.headLength).headD 0) := by
    rw [byte, ← List.head?_eq_getElem?]
    cases htake : (bs.drop offset).take Event.headLength with
    | nil =>
      have hlength := congrArg List.length htake
      rw [List.length_take, List.length_drop, List.length_nil] at hlength
      omega
    | cons kind rest => rfl
  apply Comes.lift_bind hbyte
  generalize ((bs.drop offset).take Event.headLength).headD 0 = kind
  dsimp only
  split
  · exact (comes_id (by omega)).map
  · exact (comes_id (by omega)).map
  · refine (comes_id (by omega)).bind fun field _ => ?_
    apply Comes.lift_bind (sum_eq (by omega))
    refine (comes_payload (by omega)).bind fun old _ => ?_
    apply Comes.lift_bind (sum_eq (by omega))
    exact (comes_payload (by omega)).bind fun new _ => .pure _
  · exact @comes_ids bs (offset + Event.headLength) _ (by omega)
  · exact @comes_ids bs (offset + Event.headLength) _ (by omega)
  · try split
    all_goals first | contradiction | exact .throw _

theorem comes_view (bs : Bytes) : Comes (view bs) (RecordView.ofBytes bs) := by
  have hhead : Draft.headLength = 40 := rfl
  refine (comes_slice (by decide)).bind fun head hread => ?_
  obtain ⟨hle, rfl⟩ := RecordBytes.slice_eq_ok hread
  rw [List.drop_zero]
  have hfour : 4 < bs.length := by omega
  have hfive : 5 < bs.length := by omega
  have hmagic := @range_eq (bs.take Draft.headLength) 0 4
    (by rw [List.length_take]; omega)
  have hversion : ((bs.take Draft.headLength).drop 4).take 2 = [bs[4], bs[5]] := by
    rw [List.drop_take, List.take_take, List.drop_eq_getElem_cons hfour, List.drop_eq_getElem_cons hfive]
    rfl
  apply Comes.lift_bind hmagic
  rw [hversion]
  apply Comes.ite
  · exact .throw _
  · apply Comes.lift_bind (List.getElem?_eq_getElem hfour)
    apply Comes.lift_bind (List.getElem?_eq_getElem hfive)
    exact (Comes.throw _).ite (.pure _)

theorem time_eq {v : RecordView} (h : Draft.headLength ≤ v.bytes.length) : time v = some v.time := by
  have hrange := @range_eq v.bytes 8 8 (Nat.le_trans (by decide) h)
  rw [time, hrange]
  rfl

theorem actor_eq (v : RecordView) : actor v = some v.actor := by
  rw [actor, readAt?_eq (by decide)]
  rfl

theorem object_eq {b : BlockView} (h : b.offset < 1 <<< 32) : object b = some b.object := by
  rw [object, readAt?_eq (by omega)]
  rfl

theorem type_eq {b : BlockView} (h : b.offset < 1 <<< 32) : type b = some b.type := by
  have hsum : sum b.offset 16 = some (b.offset + 16) := sum_eq (by omega)
  rw [type, hsum, Option.bind_eq_bind, Option.bind_some, readAt?_eq (by omega)]
  rfl

theorem proceed_eq (h : link + 4 < 1 <<< 64) :
    proceed bs origin link = some (.ofLink (RecordBytes.follow bs origin link)) := by
  rw [proceed, comes_follow h]
  rfl

def Short (link : Except Error (Option Nat)) : Prop :=
  ∀ offset, link = .ok (some offset) → offset < 1 <<< 32

theorem short_follow : Short (RecordBytes.follow bs origin link) := fun _ h =>
  (RecordBytes.follow_eq_ok h).2.2

namespace Iteration

variable {α β σ : Type} {i : Iteration σ α} {s s' : σ} {a : α} {as : List α}

theorem items_eq (i : Iteration σ α) (s : σ) : i.items s =
    match i.next s with
    | none => none
    | some none => some []
    | some (some (a, s')) => (i.items s').map (a :: ·) := by
  rw [items]
  split
  next h => rw [h]
  next h => rw [h]
  next h => rw [h]

theorem collect_eq (i : Iteration σ α) (make : α → Reader β) (s : σ) : i.collect make s =
    match i.next s with
    | none => (none : Option (Except Error (List β)))
    | some none => return []
    | some (some (a, s')) => return (← make a) :: (← i.collect make s') := by
  rw [collect]
  split
  next h => rw [h]
  next h => rw [h]
  next h => rw [h]

theorem items_done (h : i.next s = some none) : i.items s = some [] := by rw [items_eq, h]

theorem items_cons (h : i.next s = some (some (a, s'))) (hrest : i.items s' = some as) :
    i.items s = some (a :: as) := by
  rw [items_eq, h]
  exact congrArg (Option.map (a :: ·)) hrest

theorem comes_collect {make : α → Reader β} {made : α → Except Error β} (h : i.items s = some as)
    (hmake : ∀ a ∈ as, Comes (make a) (made a)) : Comes (i.collect make s) (as.mapM made) := by
  induction s using items.induct i generalizing as with
  | case1 s hnext =>
    rw [items_eq, hnext] at h
    contradiction
  | case2 s hnext =>
    rw [items_eq, hnext] at h
    cases h
    rw [collect_eq, hnext]
    exact .pure _
  | case3 s a s' hnext ih =>
    rw [items_eq, hnext] at h
    obtain ⟨rest, hrest, rfl⟩ := Option.map_eq_some_iff.mp h
    rw [collect_eq, hnext, List.mapM_cons]
    refine (hmake a List.mem_cons_self).bind fun b _ => ?_
    refine (ih hrest fun c hc => hmake c (List.mem_cons_of_mem a hc)).bind fun bs _ => ?_
    exact .pure _

end Iteration

theorem nextEvent_at (h : offset < 1 <<< 32) :
    nextEvent bs (.before offset) =
      some (some (RecordBytes.event bs offset, .ofLink (RecordBytes.follow bs offset (offset + 4)))) := by
  have hsum : sum offset 4 = some (offset + 4) := sum_eq (by omega)
  rw [nextEvent, hsum, Option.bind_eq_bind, Option.bind_some, proceed_eq (by omega),
    Option.bind_eq_bind, Option.bind_some, comes_event h]
  rfl

theorem nextBlock_at (h : offset < 1 <<< 32) :
    nextBlock bs (.before offset) = some (some
      (match RecordBytes.slice bs offset Block.headLength with
        | .error e => (.error e, .done)
        | .ok _ => (.ok ⟨bs, offset⟩, .ofLink (RecordBytes.follow bs offset (offset + 40))))) := by
  have hhead : Block.headLength = 44 := rfl
  have hsum : sum offset 40 = some (offset + 40) := sum_eq (by omega)
  have hslice := @comes_slice bs offset Block.headLength (by omega)
  rw [nextBlock, hslice, Option.bind_eq_bind, Option.bind_some]
  cases RecordBytes.slice bs offset Block.headLength with
  | error e => rfl
  | ok _ =>
    dsimp only
    rw [hsum, Option.bind_eq_bind, Option.bind_some, proceed_eq (by omega)]
    rfl

theorem items_events {link : Except Error (Option Nat)} (h : Short link) :
    (events bs).items (.ofLink link) = some (RecordBytes.events bs link) := by
  induction link using RecordBytes.events.induct bs with
  | case1 e =>
    rw [RecordBytes.events]
    exact Iteration.items_cons rfl (Iteration.items_done rfl)
  | case2 =>
    rw [RecordBytes.events]
    exact Iteration.items_done rfl
  | case3 offset ih =>
    rw [RecordBytes.events]
    exact Iteration.items_cons (nextEvent_at (h offset rfl)) (ih short_follow)

theorem items_blocks {link : Except Error (Option Nat)} (h : Short link) :
    (blocks bs).items (.ofLink link) =
      some ((RecordBytes.blocks bs link).map (·.map fun offset => ⟨bs, offset⟩)) := by
  induction link using RecordBytes.blocks.induct bs with
  | case1 e =>
    rw [RecordBytes.blocks]
    exact Iteration.items_cons rfl (Iteration.items_done rfl)
  | case2 =>
    rw [RecordBytes.blocks]
    exact Iteration.items_done rfl
  | case3 offset e hslice =>
    have hnext := @nextBlock_at bs offset (h offset rfl)
    rw [hslice] at hnext
    rw [RecordBytes.blocks, hslice]
    exact Iteration.items_cons hnext (Iteration.items_done rfl)
  | case4 offset part hslice ih =>
    have hnext := @nextBlock_at bs offset (h offset rfl)
    rw [hslice] at hnext
    rw [RecordBytes.blocks, hslice]
    exact Iteration.items_cons hnext (ih short_follow)

end Reader

end ObjectGraph
