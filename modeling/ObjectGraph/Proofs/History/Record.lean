import ObjectGraph.History.View
import ObjectGraph.Proofs.Bytes
import ObjectGraph.Proofs.History.Draft

namespace ObjectGraph

namespace Bytes

def HasAt (bs : Bytes) (offset : Nat) (part : Bytes) : Prop := part <+: bs.drop offset

variable {bs a b : Bytes} {offset : Nat}

theorem HasAt.left (h : HasAt bs offset (a ++ b)) : HasAt bs offset a :=
  (List.prefix_append a b).trans h

theorem HasAt.right (h : HasAt bs offset (a ++ b)) : HasAt bs (offset + a.length) b := by
  obtain ⟨rest, hrest⟩ := h
  refine ⟨rest, ?_⟩
  rw [← List.drop_drop, ← hrest, List.append_assoc, List.drop_left]

theorem HasAt.le_length (h : HasAt bs offset a) (hne : a ≠ []) : offset + a.length ≤ bs.length := by
  have hpos : 0 < a.length := List.length_pos_iff.mpr hne
  have hle : a.length ≤ (bs.drop offset).length := List.IsPrefix.length_le h
  rw [List.length_drop] at hle
  omega

theorem HasAt.slice?_eq (h : HasAt bs offset a) (hne : a ≠ []) : slice? bs offset a.length = some a := by
  rw [slice?, if_pos (h.le_length hne), ← List.prefix_iff_eq_take.mp h]

end Bytes

namespace Event

theorem length_pointer (offset : Nat) (payload : Bytes) : (pointer offset payload).length = 8 := by
  simp [pointer, Bytes.length_littleEndian]

theorem length_body (offset : Nat) (e : Event) : (e.body offset).length = e.bodyLength := by
  cases e <;> simp [body, bodyLength, length_pointer, Id.length_bytes]

end Event

namespace Item

theorem length_encode (i : Item) (offset next : Nat) : (i.encode offset next).length = i.length := by
  simp [encode, length, Event.length_body, Bytes.length_littleEndian, Event.headLength]
  omega

theorem encodeAll_ne_nil {items : List Item} {offset : Nat} (h : items ≠ []) :
    encodeAll offset items ≠ [] := by
  cases items with
  | nil => contradiction
  | cons i rest => simp [encodeAll, encode]

theorem totalLength_eq_sum (items : List Item) : totalLength items = (items.map length).sum := by
  induction items with
  | nil => rfl
  | cons i rest ih => rw [totalLength, ih, List.map_cons, List.sum_cons]

theorem length_le_totalLength (items : List Item) : items.length ≤ totalLength items := by
  induction items with
  | nil => exact Nat.le_refl 0
  | cons i rest ih =>
    rw [List.length_cons, totalLength, length, Event.headLength]
    omega

theorem length_encodeAll (items : List Item) (offset : Nat) :
    (encodeAll offset items).length = totalLength items := by
  induction items generalizing offset with
  | nil => rfl
  | cons i rest ih => rw [encodeAll, List.length_append, length_encode, ih, totalLength]

end Item

namespace Block

def changes (b : Block) : ObjectChanges := ⟨b.object, b.type, b.items.reverse.map Item.event⟩

theorem length_encode (b : Block) (offset next : Nat) : (b.encode offset next).length = b.length := by
  have hitems : Item.totalLength b.items.reverse = Item.totalLength b.items := by
    rw [Item.totalLength_eq_sum, Item.totalLength_eq_sum, List.map_reverse, List.sum_reverse]
  simp only [encode, length, List.length_append, Item.length_encodeAll, hitems,
    Bytes.length_littleEndian, Id.length_bytes, headLength]

theorem encodeAll_ne_nil {bl : List Block} {offset : Nat} (h : bl ≠ []) : encodeAll offset bl ≠ [] := by
  cases bl with
  | nil => contradiction
  | cons b rest =>
    apply List.ne_nil_of_length_pos
    rw [encodeAll, List.length_append, length_encode, length, headLength]
    omega

theorem length_encodeAll (bl : List Block) (offset : Nat) :
    (encodeAll offset bl).length = (bl.map length).sum := by
  induction bl generalizing offset with
  | nil => rfl
  | cons b rest ih => rw [encodeAll, List.length_append, length_encode, ih, List.map_cons, List.sum_cons]

end Block

namespace RecordBytes

open Bytes (HasAt littleEndian)

variable {bs part : Bytes} {offset : Nat}

theorem slice_eq {length : Nat} (h : HasAt bs offset part) (hlength : part.length = length)
    (hpos : 0 < length) : slice bs offset length = .ok part := by
  have hne : part ≠ [] := List.length_pos_iff.mp (hlength ▸ hpos)
  rw [slice, ← hlength, h.slice?_eq hne]

theorem slice_eq_ok {length : Nat} (h : slice bs offset length = .ok part) :
    offset + length ≤ bs.length ∧ part = (bs.drop offset).take length := by
  simp only [slice, Bytes.slice?] at h
  split at h
  next hsome =>
    cases h
    split at hsome
    next hle => exact ⟨hle, (Option.some.inj hsome).symm⟩
    next => contradiction
  next => contradiction

theorem number_eq {n : Nat} (h : HasAt bs offset (littleEndian 4 n)) (hn : n < 1 <<< 32) :
    number bs offset = .ok n := by
  rw [number, slice_eq h (Bytes.length_littleEndian 4 n) (by decide), Except.map,
    Bytes.ofLittleEndian_littleEndian hn]

theorem readAt?_eq {a : Id} (h : HasAt bs offset a.bytes) : Id.readAt? bs offset = some a := by
  have htake : (bs.drop offset).take 16 = a.bytes := by
    rw [← a.length_bytes]
    exact (List.prefix_iff_eq_take.mp h).symm
  rw [Id.readAt?, htake, Id.ofBytes?_bytes]

theorem id_eq {a : Id} (h : HasAt bs offset a.bytes) : id bs offset = .ok a := by
  rw [id, readAt?_eq h]

theorem follow_eq_none {origin : Nat} (h : HasAt bs offset (littleEndian 4 0)) :
    follow bs origin offset = .ok none := by
  rw [follow, number_eq h (by decide)]
  rfl

theorem follow_eq_some {origin target : Nat} (h : HasAt bs offset (littleEndian 4 target))
    (horigin : origin < target) (htarget : target < bs.length) (hbs : bs.length < 1 <<< 32) :
    follow bs origin offset = .ok (some target) := by
  have hzero : target ≠ 0 := by omega
  rw [follow, number_eq h (by omega), Stateful.ok_bind, if_neg hzero, if_pos ⟨horigin, htarget⟩]
  rfl

theorem payload_eq {start : Nat} {p : Bytes} (h : HasAt bs offset (Event.pointer start p))
    (hp : HasAt bs start p) (hbs : bs.length < 1 <<< 32) : payload bs offset = .ok p := by
  cases p with
  | nil =>
    have hlength : HasAt bs (offset + 4) (littleEndian 4 0) := by
      have hright := h.right
      rwa [Bytes.length_littleEndian] at hright
    have hstart : number bs offset = .ok 0 := number_eq h.left (by decide)
    rw [payload, hstart, Stateful.ok_bind, number_eq hlength (by decide)]
    rfl
  | cons x p =>
    have hle := hp.le_length (List.cons_ne_nil x p)
    have hlength : HasAt bs (offset + 4) (littleEndian 4 (x :: p).length) := by
      have hright := h.right
      rwa [Bytes.length_littleEndian] at hright
    have hstart : number bs offset = .ok start := number_eq h.left (by omega)
    rw [payload, hstart, Stateful.ok_bind, number_eq hlength (by omega), Stateful.ok_bind,
      if_neg (by simp), slice_eq hp rfl (by simp)]

theorem ids_eq {a b c : Id} (h : HasAt bs offset (a.bytes ++ b.bytes ++ c.bytes)) :
    id bs offset = .ok a ∧ id bs (offset + 16) = .ok b ∧ id bs (offset + 32) = .ok c := by
  have hb := h.left.right
  have hc := h.right
  rw [a.length_bytes] at hb
  rw [List.length_append, a.length_bytes, b.length_bytes] at hc
  exact ⟨id_eq h.left.left, id_eq hb, id_eq hc⟩

theorem event_eq {e : Event} {next : Nat} (hbs : bs.length < 1 <<< 32)
    (h : HasAt bs offset (Item.encode ⟨e, []⟩ offset next)) : event bs offset = .ok e := by
  have hhead : HasAt bs offset (e.kind :: 0 :: 0 :: 0 :: littleEndian 4 next) := h.left.left.left
  have hbody : HasAt bs (offset + Event.headLength)
      (e.body (offset + Event.headLength + e.bodyLength)) := by
    have hright := h.left.left.right
    simpa [Bytes.length_littleEndian, Event.headLength] using hright
  have hpayload : HasAt bs (offset + Event.headLength + e.bodyLength) e.payload := by
    have hlength : ((e.kind :: 0 :: 0 :: 0 :: littleEndian 4 next) ++
        e.body (offset + Event.headLength + e.bodyLength)).length = Event.headLength + e.bodyLength := by
      rw [List.length_append, Event.length_body]
      simp [Bytes.length_littleEndian, Event.headLength]
    rw [Nat.add_assoc, ← hlength]
    exact h.left.right
  rw [event, slice_eq hhead (by simp [Bytes.length_littleEndian, Event.headLength]) (by decide),
    Stateful.ok_bind]
  cases e with
  | created type =>
    have hid := id_eq hbody
    simp only [List.headD_cons, Event.kind, hid, Stateful.ok_bind]
    rfl
  | deleted type =>
    have hid := id_eq hbody
    simp only [List.headD_cons, Event.kind, hid, Stateful.ok_bind]
    rfl
  | changed field old new =>
    have hfield := id_eq hbody.left.left
    have hold := hbody.left.right
    have hnew := hbody.right
    simp only [List.length_append, Event.length_pointer, field.length_bytes] at hold hnew
    have hold := payload_eq hold hpayload.left hbs
    have hnew := payload_eq hnew hpayload.right hbs
    simp only [List.headD_cons, Event.kind, hfield, hold, hnew, Stateful.ok_bind]
    rfl
  | linked field other otherField =>
    obtain ⟨hfield, hother, hotherField⟩ := ids_eq hbody
    simp only [List.headD_cons, Event.kind, hfield, hother, hotherField, Stateful.ok_bind]
    rfl
  | unlinked field other otherField =>
    obtain ⟨hfield, hother, hotherField⟩ := ids_eq hbody
    simp only [List.headD_cons, Event.kind, hfield, hother, hotherField, Stateful.ok_bind]
    rfl

def linkTo {α : Type} (rest : List α) (offset : Nat) : Option Nat :=
  if rest.isEmpty then none else some offset

theorem follow_eq {α : Type} {rest : List α} {origin target : Nat}
    (h : HasAt bs offset (littleEndian 4 (if rest.isEmpty then 0 else target)))
    (horigin : origin < target) (htarget : rest ≠ [] → target < bs.length)
    (hbs : bs.length < 1 <<< 32) : follow bs origin offset = .ok (linkTo rest target) := by
  rw [linkTo]
  cases rest with
  | nil => exact follow_eq_none h
  | cons x rest => exact follow_eq_some h horigin (htarget (List.cons_ne_nil x rest)) hbs

theorem events_eq (hbs : bs.length < 1 <<< 32) (items : List Item) (htidy : ∀ i ∈ items, i.stray = [])
    (h : HasAt bs offset (Item.encodeAll offset items)) :
    events bs (.ok (linkTo items offset)) = items.map fun i => .ok i.event := by
  induction items generalizing offset with
  | nil =>
    change events bs (.ok none) = []
    rw [events]
  | cons i rest ih =>
    change events bs (.ok (some offset)) = _
    have hevent : event bs offset = .ok i.event := by
      obtain ⟨e, stray⟩ := i
      obtain rfl : stray = [] := htidy _ List.mem_cons_self
      exact event_eq hbs h.left
    have hrest : HasAt bs (offset + i.length) (Item.encodeAll (offset + i.length) rest) := by
      have hright := h.right
      rwa [Item.length_encode] at hright
    have hlink : follow bs offset (offset + 4) = .ok (linkTo rest (offset + i.length)) := by
      have hnext := @HasAt.right _ [i.event.kind, 0, 0, 0] _ _ h.left.left.left.left
      apply follow_eq hnext _ _ hbs
      · rw [Item.length, Event.headLength]
        omega
      · intro hne
        have hle := hrest.le_length (Item.encodeAll_ne_nil hne)
        have hpos := List.length_pos_iff.mpr (@Item.encodeAll_ne_nil _ (offset + i.length) hne)
        omega
    rw [events, hevent, hlink, ih (fun j hj => htidy j (List.mem_cons_of_mem i hj)) hrest]
    rfl

structure HasBlock (bs : Bytes) (offset next : Nat) (b : Block) : Prop where
  object : HasAt bs offset b.object.bytes
  type : HasAt bs (offset + 16) b.type.bytes
  first : HasAt bs (offset + 36) (littleEndian 4 (if b.items.isEmpty then 0 else offset + Block.headLength))
  next : HasAt bs (offset + 40) (littleEndian 4 next)
  items : HasAt bs (offset + Block.headLength) (Item.encodeAll (offset + Block.headLength) b.items.reverse)

theorem hasBlock {b : Block} {next : Nat} (h : HasAt bs offset (b.encode offset next)) : HasBlock bs offset next b := by
  have htype := h.left.left.left.left.right
  have hfirst := h.left.left.right
  have hnext := h.left.right
  have hitems := h.right
  simp only [List.length_append, Id.length_bytes, Bytes.length_littleEndian] at htype hfirst hnext hitems
  exact ⟨h.left.left.left.left.left, htype, hfirst, hnext, hitems⟩

theorem readBlock_eq (hbs : bs.length < 1 <<< 32) {b : Block} (htidy : b.Tidy) {next : Nat}
    (h : HasAt bs offset (b.encode offset next)) :
    Commit.readBlock (.ok ⟨bs, offset⟩) = .ok b.changes := by
  obtain ⟨hobject, htype, hfirst, -, hitems⟩ := hasBlock h
  have hlink : follow bs offset (offset + 36) =
      .ok (linkTo b.items.reverse (offset + Block.headLength)) := by
    rw [← List.isEmpty_reverse] at hfirst
    apply follow_eq hfirst _ _ hbs
    · rw [Block.headLength]
      omega
    · intro hne
      have hitemsNe := @Item.encodeAll_ne_nil _ (offset + Block.headLength) hne
      have hle := hitems.le_length hitemsNe
      have hpos := List.length_pos_iff.mpr hitemsNe
      omega
  have hevents : (BlockView.mk bs offset).events.mapM (fun e => e) =
      .ok (b.items.reverse.map Item.event) := by
    have htidy' : ∀ i ∈ b.items.reverse, i.stray = [] := fun i hi => htidy i (List.mem_reverse.mp hi)
    apply Stateful.mapM_eq_ok
    rw [BlockView.events, hlink, events_eq hbs _ htidy' hitems, List.map_id', List.map_map]
    rfl
  rw [Commit.readBlock, Stateful.ok_bind, hevents, Stateful.ok_bind, BlockView.object, BlockView.type,
    readAt?_eq hobject, readAt?_eq htype]
  rfl

theorem blocks_eq (hbs : bs.length < 1 <<< 32) (bl : List Block) (htidy : ∀ b ∈ bl, b.Tidy)
    (h : HasAt bs offset (Block.encodeAll offset bl)) :
    (blocks bs (.ok (linkTo bl offset))).map (fun b => Commit.readBlock (b.map (BlockView.mk bs))) =
      bl.map fun b => .ok b.changes := by
  induction bl generalizing offset with
  | nil =>
    change (blocks bs (.ok none)).map _ = []
    rw [blocks]
    rfl
  | cons b rest ih =>
    change (blocks bs (.ok (some offset))).map _ = _
    have hrest : HasAt bs (offset + b.length) (Block.encodeAll (offset + b.length) rest) := by
      have hright := h.right
      rwa [Block.length_encode] at hright
    have hhead := @slice_eq _ _ _ Block.headLength h.left.left
      (by simp only [List.length_append, Id.length_bytes, Bytes.length_littleEndian, Block.headLength])
      (by decide)
    have hlink : follow bs offset (offset + 40) = .ok (linkTo rest (offset + b.length)) := by
      apply follow_eq (hasBlock h.left).next _ _ hbs
      · rw [Block.length, Block.headLength]
        omega
      · intro hne
        have hrestNe := @Block.encodeAll_ne_nil _ (offset + b.length) hne
        have hle := hrest.le_length hrestNe
        have hpos := List.length_pos_iff.mpr hrestNe
        omega
    rw [blocks, hhead, hlink]
    simp only [List.map_cons]
    rw [ih (fun j hj => htidy j (List.mem_cons_of_mem b hj)) hrest]
    have hread := readBlock_eq hbs (htidy b List.mem_cons_self) h.left
    rw [← hread]
    rfl

end RecordBytes

theorem RecordView.ofBytes_eq_ok {bs : Bytes} {v : RecordView} (h : ofBytes bs = .ok v) :
    v.bytes = bs ∧ Draft.headLength ≤ bs.length := by
  rw [ofBytes] at h
  obtain ⟨head, hhead, h⟩ := Stateful.bind_eq_ok.mp h
  obtain ⟨hle, -⟩ := RecordBytes.slice_eq_ok hhead
  rw [Nat.zero_add] at hle
  split at h
  · contradiction
  · dsimp only at h
    split at h
    · contradiction
    · cases h
      exact ⟨rfl, hle⟩

namespace Draft

theorem length_bytes (d : Draft) : d.bytes.length = lengthOf d.blocks := by
  rw [lengthOf, ← List.sum_reverse, ← List.map_reverse]
  simp only [bytes, List.length_append, Block.length_encodeAll, Bytes.length_littleEndian,
    d.actor.length_bytes]
  rfl

theorem decode_bytes {d : Draft} (c : CommitId) (htidy : ∀ b ∈ d.blocks, b.Tidy)
    (hlength : lengthOf d.blocks < 1 <<< 32) :
    Commit.decode c d.bytes = .ok ⟨c, d.time, d.actor, d.blocks.reverse.map Block.changes⟩ := by
  have hbs : d.bytes.length < 1 <<< 32 := by rwa [d.length_bytes]
  have hwhole : Bytes.HasAt d.bytes 0 d.bytes := List.prefix_rfl
  have hview : RecordView.ofBytes d.bytes = .ok ⟨d.bytes⟩ := by
    have hhead := @RecordBytes.slice_eq _ _ _ headLength hwhole.left
      (by simp only [List.length_append, Bytes.length_littleEndian, d.actor.length_bytes]; rfl) (by decide)
    rw [RecordView.ofBytes, hhead]
    rfl
  have htime : RecordView.time ⟨d.bytes⟩ = d.time := by
    have hright : Bytes.HasAt d.bytes 8 (Bytes.littleEndian 8 d.time.toUInt64.toNat) :=
      hwhole.left.left.left.left.right
    have htake : (d.bytes.drop 8).take 8 = Bytes.littleEndian 8 d.time.toUInt64.toNat :=
      (List.prefix_iff_eq_take.mp hright).symm
    rw [RecordView.time, htake, Bytes.ofLittleEndian_littleEndian d.time.toUInt64.toNat_lt]
    simp
  have hactor : RecordView.actor ⟨d.bytes⟩ = d.actor := by
    have hright : Bytes.HasAt d.bytes 16 d.actor.bytes := hwhole.left.left.left.right
    rw [RecordView.actor, RecordBytes.readAt?_eq hright]
    rfl
  have hblocks : Bytes.HasAt d.bytes headLength (Block.encodeAll headLength d.blocks.reverse) := by
    have hright := hwhole.right
    simp only [List.length_append, Bytes.length_littleEndian, d.actor.length_bytes] at hright
    exact hright
  have hlink : RecordBytes.follow d.bytes 0 36 =
      .ok (RecordBytes.linkTo d.blocks.reverse headLength) := by
    have hfirst := hwhole.left.right
    simp only [List.length_append, Bytes.length_littleEndian, d.actor.length_bytes] at hfirst
    rw [← List.isEmpty_reverse] at hfirst
    refine RecordBytes.follow_eq hfirst (by decide) (fun hne => ?_) hbs
    have hblocksNe := @Block.encodeAll_ne_nil _ headLength hne
    have hle := hblocks.le_length hblocksNe
    have hpos := List.length_pos_iff.mpr hblocksNe
    omega
  have hobjects : (RecordView.objects ⟨d.bytes⟩).mapM Commit.readBlock =
      .ok (d.blocks.reverse.map Block.changes) := by
    have htidy' : ∀ b ∈ d.blocks.reverse, b.Tidy := fun b hb => htidy b (List.mem_reverse.mp hb)
    apply Stateful.mapM_eq_ok
    rw [RecordView.objects, hlink, List.map_map]
    exact (RecordBytes.blocks_eq hbs _ htidy' hblocks).trans (List.map_map ..).symm
  rw [Commit.decode, hview, Stateful.ok_bind, hobjects, Stateful.ok_bind, htime, hactor]
  rfl

end Draft

end ObjectGraph
