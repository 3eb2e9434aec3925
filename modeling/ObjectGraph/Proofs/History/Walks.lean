import ObjectGraph.Proofs.History.Reader
/-!
Walks through a record of any origin. A link leads forward or it is bad, so a walk passes every offset at
most once and ends, whatever the record says; what cannot be read is an error in its place.
-/

namespace ObjectGraph

namespace RecordBytes

/-- The offsets that a chain of links leads to, and what is wrong with its last link. The link at `link`
must lead past `origin`; what it leads to takes `room` bytes, of which the next link is `next` bytes on. -/
inductive Chain (bs : Bytes) (room next : Nat) : (origin link : Nat) → List Nat → Option Error → Prop where
  | ended {origin link : Nat} : number bs link = .ok 0 → Chain bs room next origin link [] none
  | cut {origin link : Nat} : bs.length < link + 4 →
      Chain bs room next origin link [] (some (.corrupted (.truncatedRecord link)))
  | astray {origin link target : Nat} : number bs link = .ok target → target ≠ 0 →
      target ≤ origin ∨ bs.length ≤ target →
      Chain bs room next origin link [] (some (.corrupted (.recordLink link target)))
  | short {origin link target : Nat} : number bs link = .ok target → origin < target →
      target < bs.length → bs.length < target + room →
      Chain bs room next origin link [] (some (.corrupted (.truncatedRecord target)))
  | onto {origin link target : Nat} {offsets : List Nat} {error : Option Error} :
      number bs link = .ok target → origin < target → target < bs.length → target + room ≤ bs.length →
      Chain bs room next target (target + next) offsets error →
      Chain bs room next origin link (target :: offsets) error

structure Walks {α : Type} (bs : Bytes) (room next origin link : Nat) (item : Nat → Except Error α)
    (items : List (Except Error α)) : Prop where
  chain : ∃ offsets error, Chain bs room next origin link offsets error ∧
    items = offsets.map item ++ error.toList.map .error ∧
    (origin :: offsets).Pairwise (· < ·) ∧ ∀ offset ∈ offsets, offset < bs.length
  length_le : items.length ≤ bs.length + 1

def PointsInside (bs : Bytes) (offset : Nat) : Prop :=
  let start := Bytes.ofLittleEndian ((bs.drop offset).take 4)
  let length := Bytes.ofLittleEndian ((bs.drop (offset + 4)).take 4)
  length = 0 ∨ start + length ≤ bs.length

def Legible (bs : Bytes) (offset : Nat) : Prop :=
  match bs[offset]? with
  | some 1 | some 2 => offset + 24 ≤ bs.length
  | some 3 => offset + 40 ≤ bs.length ∧ PointsInside bs (offset + 24) ∧ PointsInside bs (offset + 32)
  | some 4 | some 5 => offset + 56 ≤ bs.length
  | _ => False

variable {bs : Bytes} {room next origin link offset : Nat} {offsets : List Nat} {error : Option Error}

theorem slice_of_short {length : Nat} (h : bs.length < offset + length) :
    slice bs offset length = .error (.corrupted (.truncatedRecord offset)) := by
  rw [slice, Bytes.slice?, if_neg (Nat.not_le_of_lt h)]

theorem slice_of_le {length : Nat} (h : offset + length ≤ bs.length) :
    slice bs offset length = .ok ((bs.drop offset).take length) := by
  rw [slice, Bytes.slice?, if_pos h]

theorem number_of_short (h : bs.length < offset + 4) :
    number bs offset = .error (.corrupted (.truncatedRecord offset)) := by
  rw [number, slice_of_short h]
  rfl

theorem number_of_le (h : offset + 4 ≤ bs.length) :
    number bs offset = .ok (Bytes.ofLittleEndian ((bs.drop offset).take 4)) := by
  rw [number, slice_of_le h]
  rfl

theorem follow_of_short (h : bs.length < link + 4) :
    follow bs origin link = .error (.corrupted (.truncatedRecord link)) := by
  rw [follow, number_of_short h]
  rfl

theorem follow_of_number {target : Nat} (h : number bs link = .ok target) :
    follow bs origin link =
      if target = 0 then .ok none
      else if origin < target ∧ target < bs.length then .ok (some target)
      else .error (.corrupted (.recordLink link target)) := by
  rw [follow, h]
  rfl

namespace Chain

theorem ascending (h : Chain bs room next origin link offsets error) :
    (origin :: offsets).Pairwise (· < ·) := by
  induction h with
  | onto hnumber hlt _ _ _ ih =>
    refine List.Pairwise.cons ?_ ih
    intro offset hoffset
    rcases List.mem_cons.mp hoffset with rfl | hoffset
    · exact hlt
    · exact Nat.lt_trans hlt (List.rel_of_pairwise_cons ih hoffset)
  | _ => exact List.pairwise_singleton ..

theorem inside (h : Chain bs room next origin link offsets error) :
    ∀ offset ∈ offsets, offset < bs.length ∧ offset + room ≤ bs.length ∧ offset < 1 <<< 32 := by
  induction h with
  | onto hnumber _ hlength hroom _ ih =>
    intro offset hoffset
    rcases List.mem_cons.mp hoffset with rfl | hoffset
    · exact ⟨hlength, hroom, (number_eq_ok hnumber).2⟩
    · exact ih offset hoffset
  | _ =>
    intro offset hoffset
    contradiction

theorem length_le (h : Chain bs room next origin link offsets error) :
    offsets.length ≤ bs.length - origin := by
  induction h with
  | onto _ hlt hlength _ _ ih =>
    rw [List.length_cons]
    omega
  | _ => exact Nat.zero_le _

theorem walks {α : Type} {item : Nat → Except Error α} (h : Chain bs room next origin link offsets error) :
    Walks bs room next origin link item (offsets.map item ++ error.toList.map .error) := by
  refine ⟨⟨offsets, error, h, rfl, h.ascending, fun offset ho => (h.inside offset ho).1⟩, ?_⟩
  have hoffsets := h.length_le
  have herror : error.toList.length ≤ 1 := by cases error <;> simp
  rw [List.length_append, List.length_map, List.length_map]
  omega

end Chain

theorem follow_cases (bs : Bytes) (room next origin link : Nat) :
    (follow bs origin link = .ok none ∧ Chain bs room next origin link [] none) ∨
      (∃ e, follow bs origin link = .error e ∧ Chain bs room next origin link [] (some e)) ∨
      ∃ target, number bs link = .ok target ∧ origin < target ∧ target < bs.length ∧
        follow bs origin link = .ok (some target) := by
  rcases Nat.lt_or_ge bs.length (link + 4) with hshort | hle
  · exact .inr (.inl ⟨_, follow_of_short hshort, .cut hshort⟩)
  have hnumber := number_of_le hle
  generalize Bytes.ofLittleEndian ((bs.drop link).take 4) = target at hnumber
  rw [follow_of_number hnumber]
  by_cases hzero : target = 0
  · subst hzero
    exact .inl ⟨rfl, .ended hnumber⟩
  by_cases hinside : origin < target ∧ target < bs.length
  · exact .inr (.inr ⟨target, hnumber, hinside.1, hinside.2, by rw [if_neg hzero, if_pos hinside]⟩)
  · refine .inr (.inl ⟨_, by rw [if_neg hzero, if_neg hinside], .astray hnumber hzero ?_⟩)
    omega

theorem chain_events (bs : Bytes) (origin link : Nat) :
    ∃ offsets error, Chain bs 0 4 origin link offsets error ∧
      events bs (follow bs origin link) = offsets.map (event bs) ++ error.toList.map .error := by
  induction hleft : bs.length - origin using Nat.strongRecOn generalizing origin link with
  | ind left ih =>
    rcases follow_cases bs 0 4 origin link with
      ⟨hfollow, hchain⟩ | ⟨e, hfollow, hchain⟩ | ⟨target, hnumber, hlt, hinside, hfollow⟩
    · exact ⟨[], none, hchain, by rw [hfollow, events]; rfl⟩
    · exact ⟨[], some e, hchain, by rw [hfollow, events]; rfl⟩
    · obtain ⟨offsets, error, hchain, hevents⟩ := ih _ (by omega) target (target + 4) rfl
      refine ⟨target :: offsets, error, .onto hnumber hlt hinside (Nat.le_of_lt hinside) hchain, ?_⟩
      rw [hfollow, events, hevents]
      rfl

theorem chain_blocks (bs : Bytes) (origin link : Nat) :
    ∃ offsets error, Chain bs Block.headLength 40 origin link offsets error ∧
      blocks bs (follow bs origin link) = offsets.map .ok ++ error.toList.map .error := by
  induction hleft : bs.length - origin using Nat.strongRecOn generalizing origin link with
  | ind left ih =>
    rcases follow_cases bs Block.headLength 40 origin link with
      ⟨hfollow, hchain⟩ | ⟨e, hfollow, hchain⟩ | ⟨target, hnumber, hlt, hinside, hfollow⟩
    · exact ⟨[], none, hchain, by rw [hfollow, blocks]; rfl⟩
    · exact ⟨[], some e, hchain, by rw [hfollow, blocks]; rfl⟩
    rcases Nat.lt_or_ge bs.length (target + Block.headLength) with hshort | hroom
    · exact ⟨[], _, .short hnumber hlt hinside hshort,
        by rw [hfollow, blocks, slice_of_short hshort]; rfl⟩
    · obtain ⟨offsets, error, hchain, hblocks⟩ := ih _ (by omega) target (target + 40) rfl
      refine ⟨target :: offsets, error, .onto hnumber hlt hinside hroom hchain, ?_⟩
      rw [hfollow, blocks, slice_of_le hroom, hblocks]
      rfl

theorem id_isOk_iff : (∃ a, id bs offset = .ok a) ↔ offset + 16 ≤ bs.length := by
  have hlength : ((bs.drop offset).take 16).length = min 16 (bs.length - offset) := by
    rw [List.length_take, List.length_drop]
  rw [id, Id.readAt?, Id.ofBytes?]
  by_cases hle : offset + 16 ≤ bs.length
  · rw [dif_pos (by omega)]
    exact ⟨fun _ => hle, fun _ => ⟨_, rfl⟩⟩
  · rw [dif_neg (by omega)]
    constructor
    · rintro ⟨a, ⟨⟩⟩
    · exact fun h => absurd h hle

theorem payload_isOk_iff :
    (∃ p, payload bs offset = .ok p) ↔ offset + 8 ≤ bs.length ∧ PointsInside bs offset := by
  rw [payload, Stateful.exists_bind_eq_ok]
  rcases Nat.lt_or_ge bs.length (offset + 8) with hshort | hle
  · constructor
    · rintro ⟨start, -, hlength⟩
      obtain ⟨length, hlength, -⟩ := Stateful.exists_bind_eq_ok.mp hlength
      exact absurd (number_eq_ok hlength).1 (Nat.not_le_of_lt hshort)
    · exact fun h => absurd h.1 (Nat.not_le_of_lt hshort)
  have hstart := @number_of_le bs offset (by omega)
  have hlength := @number_of_le bs (offset + 4) hle
  simp only [hstart, hlength, Stateful.ok_bind, Except.ok.injEq, exists_eq_left', hle, true_and,
    PointsInside]
  generalize Bytes.ofLittleEndian ((bs.drop offset).take 4) = start
  generalize Bytes.ofLittleEndian ((bs.drop (offset + 4)).take 4) = length
  by_cases hzero : length = 0
  · rw [if_pos hzero]
    exact ⟨fun _ => .inl hzero, fun _ => ⟨[], rfl⟩⟩
  rw [if_neg hzero]
  rcases Nat.lt_or_ge bs.length (start + length) with hout | hinside
  · rw [slice_of_short hout]
    constructor
    · rintro ⟨p, ⟨⟩⟩
    · rintro (hnone | hinside)
      · exact absurd hnone hzero
      · exact absurd hinside (Nat.not_le_of_lt hout)
  · exact ⟨fun _ => .inr hinside, fun _ => ⟨_, slice_of_le hinside⟩⟩

theorem typed_isOk_iff {f : Id → Event} :
    (∃ e, (do return f (← id bs offset)) = Except.ok e) ↔ offset + 16 ≤ bs.length := by
  simp only [Stateful.exists_bind_eq_ok, pure, Except.pure, Except.ok.injEq, exists_eq', and_true,
    id_isOk_iff]

theorem changed_isOk_iff : (∃ e, (do
      return Event.changed (← id bs offset) (← payload bs (offset + 16)) (← payload bs (offset + 24))) =
        Except.ok e) ↔
    offset + 32 ≤ bs.length ∧ PointsInside bs (offset + 16) ∧ PointsInside bs (offset + 24) := by
  simp only [Stateful.exists_bind_eq_ok, pure, Except.pure, Except.ok.injEq, exists_eq', and_true,
    exists_and_right, id_isOk_iff, payload_isOk_iff]
  constructor
  · rintro ⟨-, ⟨-, hold⟩, hroom, hnew⟩
    exact ⟨hroom, hold, hnew⟩
  · rintro ⟨hroom, hold, hnew⟩
    exact ⟨by omega, ⟨by omega, hold⟩, hroom, hnew⟩

theorem linked_isOk_iff {f : Id → Id → Id → Event} :
    (∃ e, (do return f (← id bs offset) (← id bs (offset + 16)) (← id bs (offset + 32))) = Except.ok e) ↔
      offset + 48 ≤ bs.length := by
  simp only [Stateful.exists_bind_eq_ok, pure, Except.pure, Except.ok.injEq, exists_eq', and_true,
    exists_and_right, id_isOk_iff]
  omega

theorem Legible.le_length (h : Legible bs offset) : offset + Event.headLength ≤ bs.length := by
  have hhead : Event.headLength = 8 := rfl
  rw [Legible] at h
  split at h
  case h_6 => contradiction
  all_goals omega

theorem event_isOk_iff : (∃ e, event bs offset = .ok e) ↔ Legible bs offset := by
  have hhead : Event.headLength = 8 := rfl
  rw [event]
  rcases Nat.lt_or_ge bs.length (offset + Event.headLength) with hshort | hle
  · rw [slice_of_short hshort]
    constructor
    · rintro ⟨e, ⟨⟩⟩
    · exact fun h => absurd h.le_length (Nat.not_le_of_lt hshort)
  have hlt : offset < bs.length := by omega
  have hkind : ((bs.drop offset).take Event.headLength).headD 0 = bs[offset] := by
    rw [List.drop_eq_getElem_cons hlt]
    rfl
  rw [slice_of_le hle, Stateful.ok_bind, hkind, Legible, List.getElem?_eq_getElem hlt]
  generalize bs[offset] = kind
  dsimp only
  split
  · exact typed_isOk_iff
  · exact typed_isOk_iff
  · exact changed_isOk_iff
  · exact linked_isOk_iff
  · exact linked_isOk_iff
  · constructor
    · rintro ⟨e, ⟨⟩⟩
    · intro h
      split at h
      case h_6 => exact h.elim
      all_goals simp_all

end RecordBytes

namespace Reader

open RecordBytes (Walks Legible)

variable {v : RecordView} {b : BlockView}

theorem firstBlock_eq (v : RecordView) :
    firstBlock v = some (.ofLink (RecordBytes.follow v.bytes 0 36)) := proceed_eq (by decide)

theorem firstEvent_eq (h : b.offset < 1 <<< 32) :
    firstEvent b = some (.ofLink (RecordBytes.follow b.bytes b.offset (b.offset + 36))) := by
  have hsum : sum b.offset 36 = some (b.offset + 36) := sum_eq (by omega)
  rw [firstEvent, hsum, Option.bind_eq_bind, Option.bind_some, proceed_eq (by omega)]

theorem objects_eq (v : RecordView) : objects v = some v.objects := by
  rw [objects, firstBlock_eq, Option.bind_eq_bind, Option.bind_some, items_blocks short_follow]
  rfl

theorem eventsOf_eq (h : b.offset < 1 <<< 32) : eventsOf b = some b.events := by
  rw [eventsOf, firstEvent_eq h, Option.bind_eq_bind, Option.bind_some, items_events short_follow]
  rfl

theorem walks_objects (v : RecordView) :
    Walks v.bytes Block.headLength 40 0 36 (fun offset => .ok ⟨v.bytes, offset⟩) v.objects := by
  obtain ⟨offsets, error, hchain, hblocks⟩ := RecordBytes.chain_blocks v.bytes 0 36
  rw [RecordView.objects, hblocks, List.map_append, List.map_map, List.map_map]
  exact hchain.walks

theorem walks_events (b : BlockView) :
    Walks b.bytes 0 4 b.offset (b.offset + 36) (RecordBytes.event b.bytes) b.events := by
  obtain ⟨offsets, error, hchain, hevents⟩ := RecordBytes.chain_events b.bytes b.offset (b.offset + 36)
  rw [BlockView.events, hevents]
  exact hchain.walks

theorem offset_of_mem (h : .ok b ∈ v.objects) : b.bytes = v.bytes ∧ b.offset < 1 <<< 32 := by
  obtain ⟨offsets, error, hchain, hobjects, -⟩ := (walks_objects v).chain
  rw [hobjects, List.mem_append, List.mem_map, List.mem_map] at h
  rcases h with ⟨offset, hoffset, hb⟩ | ⟨e, -, he⟩
  · cases hb
    exact ⟨rfl, (hchain.inside offset hoffset).2.2⟩
  · cases he

theorem comes_readBlock {item : Except Error BlockView} (h : item ∈ v.objects) :
    Comes (readBlock item) (Commit.readBlock item) := by
  cases item with
  | error e => rfl
  | ok b =>
    obtain ⟨-, hoffset⟩ := offset_of_mem h
    have hevents : Comes ((events b.bytes).collect (fun e => (e : Reader Event)) _)
        (b.events.mapM fun e => e) :=
      Iteration.comes_collect (items_events short_follow) fun e _ => by cases e <;> rfl
    apply Comes.lift_bind (object_eq hoffset)
    apply Comes.lift_bind (type_eq hoffset)
    apply Comes.lift_bind (firstEvent_eq hoffset)
    exact hevents.bind fun events _ => .pure _

theorem comes_decode (c : CommitId) (bs : Bytes) : Comes (decode c bs) (Commit.decode c bs) := by
  refine (comes_view bs).bind fun v hv => ?_
  obtain ⟨rfl, hlength⟩ := RecordView.ofBytes_eq_ok hv
  have hwalk := objects_eq v
  rw [objects, firstBlock_eq, Option.bind_eq_bind, Option.bind_some] at hwalk
  apply Comes.lift_bind (firstBlock_eq v)
  have hobjects := Iteration.comes_collect hwalk fun item hitem => comes_readBlock hitem
  refine hobjects.bind fun objects _ => ?_
  apply Comes.lift_bind (time_eq hlength)
  apply Comes.lift_bind (actor_eq v)
  exact .pure _

theorem decode_isOk_iff {c : CommitId} {bs : Bytes} (h : RecordView.ofBytes bs = .ok v) :
    (∃ commit, Commit.decode c bs = .ok commit) ↔
      ∀ item ∈ v.objects, ∃ b, item = .ok b ∧ ∀ e ∈ b.events, ∃ event, e = .ok event := by
  have hblock (b : BlockView) : (∃ changes, Commit.readBlock (.ok b) = .ok changes) ↔
      ∀ e ∈ b.events, ∃ event, e = .ok event := by
    rw [← Stateful.exists_mapM_eq_ok, Commit.readBlock, Stateful.ok_bind, Stateful.exists_bind_eq_ok]
    exact exists_congr fun events => and_iff_left ⟨_, rfl⟩
  have hobjects : (∃ commit, Commit.decode c bs = .ok commit) ↔
      ∃ objects, v.objects.mapM Commit.readBlock = .ok objects := by
    rw [Commit.decode, h, Stateful.ok_bind, Stateful.exists_bind_eq_ok]
    exact exists_congr fun objects => and_iff_left ⟨_, rfl⟩
  rw [hobjects, Stateful.exists_mapM_eq_ok]
  refine forall₂_congr fun item _ => ?_
  cases item with
  | error e =>
    constructor
    · rintro ⟨changes, ⟨⟩⟩
    · rintro ⟨b, ⟨⟩, -⟩
  | ok b =>
    rw [hblock]
    constructor
    · exact fun hevents => ⟨b, rfl, hevents⟩
    · rintro ⟨_, ⟨⟩, hevents⟩
      exact hevents

structure ReadsOut (bs : Bytes) (v : RecordView) : Prop where
  bytes_eq : v.bytes = bs
  time_eq : time v = some v.time
  actor_eq : actor v = some v.actor
  objectCount : Comes (objectCount v) v.objectCount
  objects_eq : objects v = some v.objects
  walks_objects : Walks bs Block.headLength 40 0 36 (fun offset => .ok ⟨bs, offset⟩) v.objects
  object_eq : ∀ b, .ok b ∈ v.objects → object b = some b.object
  type_eq : ∀ b, .ok b ∈ v.objects → type b = some b.type
  events_eq : ∀ b, .ok b ∈ v.objects → eventsOf b = some b.events
  walks_events : ∀ b, .ok b ∈ v.objects →
    Walks bs 0 4 b.offset (b.offset + 36) (RecordBytes.event bs) b.events

theorem readsOut_of_ofBytes {bs : Bytes} (h : RecordView.ofBytes bs = .ok v) : ReadsOut bs v := by
  obtain ⟨rfl, hlength⟩ := RecordView.ofBytes_eq_ok h
  constructor
  case bytes_eq => rfl
  case time_eq => exact time_eq hlength
  case actor_eq => exact actor_eq v
  case objectCount => exact comes_number (by decide)
  case objects_eq => exact objects_eq v
  case walks_objects => exact walks_objects v
  case object_eq => exact fun b hb => object_eq (offset_of_mem hb).2
  case type_eq => exact fun b hb => type_eq (offset_of_mem hb).2
  case events_eq => exact fun b hb => eventsOf_eq (offset_of_mem hb).2
  case walks_events =>
    intro b hb
    obtain ⟨hbytes, -⟩ := offset_of_mem hb
    exact hbytes ▸ walks_events b

/-- Reading any bytes as a record comes to an answer. What is accepted is walked to the end, item by item,
and decodes if and only if no item is an error; an event is one if and only if it is not legible. -/
theorem reads_any_record (c : CommitId) (bs : Bytes) :
    Comes (view bs) (RecordView.ofBytes bs) ∧ Comes (decode c bs) (Commit.decode c bs) ∧
      (∀ e, RecordView.ofBytes bs = .error e → Commit.decode c bs = .error e) ∧
      (∀ v, RecordView.ofBytes bs = .ok v → ReadsOut bs v ∧
        ((∃ commit, Commit.decode c bs = .ok commit) ↔
          ∀ item ∈ v.objects, ∃ b, item = .ok b ∧ ∀ e ∈ b.events, ∃ event, e = .ok event)) ∧
      ∀ offset, (∃ e, RecordBytes.event bs offset = .ok e) ↔ Legible bs offset := by
  refine ⟨comes_view bs, comes_decode c bs, fun e he => ?_, fun v hv => ?_,
    fun offset => RecordBytes.event_isOk_iff⟩
  · rw [Commit.decode, he]
    rfl
  · exact ⟨readsOut_of_ofBytes hv, decode_isOk_iff hv⟩

end Reader

end ObjectGraph
