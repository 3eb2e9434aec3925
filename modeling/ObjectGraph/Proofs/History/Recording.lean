import ObjectGraph.Proofs.History.Linking

namespace ObjectGraph

open Stateful (Ends)

namespace Draft

theorem openBlock_same {d : Draft} {a : Id} (h : d.blocks.head?.map Block.object = some a) :
    (openBlock a).run d = (.ok ⟨⟩, d) := by
  simp only [openBlock, Stateful.run_bind, Stateful.run_get, if_pos h]
  rfl

theorem openBlock_other {d : Draft} {a : Id} (h : ¬ d.blocks.head?.map Block.object = some a) :
    (openBlock a).run d =
      (take Block.headLength >>= fun _ => modify fun d => { d with blocks := ⟨a, Id.nil, []⟩ :: d.blocks }).run d := by
  simp only [openBlock, Stateful.run_bind, Stateful.run_get, if_neg h]

theorem replaceLast_comp (i j : Item) : replaceLast i ∘ replaceLast j = replaceLast i := by
  funext d
  obtain ⟨quota, time, actor, blocks, deleted⟩ := d
  cases blocks <;> rfl

theorem replaceLast_comp_push (i j : Item) : replaceLast i ∘ push j = push i := by
  funext d
  obtain ⟨quota, time, actor, blocks, deleted⟩ := d
  cases blocks <;> rfl

theorem modify_bind_modify (f g : Draft → Draft) :
    (modify f >>= fun _ => modify g : Drafting Unit) = modify (g ∘ f) := rfl

theorem add_eq (a : Id) (e : Event) :
    add a e = add a e.blank >>= fun _ => modify (replaceLast ⟨e, []⟩) := by
  simp only [add, bind_assoc, modify_bind_modify, replaceLast_comp_push, e.bodyLength_blank]

theorem addChange_eq (a field : Id) (old new : Bytes) :
    let e : Event := .changed Id.nil [] []
    addChange a field old new = add a e >>= fun _ =>
      (take old.length >>= fun _ => modify (replaceLast ⟨e, [] ++ old⟩)) >>= fun _ =>
      (take new.length >>= fun _ => modify (replaceLast ⟨e, [] ++ old ++ new⟩)) >>= fun _ =>
      modify (replaceLast ⟨.changed field old new, []⟩) := by
  simp only [addChange, bind_assoc, modify_bind_modify, replaceLast_comp, List.nil_append]

end Draft

namespace LinkedDraft

open Draft (lengthOf lengthOf_cons openBlock?)

section Functions

variable {capacity pageSize : Nat} {a : Id}

theorem appendBlock_follows (a : Id) :
    Follows capacity pageSize (fun _ => True) (appendBlock a)
      (Draft.take Block.headLength >>= fun _ => modify fun d => { d with blocks := ⟨a, Id.nil, []⟩ :: d.blocks })
      fun o blocks => openBlock? blocks = some o ∧ o.object = a := by
  let b : Block := ⟨a, Id.nil, []⟩
  refine .take_modify (fun l d hl _ hroom => ?_) fun l d hl _ hfull => ?_
  · have hpart : b.encode (lengthOf d.blocks) 0 = a.bytes ++ List.replicate 28 0 := by
      simp [b, Block.encode, Item.encodeAll, Bytes.littleEndian, Id.bytes_nil]
    have hlength : a.bytes.length + 28 = Block.headLength := by
      rw [a.length_bytes]
      rfl
    have hblocks : lengthOf (b :: d.blocks) = lengthOf d.blocks + Block.headLength := lengthOf_cons b d.blocks
    have hcount := Draft.length_le_lengthOf d.blocks
    have hmax : Quota.maxCapacity < 1 <<< 32 := by decide
    have hcapacity := hl.capacity_le
    rw [← hlength] at hroom
    obtain ⟨arena, hgrow, hcarries⟩ := grow_room hl.capacity_le hl.page_pos hl.page_lt (d.blocks_grow d.blocks)
      hl.carries hpart (by omega) (by rwa [d.length_bytes])
    rw [← hl.lastObject_eq, ← hl.objects_eq, d.length_bytes, hlength] at hgrow
    refine ⟨_, _, .get_bind (hgrow.bind ((Ends.modify _ _).bind (.pure _ _))), ?_, rfl, rfl⟩
    refine ⟨hl.capacity_le, hl.page_pos, hl.page_lt, hcarries, ?_, ?_, rfl, rfl, hl.deleted_eq, ?_⟩
    · rw [hblocks]
    · exact congrArg Nat.succ hl.objects_eq
    · rw [Draft.touched, List.map_cons, List.reverse_cons]
      exact congrArg (· ++ [a]) hl.touched_eq
  · rw [← d.length_flatten] at hfull ⊢
    exact .get_bind (.bind_error (grow_full hl.capacity_le hl.carries hfull))

theorem Lays.openBlock_ends {l : LinkedDraft} {d : Draft} (h : Lays capacity pageSize l d) {o : OpenBlock}
    (ho : openBlock? d.blocks = some o) : Ends (openBlock o.object) l (.ok o) l := by
  refine .get_bind ?_
  rw [h.current_eq, ho, Option.filter_some_pos (by simp)]
  exact .pure o l

theorem openBlock_follows (a : Id) : Follows capacity pageSize (fun _ => True) (openBlock a) (Draft.openBlock a)
    fun o blocks => openBlock? blocks = some o ∧ o.object = a := by
  rintro l d hl -
  have hhead : (openBlock? d.blocks).map OpenBlock.object = d.blocks.head?.map Block.object := by
    cases d.blocks <;> rfl
  by_cases hsame : d.blocks.head?.map Block.object = some a
  · obtain ⟨o, ho, rfl⟩ := Option.map_eq_some_iff.mp (hhead.trans hsame)
    rw [Draft.openBlock_same hsame]
    exact ⟨.ok o, l, hl.openBlock_ends ho, hl, .ok ⟨ho, rfl⟩⟩
  · have hother : l.current.filter (·.object = a) = none := by
      rw [hl.current_eq, Option.filter_eq_none_iff]
      intro o ho hoa
      rw [← hhead, ho] at hsame
      exact hsame (congrArg some (of_decide_eq_true hoa))
    obtain ⟨r, l', hends, hrest⟩ := appendBlock_follows a l d hl trivial
    rw [Draft.openBlock_other hsame]
    refine ⟨r, l', .get_bind ?_, hrest⟩
    rw [hother]
    exact hends

def LastIs (a : Id) (i : Item) (body : Nat) (blocks : List Block) : Prop :=
  ∃ type items rest, blocks = ⟨a, type, i :: items⟩ :: rest ∧
    body = lengthOf (⟨a, type, items⟩ :: rest) + Event.headLength

theorem appendEvent_follows (e : Event) (o : OpenBlock) :
    Follows capacity pageSize (fun blocks => openBlock? blocks = some o ∧ o.object = a)
      (appendEvent o e.kind e.bodyLength)
      (Draft.take (Event.headLength + e.bodyLength) >>= fun _ => modify (Draft.push ⟨e.blank, []⟩))
      (LastIs a ⟨e.blank, []⟩) := by
  let g : List Block → List Block := List.modifyHead fun b => { b with items := ⟨e.blank, []⟩ :: b.items }
  refine @Follows.take_modify _ _ _ _ _ _ _ g (fun l d hl hd hroom => ?_) fun l d hl hd hfull => ?_
  · obtain ⟨ho, rfl⟩ := hd
    obtain ⟨quota, time, actor, blocks, deleted⟩ := d
    obtain _ | ⟨⟨object, type, items⟩, rest⟩ := blocks
    · contradiction
    cases ho
    let d : Draft := ⟨quota, time, actor, ⟨object, type, items⟩ :: rest, deleted⟩
    have hpart : (⟨e.blank, []⟩ : Item).encode (lengthOf d.blocks) 0 =
        [e.kind] ++ List.replicate (7 + e.bodyLength) 0 := by
      simp [Item.encode, Bytes.littleEndian, List.replicate_add]
    have hlength : [e.kind].length + (7 + e.bodyLength) = Event.headLength + e.bodyLength := by
      rw [List.length_singleton, Event.headLength]
      omega
    have hgrown : lengthOf (g d.blocks) = lengthOf d.blocks + (Event.headLength + e.bodyLength) := by
      simp only [d, g, List.modifyHead_cons, lengthOf_cons, Block.length, Item.totalLength, Item.length_blank,
        List.length_nil]
      omega
    have hbody : lengthOf d.blocks + Event.headLength ≤ capacity :=
      Nat.le_trans (Nat.add_le_add_left (Nat.le_add_right _ _) _) hroom
    have hlast : lengthOf d.blocks = lengthOf rest + Block.headLength + Item.totalLength items := by
      rw [lengthOf_cons, Block.length, Nat.add_assoc]
    have hcount : items.length + 1 < 1 <<< 32 := by
      have hle := Item.length_le_totalLength items
      have hmax : Quota.maxCapacity < 1 <<< 32 := by decide
      have hcapacity := hl.capacity_le
      rw [hlast, Block.headLength] at hbody
      omega
    have hsum : Reader.sum (lengthOf d.blocks) Event.headLength = some (lengthOf d.blocks + Event.headLength) :=
      Reader.sum_eq (Nat.lt_of_le_of_lt (hbody.trans hl.capacity_le) (by decide))
    rw [← hlength] at hroom
    obtain ⟨arena, hgrow, hcarries⟩ := grow_room hl.capacity_le hl.page_pos hl.page_lt
      (d.items_grow ⟨object, type, items⟩ rest) hl.carries hpart hcount (by rwa [d.length_bytes])
    rw [d.length_bytes, hlength] at hgrow
    refine ⟨_, _, hgrow.bind ((Ends.modify _ _).bind (ends_option hsum _)), ?_, type, items, rest, rfl, rfl⟩
    rw [← hgrown]
    exact hl.within hcarries rfl (by rw [hlast]; rfl) rfl
  · rw [← d.length_flatten] at hfull ⊢
    exact .bind_error (grow_full hl.capacity_le hl.carries hfull)

theorem add_follows (a : Id) (e : Event) :
    Follows capacity pageSize (fun _ => True) (add a e.kind e.bodyLength) (Draft.add a e.blank)
      (LastIs a ⟨e.blank, []⟩) := by
  have hlength := e.bodyLength_blank
  rw [Draft.add, hlength]
  exact (openBlock_follows a).bind fun o _ => appendEvent_follows e o

section Last

variable {l : LinkedDraft} {d : Draft} {e : Event} {stray : Bytes} {body : Nat} {i : Item}

theorem LastIs.lengthOf_eq {blocks : List Block} (h : LastIs a i body blocks) :
    lengthOf blocks + Event.headLength = body + i.length := by
  obtain ⟨type, items, rest, rfl, rfl⟩ := h
  simp only [lengthOf_cons, Block.length, Item.totalLength]
  omega

theorem LastIs.replaceLast (h : LastIs a i body d.blocks) (j : Item) : LastIs a j body (d.replaceLast j).blocks := by
  obtain ⟨type, items, rest, hblocks, hbody⟩ := h
  refine ⟨type, items, rest, ?_, hbody⟩
  rw [Draft.replaceLast, Draft.modifyBlock, hblocks]
  rfl

theorem LastIs.exists_before (h : LastIs a i body d.blocks) : ∃ before : Bytes, before.length = body ∧
    d.bytes = [before, i.event.body (body + i.event.bodyLength), i.event.payload ++ i.stray].flatten ∧
    ∀ j : Item, j.event.kind = i.event.kind → (d.replaceLast j).bytes =
      [before, j.event.body (body + j.event.bodyLength), j.event.payload ++ j.stray].flatten := by
  obtain ⟨quota, time, actor, blocks, deleted⟩ := d
  obtain ⟨type, items, rest, rfl, rfl⟩ := h
  obtain ⟨before, hbefore, hbytes⟩ :=
    Draft.exists_beforeBody ⟨quota, time, actor, [], deleted⟩ a type items rest i.event.kind
  rw [hbefore] at hbytes
  refine ⟨before, hbefore, (hbytes i rfl).trans ?_, fun j hkind => (hbytes j hkind).trans ?_⟩
  · simp
  · simp

theorem Lays.replaceLast (h : Lays capacity pageSize l d) (hlast : LastIs a i body d.blocks) (j : Item)
    {arena : Arena} (hcarries : arena.Carries capacity pageSize [(d.replaceLast j).bytes]) :
    Lays capacity pageSize { l with arena }
      { d.replaceLast j with quota := ⟨capacity, lengthOf (d.replaceLast j).blocks⟩ } := by
  obtain ⟨quota, time, actor, blocks, deleted⟩ := d
  obtain ⟨type, items, rest, rfl, hbody⟩ := hlast
  have hcurrent := h.current_eq
  exact h.within hcarries rfl hcurrent (congrArg (Option.map OpenBlock.offset) hcurrent)

theorem fill_follows {m : Linking Unit} {j : Item} (hkind : j.event.kind = i.event.kind)
    (hbody : j.event.bodyLength = i.event.bodyLength)
    (hafter : j.event.payload ++ j.stray = i.event.payload ++ i.stray)
    (hm : Writes capacity pageSize m body (j.event.body (body + j.event.bodyLength))) :
    Follows capacity pageSize (LastIs a i body) m (modify (Draft.replaceLast j)) fun _ => LastIs a j body := by
  refine .modify fun l d hl hd => ?_
  obtain ⟨before, hbefore, hbytes, hfilled⟩ := hd.exists_before
  obtain ⟨arena, hends, hcarries⟩ := hm l before _ _ hl.capacity_le
    (hl.carries.regroup (List.flatten_singleton.trans hbytes)) hbefore
    (by rw [Event.length_body, Event.length_body, hbody])
  rw [← hafter] at hcarries
  have hlays := hl.replaceLast hd j (hcarries.regroup ((hfilled j hkind).symm.trans List.flatten_singleton.symm))
  have hsame : lengthOf (d.replaceLast j).blocks = lengthOf d.blocks := by
    have hi := hd.lengthOf_eq
    have hj := (hd.replaceLast j).lengthOf_eq
    have hlength := congrArg List.length hafter
    rw [List.length_append, List.length_append] at hlength
    rw [Item.length] at hi hj
    omega
  rw [hsame, ← hl.quota_eq] at hlays
  exact ⟨⟨⟩, { l with arena }, hends, hlays, hd.replaceLast j⟩

theorem allotPayload_follows (e : Event) (stray bs : Bytes) :
    Follows capacity pageSize (LastIs a ⟨e.blank, stray⟩ body) (allotPayload bs)
      (Draft.take bs.length >>= fun _ => modify (Draft.replaceLast ⟨e.blank, stray ++ bs⟩))
      fun offset blocks => LastIs a ⟨e.blank, stray ++ bs⟩ body blocks ∧
        offset = if bs.isEmpty then 0 else body + e.bodyLength + stray.length := by
  let i : Item := ⟨e.blank, stray ++ bs⟩
  let g : List Block → List Block := List.modifyHead fun b => { b with items := i :: b.items.tail }
  refine @Follows.take_modify _ _ _ _ _ _ _ g (fun l d hl hd hroom => ?_) fun l d hl hd hfull => ?_
  · have hbefore := hd.lengthOf_eq
    rw [Item.length_blank] at hbefore
    have hgrown : lengthOf (g d.blocks) = lengthOf d.blocks + bs.length := by
      have hafter : lengthOf (g d.blocks) + Event.headLength = body + i.length := (hd.replaceLast i).lengthOf_eq
      rw [Item.length_blank, List.length_append] at hafter
      omega
    obtain ⟨before, -, hbytes, hfilled⟩ := hd.exists_before
    rw [← d.length_flatten] at hroom
    obtain ⟨arena, hallot, hcarries⟩ := allotPayload_room hl.capacity_le hl.page_pos hl.page_lt hl.carries hroom
    have hcarries : arena.Carries capacity pageSize [(d.replaceLast i).bytes] := by
      refine hcarries.regroup ?_
      simp [hbytes, hfilled i rfl, i]
    have hlays := hl.replaceLast hd i hcarries
    refine ⟨_, _, hallot, ?_, hd.replaceLast i, ?_⟩
    · rw [← hgrown]
      exact hlays
    · rw [d.length_flatten]
      split <;> omega
  · rw [← d.length_flatten] at hfull ⊢
    exact allotPayload_full hl.capacity_le hl.carries hfull

end Last

theorem setType_follows {i : Item} {body : Nat} (a type : Id) :
    Follows capacity pageSize (LastIs a i body) (setType a type)
      (modify (Draft.modifyBlock fun b => { b with type })) fun _ _ => True := by
  refine .modify fun l d hl hd => ?_
  obtain ⟨quota, time, actor, blocks, deleted⟩ := d
  obtain ⟨_, items, rest, rfl, -⟩ := hd
  let d : Draft := ⟨quota, time, actor, [], deleted⟩
  obtain ⟨before, after, hbefore, hbytes⟩ := d.exists_type [] rest a (i :: items)
  have hput : Writes capacity pageSize (do put (← Reader.sum (lengthOf rest) 16) type.bytes) (lengthOf rest + 16)
      type.bytes := .sum .put
  obtain ⟨arena, hput, hcarries⟩ := hput l before _ after hl.capacity_le
    (hl.carries.regroup (List.flatten_singleton.trans (hbytes _))) hbefore (by rw [Id.length_bytes, Id.length_bytes])
  have hcurrent := hl.current_eq
  have hlays := hl.within (hcarries.regroup ((hbytes type).symm.trans List.flatten_singleton.symm)) rfl hcurrent
    (congrArg (Option.map OpenBlock.offset) hcurrent)
  have hquota : quota = _ := hl.quota_eq
  refine ⟨⟨⟩, { l with arena }, (hl.openBlock_ends rfl).bind hput, ?_, trivial⟩
  rw [Draft.modifyBlock, hquota]
  exact hlays

theorem addObjectEvent_follows (a : Id) {e : Event} {type : Id} (hlength : e.bodyLength = 16)
    (hpayload : e.payload = []) (hbody : ∀ offset, e.body offset = type.bytes) :
    Follows capacity pageSize (fun _ => True) (addObjectEvent a e.kind type) (Draft.addObjectEvent a e type)
      fun _ _ => True := by
  rw [Draft.addObjectEvent, Draft.add_eq, bind_assoc]
  have hadd := @add_follows capacity pageSize a e
  rw [hlength] at hadd
  refine hadd.bind fun body _ => (fill_follows ?_ ?_ ?_ ?_).bind fun _ _ => setType_follows a type
  · exact e.kind_blank.symm
  · exact e.bodyLength_blank.symm
  · rw [hpayload, e.payload_blank]
  · rw [hbody]
    exact .put

theorem addHalf_follows {h : Half} {e : Event} (hlength : e.bodyLength = 48) (hpayload : e.payload = [])
    (hbody : ∀ offset, e.body offset = h.field.bytes ++ h.other.bytes ++ h.otherField.bytes) :
    Follows capacity pageSize (fun _ => True) (addHalf e.kind h) (Draft.add h.object e) fun _ _ => True := by
  rw [Draft.add_eq]
  have hadd := @add_follows capacity pageSize h.object e
  rw [hlength] at hadd
  refine hadd.bind fun body _ => ((fill_follows ?_ ?_ ?_ ?_).mono (fun _ h => h) fun _ _ _ => trivial)
  · exact e.kind_blank.symm
  · exact e.bodyLength_blank.symm
  · rw [hpayload, e.payload_blank]
  · rw [hbody, List.append_assoc]
    exact .append .put (by rw [Id.length_bytes]) (.sum (.append .put (by rw [Id.length_bytes]) (.sum .put)))

theorem addChange_follows (a field : Id) (old new : Bytes) :
    Follows capacity pageSize (fun _ => True) (addChange a field old new) (Draft.addChange a field old new)
      fun _ _ => True := by
  rw [Draft.addChange_eq]
  let e : Event := .changed Id.nil [] []
  refine (add_follows a e).bind fun body _ => (allotPayload_follows e [] old).bind fun oldAt _ => ?_
  refine .of_fact fun hold => (allotPayload_follows e ([] ++ old) new).bind fun newAt _ => .of_fact fun hnew => ?_
  refine (fill_follows ?_ ?_ ?_ ?_).mono (fun _ h => h) fun _ _ _ => trivial
  · rfl
  · rfl
  · simp [Event.payload, Event.blank, e]
  · have hbody : (Event.changed field old new).body (body + 32) = field.bytes ++ (Bytes.littleEndian 4 oldAt ++
        (Bytes.littleEndian 4 old.length ++ (Bytes.littleEndian 4 newAt ++ Bytes.littleEndian 4 new.length))) := by
      rw [hold, hnew]
      simp [Event.body, Event.pointer, Event.bodyLength, e]
    have hfour (offset n : Nat) : offset + (Bytes.littleEndian 4 n).length = offset + 4 := by
      rw [Bytes.length_littleEndian]
    change Writes _ _ _ _ ((Event.changed field old new).body (body + 32))
    rw [hbody]
    exact .append .put (by rw [Id.length_bytes]) (.sum (.append .put (hfour _ _) (.sum (.append .put (hfour _ _)
      (.sum (.append .put (hfour _ _) (.sum .put)))))))

theorem observeObject_follows (a : Id) (c : Change) :
    Follows capacity pageSize (fun _ => True) (observeObject a c) (Draft.observeObject a c) fun _ _ => True := by
  have hcreated (type : Id) :
      Follows capacity pageSize (fun _ => True) (addObjectEvent a 1 type) (Draft.addObjectEvent a (.created type) type)
        fun _ _ => True := @addObjectEvent_follows _ _ a (.created type) type rfl rfl fun _ => rfl
  have hdeleted (type : Id) :
      Follows capacity pageSize (fun _ => True) (addObjectEvent a 2 type) (Draft.addObjectEvent a (.deleted type) type)
        fun _ _ => True := @addObjectEvent_follows _ _ a (.deleted type) type rfl rfl fun _ => rfl
  refine .ofExcept_bind fun old => .ofExcept_bind fun new => ?_
  rcases old with _ | before <;> rcases new with _ | after
  · exact .pure fun _ _ => trivial
  · exact hcreated after
  · refine (hdeleted before).bind fun _ _ => .modify fun l d hl _ => ?_
    exact ⟨⟨⟩, _, .modify _ l, { hl with deleted_eq := rfl }, trivial⟩
  · exact .ite (.pure fun _ _ => trivial) ((hdeleted before).bind fun _ _ => hcreated after)

theorem observeAssociation_follows (h : Half) (c : Change) :
    Follows capacity pageSize (fun _ => True) (observeAssociation h c) (Draft.observeAssociation h c)
      fun _ _ => True := by
  have hlinked := @addHalf_follows capacity pageSize h (.linked h.field h.other h.otherField) rfl rfl fun _ => rfl
  have hunlinked := @addHalf_follows capacity pageSize h (.unlinked h.field h.other h.otherField) rfl rfl fun _ => rfl
  rw [observeAssociation, Draft.observeAssociation]
  rcases c.old with _ | old <;> rcases c.new with _ | new
  · exact .pure fun _ _ => trivial
  · exact hlinked
  · exact hunlinked
  · exact .pure fun _ _ => trivial

theorem observe_follows (c : Change) :
    Follows capacity pageSize (fun _ => True) (observe c) (Draft.observe c) fun _ _ => True := by
  rw [observe, Draft.observe]
  rcases Key.ofBytes? c.key with _ | (a | ⟨a, f⟩ | h)
  · exact .throw _
  · exact observeObject_follows a c
  · refine .get_bind fun l d hdeleted => ?_
    rw [hdeleted]
    exact .ite (.pure fun _ _ => trivial) (addChange_follows a f _ _)
  · refine .get_bind fun l d hdeleted => ?_
    rw [hdeleted]
    exact .ite (.pure fun _ _ => trivial) (observeAssociation_follows h c)

theorem observe_all_follows (changes : List Change) :
    Follows capacity pageSize (fun _ => True) (changes.forM observe) (changes.forM Draft.observe) fun _ _ => True := by
  induction changes with
  | nil => exact .pure fun _ _ => trivial
  | cons c changes ih => exact (observe_follows c).bind fun _ _ => ih

end Functions

end LinkedDraft

end ObjectGraph
