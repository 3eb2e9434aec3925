import ObjectGraph.History.LinkedDraft
import ObjectGraph.Proofs.History.Record

namespace ObjectGraph

theorem Id.bytes_nil : Id.nil.bytes = List.replicate 16 0 := by decide

namespace Event

def blank : Event → Event
  | created _ => created Id.nil
  | deleted _ => deleted Id.nil
  | changed .. => changed Id.nil [] []
  | linked .. => linked Id.nil Id.nil Id.nil
  | unlinked .. => unlinked Id.nil Id.nil Id.nil

variable (e : Event)

@[simp] theorem kind_blank : e.blank.kind = e.kind := by cases e <;> rfl

@[simp] theorem bodyLength_blank : e.blank.bodyLength = e.bodyLength := by cases e <;> rfl

@[simp] theorem payload_blank : e.blank.payload = [] := by cases e <;> rfl

@[simp] theorem body_blank (offset : Nat) : e.blank.body offset = List.replicate e.bodyLength 0 := by
  cases e <;> simp [blank, body, bodyLength, pointer, Bytes.littleEndian, Id.bytes_nil]

end Event

theorem Item.length_blank (e : Event) (stray : Bytes) :
    (⟨e.blank, stray⟩ : Item).length = Event.headLength + e.bodyLength + stray.length := by
  rw [length, Event.bodyLength_blank, Event.payload_blank, List.length_nil, Nat.add_zero]

namespace Draft

section Chains

variable {α : Type} (length : α → Nat) (encode : α → Nat → Nat → Bytes)

def chain (offset : Nat) : List α → Bytes
  | [] => []
  | x :: rest =>
    encode x offset (if rest.isEmpty then 0 else offset + length x) ++ chain (offset + length x) rest

def linked (offset : Nat) : List α → Bytes
  | [] => []
  | x :: rest => encode x offset (offset + length x) ++ linked (offset + length x) rest

variable {length encode}

theorem chain_append {l m : List α} (hm : m ≠ []) (offset : Nat) :
    chain length encode offset (l ++ m) =
      linked length encode offset l ++ chain length encode (offset + (l.map length).sum) m := by
  induction l generalizing offset with
  | nil => rfl
  | cons x l ih =>
    have hne : (l ++ m).isEmpty = false := by simp [hm]
    rw [List.cons_append, chain, linked, hne, if_neg Bool.false_ne_true, ih, List.map_cons, List.sum_cons,
      Nat.add_assoc, List.append_assoc]

theorem linked_append (l m : List α) (offset : Nat) :
    linked length encode offset (l ++ m) =
      linked length encode offset l ++ linked length encode (offset + (l.map length).sum) m := by
  induction l generalizing offset with
  | nil => rfl
  | cons x l ih =>
    rw [List.cons_append, linked, linked, ih, List.map_cons, List.sum_cons, Nat.add_assoc, List.append_assoc]

theorem length_linked (hlength : ∀ x offset next, (encode x offset next).length = length x) (offset : Nat)
    (l : List α) : (linked length encode offset l).length = (l.map length).sum := by
  induction l generalizing offset with
  | nil => rfl
  | cons x l ih => rw [linked, List.length_append, hlength, ih, List.map_cons, List.sum_cons]

end Chains

theorem encodeAll_items (offset : Nat) (items : List Item) :
    Item.encodeAll offset items = chain Item.length Item.encode offset items := by
  induction items generalizing offset with
  | nil => rfl
  | cons i rest ih => rw [Item.encodeAll, chain, ih]

theorem encodeAll_blocks (offset : Nat) (blocks : List Block) :
    Block.encodeAll offset blocks = chain Block.length Block.encode offset blocks := by
  induction blocks generalizing offset with
  | nil => rfl
  | cons b rest ih => rw [Block.encodeAll, chain, ih]

theorem encodeAll_items_reverse (offset : Nat) (i : Item) (items : List Item) :
    Item.encodeAll offset (i :: items).reverse = linked Item.length Item.encode offset items.reverse ++
      i.encode (offset + Item.totalLength items) 0 := by
  rw [encodeAll_items, List.reverse_cons, chain_append (List.cons_ne_nil _ _), List.map_reverse, List.sum_reverse,
    ← Item.totalLength_eq_sum, chain, chain, List.append_nil]
  rfl

theorem linked_items (offset : Nat) (i : Item) (items : List Item) :
    linked Item.length Item.encode offset (i :: items).reverse = linked Item.length Item.encode offset items.reverse ++
      i.encode (offset + Item.totalLength items) (offset + Item.totalLength items + i.length) := by
  rw [List.reverse_cons, linked_append, List.map_reverse, List.sum_reverse, ← Item.totalLength_eq_sum, linked, linked,
    List.append_nil]

theorem length_linked_items (offset : Nat) (items : List Item) :
    (linked Item.length Item.encode offset items.reverse).length = Item.totalLength items := by
  rw [length_linked fun i => i.length_encode, List.map_reverse, List.sum_reverse, Item.totalLength_eq_sum]

def head (d : Draft) : Bytes :=
  magic ++ Bytes.littleEndian 2 version ++ [0, 0] ++ Bytes.littleEndian 8 d.time.toUInt64.toNat ++ d.actor.bytes

theorem length_head (d : Draft) : d.head.length = 32 := by
  simp only [head, List.length_append, Bytes.length_littleEndian, d.actor.length_bytes]
  rfl

theorem bytes_eq (d : Draft) (blocks : List Block) : { d with blocks }.bytes =
    d.head ++ Bytes.littleEndian 4 blocks.length ++
      Bytes.littleEndian 4 (if blocks.isEmpty then 0 else headLength) ++
      chain Block.length Block.encode headLength blocks.reverse := by
  rw [← encodeAll_blocks]
  rfl

theorem length_linked_blocks (blocks : List Block) :
    (linked Block.length Block.encode headLength blocks.reverse).length + headLength = lengthOf blocks := by
  rw [length_linked fun b => b.length_encode, List.map_reverse, List.sum_reverse, lengthOf, Nat.add_comm]

theorem chain_blocks (b : Block) (later rest : List Block) :
    chain Block.length Block.encode headLength (later ++ b :: rest).reverse =
      linked Block.length Block.encode headLength rest.reverse ++
        (b.encode (lengthOf rest) (if later.isEmpty then 0 else lengthOf (b :: rest)) ++
          chain Block.length Block.encode (lengthOf (b :: rest)) later.reverse) := by
  have hreverse : (later ++ b :: rest).reverse = rest.reverse ++ b :: later.reverse := by simp
  have hsum : headLength + (rest.reverse.map Block.length).sum = lengthOf rest := by
    rw [List.map_reverse, List.sum_reverse, lengthOf]
  rw [hreverse, chain_append (List.cons_ne_nil _ _), hsum, chain, List.isEmpty_reverse, lengthOf_cons]

theorem exists_before (d : Draft) (later rest : List Block) :
    ∃ before, before.length = lengthOf rest ∧ ∀ b, { d with blocks := later ++ b :: rest }.bytes =
      before ++ (b.encode (lengthOf rest) (if later.isEmpty then 0 else lengthOf (b :: rest)) ++
        chain Block.length Block.encode (lengthOf (b :: rest)) later.reverse) := by
  refine ⟨d.head ++ Bytes.littleEndian 4 (later.length + (rest.length + 1)) ++
    Bytes.littleEndian 4 headLength ++ linked Block.length Block.encode headLength rest.reverse, ?_, fun b => ?_⟩
  · rw [← length_linked_blocks rest]
    simp only [List.length_append, length_head, Bytes.length_littleEndian, headLength]
    omega
  · have hne : (later ++ b :: rest).isEmpty = false := by simp
    rw [bytes_eq, hne, if_neg Bool.false_ne_true, chain_blocks, List.length_append, List.length_cons]
    simp only [List.append_assoc]

theorem exists_beforeLast (d : Draft) (rest : List Block) :
    ∃ before, before.length = lengthOf rest ∧ ∀ b, { d with blocks := b :: rest }.bytes =
      before ++ b.encode (lengthOf rest) 0 := by
  obtain ⟨before, hbefore, hbytes⟩ := exists_before d [] rest
  refine ⟨before, hbefore, fun b => (hbytes b).trans ?_⟩
  simp [chain]

theorem hasBlock (d : Draft) (later : List Block) (b : Block) (rest : List Block) :
    RecordBytes.HasBlock { d with blocks := later ++ b :: rest }.bytes (lengthOf rest)
      (if later.isEmpty then 0 else lengthOf (b :: rest)) b := by
  obtain ⟨before, hbefore, hbytes⟩ := exists_before d later rest
  apply RecordBytes.hasBlock
  rw [Bytes.HasAt, hbytes, ← hbefore, List.drop_left]
  exact List.prefix_append _ _

theorem hasAt_firstBlock (d : Draft) :
    Bytes.HasAt d.bytes 36 (Bytes.littleEndian 4 (if d.blocks.isEmpty then 0 else headLength)) := by
  have hwhole : Bytes.HasAt d.bytes 0 d.bytes := List.prefix_rfl
  have hfirst := hwhole.left.right
  simp only [List.length_append, Bytes.length_littleEndian, d.actor.length_bytes] at hfirst
  exact hfirst

theorem exists_blockLink (b : Block) (offset : Nat) :
    ∃ before after, before.length = 40 ∧ ∀ next, b.encode offset next =
      before ++ (Bytes.littleEndian 4 next ++ after) := by
  refine ⟨b.object.bytes ++ b.type.bytes ++ Bytes.littleEndian 4 b.items.length ++
    Bytes.littleEndian 4 (if b.items.isEmpty then 0 else offset + Block.headLength),
    Item.encodeAll (offset + Block.headLength) b.items.reverse, ?_, fun next => ?_⟩
  · simp only [List.length_append, Id.length_bytes, Bytes.length_littleEndian]
  · simp only [Block.encode, List.append_assoc]

theorem exists_itemLink (i : Item) (offset : Nat) :
    ∃ before after, before.length = 4 ∧ ∀ next, i.encode offset next =
      before ++ (Bytes.littleEndian 4 next ++ after) := by
  refine ⟨[i.event.kind, 0, 0, 0], i.event.body (offset + Event.headLength + i.event.bodyLength) ++
    i.event.payload ++ i.stray, rfl, fun next => ?_⟩
  simp only [Item.encode, List.cons_append, List.nil_append, List.append_assoc]

theorem exists_type (d : Draft) (later rest : List Block) (a : Id) (items : List Item) :
    ∃ before after : Bytes, before.length = lengthOf rest + 16 ∧ ∀ type : Id,
      { d with blocks := later ++ (⟨a, type, items⟩ : Block) :: rest }.bytes = [before, type.bytes, after].flatten := by
  obtain ⟨before, hbefore, hbytes⟩ := exists_before d later rest
  let next := if later.isEmpty then 0 else lengthOf (⟨a, Id.nil, items⟩ :: rest)
  let after := Bytes.littleEndian 4 items.length ++
    Bytes.littleEndian 4 (if items.isEmpty then 0 else lengthOf rest + Block.headLength) ++ Bytes.littleEndian 4 next ++
    Item.encodeAll (lengthOf rest + Block.headLength) items.reverse ++
    chain Block.length Block.encode (lengthOf (⟨a, Id.nil, items⟩ :: rest)) later.reverse
  refine ⟨before ++ a.bytes, after, by rw [List.length_append, hbefore, a.length_bytes], fun type => ?_⟩
  have hsame : lengthOf (⟨a, type, items⟩ :: rest) = lengthOf (⟨a, Id.nil, items⟩ :: rest) := rfl
  rw [hbytes, hsame]
  simp [after, next, Block.encode]

theorem exists_beforeBody (d : Draft) (a type : Id) (items : List Item) (rest : List Block) (kind : UInt8) :
    ∃ before, before.length = lengthOf (⟨a, type, items⟩ :: rest) + Event.headLength ∧
      ∀ i : Item, i.event.kind = kind → { d with blocks := ⟨a, type, i :: items⟩ :: rest }.bytes =
        before ++ (i.event.body (before.length + i.event.bodyLength) ++ (i.event.payload ++ i.stray)) := by
  obtain ⟨before, hbefore, hbytes⟩ := exists_beforeLast d rest
  let first := lengthOf rest + Block.headLength
  have hfirst : first + Item.totalLength items = lengthOf (⟨a, type, items⟩ :: rest) := by
    simp only [first, lengthOf_cons, Block.length]
    omega
  let start := before ++ (a.bytes ++ type.bytes ++ Bytes.littleEndian 4 (items.length + 1) ++
    Bytes.littleEndian 4 first ++ Bytes.littleEndian 4 0) ++ linked Item.length Item.encode first items.reverse ++
    (kind :: 0 :: 0 :: 0 :: Bytes.littleEndian 4 0)
  have hlength : start.length = lengthOf (⟨a, type, items⟩ :: rest) + Event.headLength := by
    rw [← hfirst]
    simp only [start, first, List.length_append, List.length_cons, hbefore, Id.length_bytes,
      Bytes.length_littleEndian, length_linked_items, Block.headLength, Event.headLength]
  refine ⟨start, hlength, ?_⟩
  rintro i rfl
  rw [hbytes, Block.encode, encodeAll_items_reverse, Item.encode, hlength, ← hfirst]
  simp [start, first]

def linkOf (last : Option Nat) (next head : Nat) : Nat := (last.map (· + next)).getD (head + 36)

def Grows {α : Type} (bs : Bytes) (head : Nat) (last : Option Nat) (next n : Nat) (grown part : α → Bytes) : Prop :=
  ∃ before middle after, before.length = head + 32 ∧
    (before ++ Bytes.littleEndian 4 n ++ middle).length = linkOf last next head ∧
    bs = [before, Bytes.littleEndian 4 n, middle, Bytes.littleEndian 4 0, after].flatten ∧
    ∀ x, grown x = [before, Bytes.littleEndian 4 (n + 1), middle, Bytes.littleEndian 4 bs.length, after,
      part x].flatten

def openBlock? : List Block → Option OpenBlock
  | [] => none
  | b :: rest => some
    { object := b.object
      offset := lengthOf rest
      lastEvent := b.items.tail?.map fun items => lengthOf rest + Block.headLength + Item.totalLength items
      events := b.items.length }

theorem blocks_grow (d : Draft) (blocks : List Block) :
    Grows { d with blocks }.bytes 0 ((openBlock? blocks).map OpenBlock.offset) 40 blocks.length
      (fun b : Block => { d with blocks := b :: blocks }.bytes) fun b => b.encode (lengthOf blocks) 0 := by
  have hlength : { d with blocks }.bytes.length = lengthOf blocks := length_bytes _
  rw [Grows, hlength]
  cases blocks with
  | nil =>
    refine ⟨d.head, [], [], d.length_head, ?_, ?_, fun b => ?_⟩
    · simp [length_head, Bytes.length_littleEndian, openBlock?, linkOf]
    · simp [bytes_eq, chain]
    · simp [bytes_eq, chain, lengthOf]
  | cons b rest =>
    obtain ⟨before, after, hbefore, hencode⟩ := exists_blockLink b (lengthOf rest)
    let middle := Bytes.littleEndian 4 headLength ++
      linked Block.length Block.encode headLength rest.reverse ++ before
    have hone := chain_blocks b [] rest
    refine ⟨d.head, middle, after, d.length_head, ?_, ?_, fun b' => ?_⟩
    · have hlinked := length_linked_blocks rest
      simp only [middle, List.length_append, length_head, Bytes.length_littleEndian, hbefore, openBlock?, linkOf,
        Option.map_some, Option.getD_some]
      rw [← hlinked, headLength]
      omega
    · rw [List.nil_append, hencode] at hone
      rw [bytes_eq, hone]
      simp [middle, chain]
    · have htwo := chain_blocks b [b'] rest
      rw [List.singleton_append, hencode] at htwo
      rw [bytes_eq, htwo]
      simp [middle, chain]

theorem items_grow (d : Draft) (b : Block) (rest : List Block) :
    let last := b.items.tail?.map fun items => lengthOf rest + Block.headLength + Item.totalLength items
    Grows { d with blocks := b :: rest }.bytes (lengthOf rest) last 4 b.items.length
      (fun i : Item => { d with blocks := { b with items := i :: b.items } :: rest }.bytes)
      fun i => i.encode (lengthOf (b :: rest)) 0 := by
  intro last
  have hlength : { d with blocks := b :: rest }.bytes.length = lengthOf (b :: rest) := length_bytes _
  obtain ⟨before, hbefore, hbytes⟩ := exists_beforeLast d rest
  rw [Grows, hlength]
  obtain ⟨object, type, items⟩ := b
  cases items with
  | nil =>
    refine ⟨before ++ object.bytes ++ type.bytes, [], Bytes.littleEndian 4 0, ?_, ?_, ?_, fun i => ?_⟩
    · simp only [List.length_append, hbefore, Id.length_bytes]
    · simp [hbefore, Id.length_bytes, Bytes.length_littleEndian, last, linkOf]
    · rw [hbytes]
      simp [Block.encode, Item.encodeAll]
    · rw [hbytes]
      simp [Block.encode, Item.encodeAll, lengthOf_cons, Block.length, Item.totalLength]
  | cons i items =>
    obtain ⟨start, after, hstart, hencode⟩ := exists_itemLink i (lengthOf rest + Block.headLength + Item.totalLength items)
    let first := lengthOf rest + Block.headLength
    have hlast : first + Item.totalLength (i :: items) = lengthOf (⟨object, type, i :: items⟩ :: rest) := by
      simp only [first, lengthOf_cons, Block.length]
      omega
    have hend : first + Item.totalLength items + i.length = lengthOf (⟨object, type, i :: items⟩ :: rest) := by
      rw [← hlast, Item.totalLength]
      omega
    let middle := Bytes.littleEndian 4 first ++ Bytes.littleEndian 4 0 ++
      linked Item.length Item.encode first items.reverse ++ start
    refine ⟨before ++ object.bytes ++ type.bytes, middle, after, ?_, ?_, ?_, fun j => ?_⟩
    · simp only [List.length_append, hbefore, Id.length_bytes]
    · simp only [middle, last, linkOf, List.length_append, hbefore, Id.length_bytes, Bytes.length_littleEndian, hstart,
        length_linked_items, List.tail?_cons, Option.map_some, Option.getD_some, Block.headLength]
      omega
    · rw [hbytes, Block.encode, encodeAll_items_reverse, hencode]
      simp [middle, first]
    · rw [hbytes, Block.encode, encodeAll_items_reverse, linked_items, hencode, hend, hlast]
      simp [middle, first]

end Draft

end ObjectGraph
