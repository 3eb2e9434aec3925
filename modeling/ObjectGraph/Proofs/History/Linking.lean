import ObjectGraph.Proofs.Arena.Pieces
import ObjectGraph.Proofs.History.Layout
import ObjectGraph.Proofs.History.Reader
import ObjectGraph.Proofs.Lockstep
/-!
A draft in an arena does what the draft does that it lays out. In between two writes the bytes are those of no
draft; each write is over one piece of them, and leaves the others as they are.
-/

namespace ObjectGraph

open Stateful (Ends Both)

namespace Draft

theorem length_flatten (d : Draft) : [d.bytes].flatten.length = lengthOf d.blocks := by
  rw [List.flatten_singleton, length_bytes]

section Take

variable {d : Draft} {capacity used n : Nat} (hquota : d.quota = ⟨capacity, used⟩)

include hquota

theorem take_room (h : used + n ≤ capacity) :
    (take n).run d = (.ok ⟨⟩, { d with quota := ⟨capacity, used + n⟩ }) := by
  have htake : d.quota.take n = .ok ⟨capacity, used + n⟩ := by
    rw [hquota]
    exact if_pos h
  simp only [take, Stateful.run_bind, Stateful.run_get, Stateful.run_ofExcept, htake, Stateful.run_set]

theorem take_full (h : ¬ used + n ≤ capacity) :
    (take n).run d = (.error (.arenaExhausted n used capacity), d) := by
  have htake : d.quota.take n = .error (.arenaExhausted n used capacity) := by
    rw [hquota]
    exact if_neg h
  simp only [take, Stateful.run_bind, Stateful.run_get, Stateful.run_ofExcept, htake]

end Take

end Draft

namespace LinkedDraft

open Draft (lengthOf lengthOf_cons openBlock? linkOf Grows)

theorem ends_reader {σ α : Type} {m : Reader α} {r : Except Error α} (h : m.run = some r) (s : σ) :
    Ends (liftM m : ExceptT Error (StateT σ Option) α) s r s := by
  change (m.run.bind fun r => some (r, s)) = _
  rw [h]
  rfl

theorem ends_option_bind {σ α β : Type} {x : Option α} {a : α} {f : α → ExceptT Error (StateT σ Option) β}
    {s t : σ} {r : Except Error β} (h : x = some a) (hf : Ends (f a) s r t) :
    Ends ((liftM x : ExceptT Error (StateT σ Option) α) >>= f) s r t := by
  subst h
  exact hf

theorem ends_option {σ α : Type} {x : Option α} {a : α} (h : x = some a) (s : σ) :
    Ends (liftM x : ExceptT Error (StateT σ Option) α) s (.ok a) s := by
  subst h
  rfl

section Steps

variable {capacity pageSize : Nat} {l : LinkedDraft} {ps : List Bytes}

section Words

variable (hcapacity : capacity ≤ Quota.maxCapacity)

include hcapacity

theorem sum_eq {a : Arena} (h : a.Carries capacity pageSize ps) (i : Nat) {base n : Nat}
    (hoffset : (ps.take i).flatten.length = base + n) : Reader.sum base n = some (base + n) := by
  have hle := h.length_le
  have hmax : Quota.maxCapacity < 1 <<< 64 := by decide
  rw [← List.take_append_drop i ps, List.flatten_append, List.length_append, hoffset] at hle
  exact Reader.sum_eq (by omega)

theorem put_ends (l : LinkedDraft) {a : Arena} (h : a.Carries capacity pageSize ps) (i offset : Nat)
    (bs : Bytes) {old : Bytes} (hi : ps[i]? = some old) (hoffset : (ps.take i).flatten.length = offset)
    (hlength : bs.length = old.length) :
    ∃ arena, Ends (put offset bs) { l with arena := a } (.ok ⟨⟩) { l with arena } ∧
      arena.Carries capacity pageSize (ps.set i bs) := by
  obtain ⟨arena, hpatch, hcarries⟩ := h.patch hcapacity hi hlength
  rw [hoffset] at hpatch
  exact ⟨arena, .get_bind (ends_option_bind hpatch (.modify _ _)), hcarries⟩

theorem allot_full (h : l.arena.Carries capacity pageSize ps) {n : Nat}
    (hfull : ¬ ps.flatten.length + n ≤ capacity) :
    Ends (allot n) l (.error (.arenaExhausted n ps.flatten.length capacity)) l :=
  .get_bind (.bind_error (ends_reader (h.allocZeroed_full hcapacity hfull) l))

theorem allotPayload_full (h : l.arena.Carries capacity pageSize ps) {bs : Bytes}
    (hfull : ¬ ps.flatten.length + bs.length ≤ capacity) :
    Ends (allotPayload bs) l (.error (.arenaExhausted bs.length ps.flatten.length capacity)) l := by
  have hne : ¬ bs.isEmpty = true := fun hempty => hfull (by
    rw [List.isEmpty_iff.mp hempty]
    exact h.length_le)
  rw [allotPayload, if_neg hne]
  exact .get_bind (.bind_error (ends_reader (h.alloc_full hcapacity hfull) l))

theorem grow_full (h : l.arena.Carries capacity pageSize ps) {last : Option Nat} {next head n length : Nat}
    {first : Bytes} (hfull : ¬ ps.flatten.length + length ≤ capacity) :
    Ends (grow last next head n length first) l (.error (.arenaExhausted length ps.flatten.length capacity)) l :=
  .bind_error (allot_full hcapacity h hfull)

variable (hpage : 0 < pageSize) (hword : pageSize < 1 <<< 64)

include hpage hword

theorem allot_room (h : l.arena.Carries capacity pageSize ps) {n : Nat}
    (hroom : ps.flatten.length + n ≤ capacity) :
    ∃ arena, Ends (allot n) l (.ok ps.flatten.length) { l with arena } ∧
      arena.Carries capacity pageSize (ps ++ [List.replicate n 0]) := by
  obtain ⟨arena, halloc, hcarries⟩ := h.allocZeroed hcapacity hpage hword hroom
  exact ⟨arena, .get_bind ((ends_reader halloc l).bind ((Ends.modify _ _).bind (.pure _ _))), hcarries⟩

theorem allotPayload_room (h : l.arena.Carries capacity pageSize ps) {bs : Bytes}
    (hroom : ps.flatten.length + bs.length ≤ capacity) :
    ∃ arena, Ends (allotPayload bs) l (.ok (if bs.isEmpty then 0 else ps.flatten.length)) { l with arena } ∧
      arena.Carries capacity pageSize (ps ++ [bs]) := by
  rw [allotPayload]
  split
  next hempty =>
    refine ⟨l.arena, .pure _ _, h.regroup ?_⟩
    rw [List.isEmpty_iff.mp hempty, List.flatten_append, List.flatten_singleton, List.append_nil]
  next =>
    obtain ⟨arena, halloc, hcarries⟩ := h.alloc hcapacity hpage hword hroom
    exact ⟨arena, .get_bind ((ends_reader halloc l).bind ((Ends.modify _ _).bind (.pure _ _))), hcarries⟩

theorem grow_room {α : Type} {bs first : Bytes} {head next n blank : Nat} {last : Option Nat}
    {grown part : α → Bytes} (hgrows : Grows bs head last next n grown part)
    (h : l.arena.Carries capacity pageSize [bs]) {x : α} (hpart : part x = first ++ List.replicate blank 0)
    (hn : n + 1 < 1 <<< 32) (hroom : bs.length + (first.length + blank) ≤ capacity) :
    ∃ arena, Ends (grow last next head (n + 1) (first.length + blank) first) l (.ok bs.length) { l with arena } ∧
      arena.Carries capacity pageSize [grown x] := by
  obtain ⟨before, middle, after, hcount, hlink, hbs, hgrown⟩ := hgrows
  have hwhole : [bs].flatten = bs := List.flatten_singleton
  -- cut so that each of the writes is over one piece
  obtain ⟨a₁, hallot, h₁⟩ := allot_room hcapacity hpage hword h (hwhole ▸ hroom)
  rw [hwhole] at hallot
  have h₁ : a₁.Carries capacity pageSize [before, Bytes.littleEndian 4 n, middle, Bytes.littleEndian 4 0, after,
      List.replicate first.length 0, List.replicate blank 0] := by
    refine h₁.regroup ?_
    rw [List.flatten_append, hwhole, hbs, List.replicate_add]
    simp
  obtain ⟨a₂, hfirst, h₂⟩ := put_ends hcapacity l h₁ 5 bs.length first rfl (by rw [hbs]; simp)
    List.length_replicate.symm
  have hlink : ([before, Bytes.littleEndian 4 n, middle] : List Bytes).flatten.length = linkOf last next head := by
    rw [← hlink]
    simp
  have hcount : ([before] : List Bytes).flatten.length = head + 32 := by rw [List.flatten_singleton, hcount]
  obtain ⟨a₃, hlinked, h₃⟩ := put_ends hcapacity l h₂ 3 _ (Bytes.littleEndian 4 bs.length) rfl hlink
    (by simp only [Bytes.length_littleEndian])
  obtain ⟨a₄, hcounted, h₄⟩ := put_ends hcapacity l h₃ 1 _ (Bytes.littleEndian 4 (n + 1)) rfl hcount
    (by simp only [Bytes.length_littleEndian])
  have hlinks : Ends (link last next head bs.length) { l with arena := a₂ } (.ok ⟨⟩) { l with arena := a₃ } := by
    cases last with
    | none => exact ends_option_bind (sum_eq hcapacity h₂ 3 hlink) hlinked
    | some last => exact ends_option_bind (sum_eq hcapacity h₂ 3 hlink) hlinked
  have hcounts : Ends (count head (n + 1)) { l with arena := a₃ } (.ok ⟨⟩) { l with arena := a₄ } :=
    ends_option_bind (sum_eq hcapacity h₃ 1 hcount) (ends_option_bind (Words.fit_of_lt hn) hcounted)
  refine ⟨a₄, hallot.bind (hfirst.bind (hlinks.bind (hcounts.bind (.pure _ _)))), h₄.regroup ?_⟩
  rw [hgrown, hpart]
  simp

end Words

end Steps

def Writes (capacity pageSize : Nat) (m : Linking Unit) (offset : Nat) (bs : Bytes) : Prop :=
  ∀ (l : LinkedDraft) (before old after : Bytes), capacity ≤ Quota.maxCapacity →
    l.arena.Carries capacity pageSize [before, old, after] → before.length = offset → old.length = bs.length →
    ∃ arena, Ends m l (.ok ⟨⟩) { l with arena } ∧ arena.Carries capacity pageSize [before, bs, after]

namespace Writes

variable {capacity pageSize offset n : Nat} {bs bs' : Bytes}

theorem put : Writes capacity pageSize (LinkedDraft.put offset bs) offset bs := by
  intro l before old after hcapacity hcarries hoffset hlength
  exact put_ends hcapacity l hcarries 1 offset bs rfl
    (by rwa [List.take_succ_cons, List.take_zero, List.flatten_singleton]) hlength.symm

theorem sum {f : Nat → Linking Unit} (h : Writes capacity pageSize (f (offset + n)) (offset + n) bs) :
    Writes capacity pageSize (do f (← Reader.sum offset n)) (offset + n) bs := by
  intro l before old after hcapacity hcarries hoffset hlength
  obtain ⟨arena, hends, hwritten⟩ := h l before old after hcapacity hcarries hoffset hlength
  refine ⟨arena, ends_option_bind (sum_eq hcapacity hcarries 1 ?_) hends, hwritten⟩
  rwa [List.take_succ_cons, List.take_zero, List.flatten_singleton]

theorem append {m m' : Linking Unit} (h : Writes capacity pageSize m offset bs) (hn : offset + bs.length = n)
    (h' : Writes capacity pageSize m' n bs') :
    Writes capacity pageSize (m >>= fun _ => m') offset (bs ++ bs') := by
  intro l before old after hcapacity hcarries hoffset hlength
  rw [List.length_append] at hlength
  have hsplit : l.arena.Carries capacity pageSize [before, old.take bs.length, old.drop bs.length ++ after] := by
    refine hcarries.regroup ?_
    conv_lhs => rw [← List.take_append_drop bs.length old]
    simp only [List.flatten_cons, List.flatten_nil, List.append_assoc]
  obtain ⟨arena, hends, hcarries⟩ := h l _ _ _ hcapacity hsplit hoffset (by rw [List.length_take]; omega)
  have hrest : arena.Carries capacity pageSize [before ++ bs, old.drop bs.length, after] := by
    refine hcarries.regroup ?_
    simp
  obtain ⟨arena', hends', hcarries⟩ := h' { l with arena } _ _ _ hcapacity hrest
    (by rw [List.length_append, hoffset, hn]) (by rw [List.length_drop]; omega)
  refine ⟨arena', hends.bind hends', hcarries.regroup ?_⟩
  simp

end Writes

/-- What an arena holds is the draft, and what is kept beside it tells where the last parts of the draft are. -/
structure Lays (capacity pageSize : Nat) (l : LinkedDraft) (d : Draft) : Prop where
  capacity_le : capacity ≤ Quota.maxCapacity
  page_pos : 0 < pageSize
  page_lt : pageSize < 1 <<< 64
  carries : l.arena.Carries capacity pageSize [d.bytes]
  quota_eq : d.quota = ⟨capacity, lengthOf d.blocks⟩
  objects_eq : l.objects = d.blocks.length
  current_eq : l.current = openBlock? d.blocks
  lastObject_eq : l.lastObject = (openBlock? d.blocks).map OpenBlock.offset
  deleted_eq : l.deleted = d.deleted
  touched_eq : l.touched = d.touched

section Lays

variable {capacity pageSize : Nat} {l : LinkedDraft} {d : Draft}

theorem Lays.lengthOf_le (h : Lays capacity pageSize l d) : lengthOf d.blocks ≤ capacity :=
  d.length_flatten ▸ h.carries.length_le

theorem Lays.within (h : Lays capacity pageSize l d) {blocks : List Block} {arena : Arena}
    {current : Option OpenBlock} (hcarries : arena.Carries capacity pageSize [{ d with blocks }.bytes])
    (hobjects : blocks.map Block.object = d.blocks.map Block.object) (hcurrent : current = openBlock? blocks)
    (hlast : current.map OpenBlock.offset = (openBlock? d.blocks).map OpenBlock.offset) :
    Lays capacity pageSize { l with arena, current } { d with quota := ⟨capacity, lengthOf blocks⟩, blocks } := by
  have hlength := congrArg List.length hobjects
  rw [List.length_map, List.length_map] at hlength
  refine ⟨h.capacity_le, h.page_pos, h.page_lt, hcarries, rfl, h.objects_eq.trans hlength.symm, hcurrent, ?_,
    h.deleted_eq, ?_⟩
  · rw [← hcurrent, hlast, ← h.lastObject_eq]
  · exact h.touched_eq.trans (congrArg List.reverse hobjects.symm)

end Lays

/-- A step on an arena ends, with what the step on the draft ends with and with what that leaves. -/
def Follows {α β : Type} (capacity pageSize : Nat) (P : List Block → Prop) (m : Linking α) (m' : Drafting β)
    (Q : α → List Block → Prop) : Prop :=
  ∀ l d, Lays capacity pageSize l d → P d.blocks → ∃ r l', Ends m l r l' ∧
    Lays capacity pageSize l' (m'.run d).2 ∧ Both (fun a _ => Q a (m'.run d).2.blocks) r (m'.run d).1

namespace Follows

variable {capacity pageSize : Nat} {α β γ δ : Type} {P P' : List Block → Prop} {m : Linking α} {m' : Drafting β}
  {Q : α → List Block → Prop} {R : γ → List Block → Prop}

theorem pure {a : α} {b : β} (h : ∀ blocks, P blocks → Q a blocks) :
    Follows capacity pageSize P (Pure.pure a) (Pure.pure b) Q :=
  fun l _ hl hd => ⟨_, l, .pure a l, hl, .ok (h _ hd)⟩

theorem throw (e : Error) :
    Follows capacity pageSize P (MonadExcept.throw e) (MonadExcept.throw e : Drafting β) Q :=
  fun l _ hl _ => ⟨_, l, .throw e l, hl, .error e⟩

theorem bind {f : α → Linking γ} {f' : β → Drafting δ} (h : Follows capacity pageSize P m m' Q)
    (hf : ∀ a b, Follows capacity pageSize (Q a) (f a) (f' b) R) :
    Follows capacity pageSize P (m >>= f) (m' >>= f') R := by
  intro l d hl hd
  obtain ⟨r, l', hm, hl', hboth⟩ := h l d hl hd
  rw [Stateful.run_bind]
  rcases hrun : m'.run d with ⟨r', d'⟩
  rw [hrun] at hl' hboth
  cases hboth with
  | @ok a b hQ =>
    obtain ⟨r, l'', hf, hl'', hboth⟩ := hf a b l' d' hl' hQ
    exact ⟨r, l'', hm.bind hf, hl'', hboth⟩
  | error e => exact ⟨.error e, l', hm.bind_error, hl', .error e⟩

theorem ofExcept_bind {x : Except Error δ} {f : δ → Linking α} {f' : δ → Drafting β}
    (hf : ∀ a, Follows capacity pageSize P (f a) (f' a) Q) :
    Follows capacity pageSize P (MonadExcept.ofExcept x >>= f) (MonadExcept.ofExcept x >>= f') Q := by
  cases x with
  | ok a => exact hf a
  | error e => exact fun l _ hl _ => ⟨_, l, (Ends.throw e l).bind_error, hl, .error e⟩

theorem get_bind {f : LinkedDraft → Linking α} {f' : Draft → Drafting β}
    (hf : ∀ (l : LinkedDraft) (d : Draft), l.deleted = d.deleted → Follows capacity pageSize P (f l) (f' d) Q) :
    Follows capacity pageSize P (get >>= f) (get >>= f') Q := by
  intro l d hl hd
  obtain ⟨r, l', hends, hrest⟩ := hf l d hl.deleted_eq l d hl hd
  exact ⟨r, l', .get_bind hends, hrest⟩

theorem mono (h : Follows capacity pageSize P m m' Q) {Q' : α → List Block → Prop}
    (hP : ∀ blocks, P' blocks → P blocks) (hQ : ∀ a blocks, Q a blocks → Q' a blocks) :
    Follows capacity pageSize P' m m' Q' := by
  intro l d hl hd
  obtain ⟨r, l', hends, hl', hboth⟩ := h l d hl (hP _ hd)
  exact ⟨r, l', hends, hl', hboth.mono fun a _ => hQ a _⟩

theorem of_fact {p : Prop} (h : p → Follows capacity pageSize P m m' Q) :
    Follows capacity pageSize (fun blocks => P blocks ∧ p) m m' Q := fun l d hl hd => h hd.2 l d hl hd.1

theorem ite {c : Prop} [Decidable c] {n : Linking α} {n' : Drafting β} (h : Follows capacity pageSize P m m' Q)
    (h' : Follows capacity pageSize P n n' Q) :
    Follows capacity pageSize P (if c then m else n) (if c then m' else n') Q := by split <;> assumption

theorem take_modify {n : Nat} {g : List Block → List Block}
    (hroom : ∀ l d, Lays capacity pageSize l d → P d.blocks → lengthOf d.blocks + n ≤ capacity →
      ∃ a l', Ends m l (.ok a) l' ∧ Lays capacity pageSize l'
        { d with quota := ⟨capacity, lengthOf d.blocks + n⟩, blocks := g d.blocks } ∧ Q a (g d.blocks))
    (hfull : ∀ l d, Lays capacity pageSize l d → P d.blocks → ¬ lengthOf d.blocks + n ≤ capacity →
      Ends m l (.error (.arenaExhausted n (lengthOf d.blocks) capacity)) l) :
    Follows capacity pageSize P m
      (Draft.take n >>= fun _ => modify fun d => { d with blocks := g d.blocks }) Q := by
  intro l d hl hd
  rw [Stateful.run_bind]
  by_cases hle : lengthOf d.blocks + n ≤ capacity
  · rw [Draft.take_room hl.quota_eq hle]
    obtain ⟨a, l', hends, hl', hQ⟩ := hroom l d hl hd hle
    exact ⟨.ok a, l', hends, hl', .ok hQ⟩
  · rw [Draft.take_full hl.quota_eq hle]
    exact ⟨_, l, hfull l d hl hd hle, hl, .error _⟩

theorem modify {g : Draft → Draft} (h : ∀ l d, Lays capacity pageSize l d → P d.blocks →
      ∃ a l', Ends m l (.ok a) l' ∧ Lays capacity pageSize l' (g d) ∧ Q a (g d).blocks) :
    Follows capacity pageSize P m (modify g) Q := by
  intro l d hl hd
  obtain ⟨a, l', hends, hl', hQ⟩ := h l d hl hd
  exact ⟨.ok a, l', hends, hl', .ok hQ⟩

end Follows

end LinkedDraft

end ObjectGraph
