import ObjectGraph.History.Log
import ObjectGraph.Proofs.History.Record
import ObjectGraph.Proofs.Schema.Admission
import ObjectGraph.Proofs.Session.Records

namespace ObjectGraph

open Dictionary (Ascending)
open Function (update)

namespace Event

def apply (object : Id) (d : List Entry) : Event → List Entry
  | created type => Dictionary.insert KeyOrder.lexicographic (Key.object object).bytes type.bytes d
  | deleted _ => d.filter fun e => ¬ object.bytes.isPrefixOf e.1
  | changed field _ new =>
    if new.isEmpty then Dictionary.erase KeyOrder.lexicographic (Key.field object field).bytes d
    else Dictionary.insert KeyOrder.lexicographic (Key.field object field).bytes new d
  | linked field other otherField =>
    Dictionary.insert KeyOrder.lexicographic
      (Key.association ⟨object, field, other, otherField⟩).bytes [] d
  | unlinked field other otherField =>
    Dictionary.erase KeyOrder.lexicographic
      (Key.association ⟨object, field, other, otherField⟩).bytes d

def act (object : Id) (g : Records) : Event → Records
  | created type => update g (.object object) (some type.bytes)
  | deleted _ => fun k => if k.owner = object then none else g k
  | changed field _ new => update g (.field object field) (if new.isEmpty then none else some new)
  | linked field other otherField =>
    update g (.association ⟨object, field, other, otherField⟩) (some [])
  | unlinked field other otherField => update g (.association ⟨object, field, other, otherField⟩) none

end Event

def Commit.replay (d : List Entry) (c : Commit) : List Entry :=
  c.objects.foldl (fun d b => b.events.foldl (Event.apply b.object) d) d

def History.replay (h : History) : Except Error (List Entry) := do
  (← h.commits).foldlM (fun d c => return (← h.commit? c).elim d (Commit.replay d)) []

structure Recording (d : List Entry) : Prop where
  ascending : Ascending KeyOrder.lexicographic d
  keyed : Keyed d

variable {d d' : List Entry}

theorem Recording.ext (h : Recording d) (h' : Recording d') (heq : recorded d = recorded d') : d = d' := by
  have hsubset : ∀ {d d' : List Entry}, Recording d → Recording d' → recorded d = recorded d' →
      ∀ e ∈ d, e ∈ d' := by
    rintro d d' h h' heq ⟨bs, v⟩ he
    obtain ⟨k, rfl⟩ := h.keyed _ he
    rw [← recorded_eq_some_iff h.ascending, heq] at he
    exact (recorded_eq_some_iff h'.ascending).mp he
  exact h.ascending.ext h'.ascending fun e => ⟨hsubset h h' heq e, hsubset h' h heq.symm e⟩

theorem Recording.apply (h : Recording d) (a : Id) (e : Event) :
    Recording (e.apply a d) ∧ recorded (e.apply a d) = e.act a (recorded d) := by
  cases e with
  | created type =>
    exact ⟨⟨h.ascending.insert _ _, h.keyed.insert h.ascending _ _⟩, recorded_insert h.ascending _ _⟩
  | deleted type =>
    have hfilter : Ascending KeyOrder.lexicographic (Event.apply a d (.deleted type)) :=
      List.Pairwise.sublist List.filter_sublist h.ascending
    refine ⟨⟨hfilter, fun e he => h.keyed e (List.mem_filter.mp he).1⟩, ?_⟩
    funext k
    apply Option.ext
    intro v
    rw [recorded_eq_some_iff hfilter, Event.apply, List.mem_filter, Event.act,
      ← recorded_eq_some_iff h.ascending]
    by_cases howner : k.owner = a
    · simp [howner, Key.isPrefixOf_owner.mpr howner]
    · have hother : a.bytes.isPrefixOf k.bytes = false := by
        rw [← Bool.not_eq_true]
        exact fun hprefix => howner (Key.isPrefixOf_owner.mp hprefix)
      simp [howner, hother]
  | changed field old new =>
    rw [Event.apply, Event.act]
    split
    · exact ⟨⟨h.ascending.erase _, h.keyed.erase _⟩, recorded_erase h.ascending _⟩
    · exact ⟨⟨h.ascending.insert _ _, h.keyed.insert h.ascending _ _⟩, recorded_insert h.ascending _ _⟩
  | linked field other otherField =>
    exact ⟨⟨h.ascending.insert _ _, h.keyed.insert h.ascending _ _⟩, recorded_insert h.ascending _ _⟩
  | unlinked field other otherField =>
    exact ⟨⟨h.ascending.erase _, h.keyed.erase _⟩, recorded_erase h.ascending _⟩

def Event.applyAll (log : List (Id × Event)) (d : List Entry) : List Entry :=
  log.foldl (fun d p => p.2.apply p.1 d) d

def Event.actAll (log : List (Id × Event)) (g : Records) : Records :=
  log.foldl (fun g p => p.2.act p.1 g) g

theorem Event.actAll_append (log log' : List (Id × Event)) (g : Records) :
    actAll (log ++ log') g = actAll log' (actAll log g) := List.foldl_append

theorem Recording.applyAll (h : Recording d) (log : List (Id × Event)) :
    Recording (Event.applyAll log d) ∧ recorded (Event.applyAll log d) = Event.actAll log (recorded d) := by
  induction log generalizing d with
  | nil => exact ⟨h, rfl⟩
  | cons p log ih =>
    obtain ⟨happly, hrecorded⟩ := h.apply p.1 p.2
    obtain ⟨hlog, hlogged⟩ := ih happly
    exact ⟨hlog, hlogged.trans (congrArg (Event.actAll log) hrecorded)⟩

theorem Commit.replay_changes {c : Commit} {blocks : List Block}
    (h : c.objects = blocks.reverse.map Block.changes) (d : List Entry) :
    c.replay d = Event.applyAll (Draft.logOf blocks) d := by
  have hblock : ∀ (b : Block) (d : List Entry), b.changes.events.foldl (Event.apply b.object) d =
      Event.applyAll b.log d := by
    intro b d
    rw [Event.applyAll, Block.log, Block.changes, List.foldl_map, List.foldl_map]
  rw [replay, h, Event.applyAll, Draft.logOf, List.foldl_flatMap, List.foldl_map]
  congr 1
  funext d b
  exact hblock b d

namespace Records

def Altered (before after : Records) (a : Id) : Prop :=
  before (.object a) ≠ none ∧ after (.object a) ≠ before (.object a)

instance (before after : Records) (a : Id) : Decidable (before.Altered after a) :=
  inferInstanceAs (Decidable (_ ∧ _))

def Outlasts (before after : Records) (k : Key) : Prop :=
  (∀ a, k ≠ .object a) ∧ before.Altered after k.owner ∧ after k = before k

instance (before after : Records) : DecidablePred (before.Outlasts after)
  | .object a => .isFalse fun h => h.1 a rfl
  | .field a f => decidable_of_iff (before.Altered after a ∧ after (.field a f) = before (.field a f))
      ⟨fun h => ⟨nofun, h⟩, And.right⟩
  | .association half => decidable_of_iff
      (before.Altered after half.object ∧ after (.association half) = before (.association half))
      ⟨fun h => ⟨nofun, h⟩, And.right⟩

end Records

/-- The changes observed so far lead from one state of the records to another, and the events recorded
of them to one that lacks just what has outlasted an alteration of its object. -/
structure Tracks (before after : Records) (deleted : Option Id) (replayed : Records) : Prop where
  lost : ∀ k, before.Outlasts after k → replayed k = none
  kept : ∀ k, ¬ before.Outlasts after k → replayed k = after k
  deleted : ∀ a ∈ deleted, before (.object a) ≠ none ∧ after (.object a) = none

namespace Tracks

variable {before after replayed replayed' : Records} {deleted : Option Id} {k : Key} {new : Option Bytes}
  {a : Id}

theorem refl (g : Records) : Tracks g g none g where
  lost _ h := absurd rfl h.2.1.2
  kept _ _ := rfl
  deleted := nofun

theorem eq_of_none (h : Tracks before after deleted replayed)
    (hnone : ∀ k, before.Outlasts after k → after k = none) : replayed = after := by
  funext k
  by_cases hk : before.Outlasts after k
  · rw [h.lost k hk, hnone k hk]
  · exact h.kept k hk

theorem altered_of_deleted (h : Tracks before after deleted replayed) (ha : deleted = some a) :
    before.Altered after a := by
  obtain ⟨hbefore, hafter⟩ := h.deleted a ha
  exact ⟨hbefore, hafter ▸ hbefore.symm⟩

theorem write (h : Tracks before after deleted replayed) (hobject : ∀ a, k ≠ .object a)
    (hfresh : after k = before k) (hother : ∀ j, j ≠ k → replayed' j = replayed j)
    (hself : replayed' k = new ∧ new ≠ after k ∨ replayed' k = replayed k ∧
      (new = after k ∨ new = none ∧ before.Altered after k.owner)) :
    Tracks before (update after k new) deleted replayed' := by
  have hobjects : ∀ a, update after k new (.object a) = after (.object a) :=
    fun a => Function.update_of_ne (hobject a).symm _ _
  have haltered : ∀ a, before.Altered (update after k new) a ↔ before.Altered after a := by
    intro a
    rw [Records.Altered, Records.Altered, hobjects]
  have houtlasts : ∀ j, j ≠ k →
      (before.Outlasts (update after k new) j ↔ before.Outlasts after j) := by
    intro j hj
    rw [Records.Outlasts, Records.Outlasts, haltered, Function.update_of_ne hj]
  constructor
  · intro j hj
    by_cases hjk : j = k
    · obtain ⟨-, haltered', hsame⟩ := hj
      rw [hjk] at haltered' hsame ⊢
      rw [Function.update_self] at hsame
      rcases hself with ⟨-, hne⟩ | ⟨heq, -⟩
      · exact absurd (hsame.trans hfresh.symm) hne
      · rw [heq]
        exact h.lost k ⟨hobject, (haltered _).mp haltered', hfresh⟩
    · rw [hother j hjk]
      exact h.lost j ((houtlasts j hjk).mp hj)
  · intro j hj
    by_cases hjk : j = k
    · rw [hjk] at hj ⊢
      rw [Function.update_self]
      rcases hself with ⟨heq, -⟩ | ⟨heq, rfl | ⟨rfl, haltered'⟩⟩
      · exact heq
      · rw [Function.update_eq_self] at hj
        rw [heq, h.kept k hj]
      · rw [heq]
        exact h.lost k ⟨hobject, haltered', hfresh⟩
    · rw [hother j hjk, Function.update_of_ne hjk]
      exact h.kept j fun hj' => hj ((houtlasts j hjk).mpr hj')
  · intro a ha
    rw [hobjects]
    exact h.deleted a ha

theorem own (h : Tracks before after deleted replayed) {deleted' : Option Id}
    (hfresh : ∀ j : Key, j.owner = a → after j = before j)
    (hother : ∀ j : Key, j.owner ≠ a → replayed' j = replayed j) (hself : replayed' (.object a) = new)
    (howned : ∀ j : Key, j.owner = a → j ≠ .object a →
      replayed' j = if before (.object a) ≠ none ∧ new ≠ before (.object a) then none else replayed j)
    (hdeleted : ∀ b ∈ deleted', deleted = some b ∨ b = a ∧ before (.object a) ≠ none ∧ new = none) :
    Tracks before (update after (.object a) new) deleted' replayed' := by
  have houtlasts : ∀ j : Key, j.owner ≠ a →
      (before.Outlasts (update after (.object a) new) j ↔ before.Outlasts after j) := by
    intro j hj
    have hobject : Key.object j.owner ≠ .object a := fun heq => hj (Key.object.inj heq)
    have hne : j ≠ .object a := fun heq => hj (heq ▸ rfl)
    rw [Records.Outlasts, Records.Outlasts, Records.Altered, Records.Altered,
      Function.update_of_ne hobject, Function.update_of_ne hne]
  have houtlasts' : ∀ j : Key, j.owner = a → j ≠ .object a →
      (before.Outlasts (update after (.object a) new) j ↔
        before (.object a) ≠ none ∧ new ≠ before (.object a)) := by
    intro j hj hne
    rw [Records.Outlasts, Records.Altered, hj, Function.update_self, Function.update_of_ne hne]
    have hobject : ∀ b, j ≠ .object b := by
      rintro b rfl
      exact hne (congrArg Key.object hj)
    simp only [hobject, hfresh j hj, ne_eq, not_false_eq_true, implies_true, true_and, and_true]
  have hkept : ∀ j : Key, j.owner = a → replayed j = after j := by
    intro j hj
    apply h.kept
    rintro ⟨-, haltered, -⟩
    rw [hj] at haltered
    exact haltered.2 (hfresh (.object a) rfl)
  constructor
  · intro j hj
    by_cases howner : j.owner = a
    · have hne : j ≠ .object a := fun heq => hj.1 a heq
      rw [howned j howner hne, if_pos ((houtlasts' j howner hne).mp hj)]
    · rw [hother j howner]
      exact h.lost j ((houtlasts j howner).mp hj)
  · intro j hj
    by_cases howner : j.owner = a
    · by_cases hne : j = .object a
      · rw [hne, hself, Function.update_self]
      · rw [howned j howner hne, if_neg fun h' => hj ((houtlasts' j howner hne).mpr h'),
          Function.update_of_ne hne, hkept j howner]
    · have hne : j ≠ .object a := fun heq => howner (heq ▸ rfl)
      rw [hother j howner, Function.update_of_ne hne]
      exact h.kept j fun h' => hj ((houtlasts j howner).mpr h')
  · intro b hb
    rcases hdeleted b hb with hb | ⟨rfl, hbefore, rfl⟩
    · obtain ⟨hbefore, hafter⟩ := h.deleted b hb
      have hne : b ≠ a := by
        rintro rfl
        rw [hfresh (.object b) rfl] at hafter
        exact hbefore hafter
      rw [Function.update_of_ne (by simpa using hne)]
      exact ⟨hbefore, hafter⟩
    · exact ⟨hbefore, Function.update_self ..⟩

theorem field {schema : Schema} (h : Tracks before after deleted replayed) {f : Id}
    (hfresh : after (.field a f) = before (.field a f)) (hnew : ∀ v ∈ new, schema.Admits (.field a f) v) :
    Tracks before (update after (.field a f) new) deleted
      (Event.actAll ((Key.field a f).events deleted (after (.field a f)) new) replayed) := by
  rw [Key.events]
  apply h.write (by simp) hfresh
  · intro j hj
    split
    · rfl
    · exact Function.update_of_ne hj _ _
  · split
    next hpassed =>
      refine .inr ⟨rfl, ?_⟩
      rcases hpassed with ⟨hnone, hdeleted⟩ | hsame
      · exact .inr ⟨Option.isNone_iff_eq_none.mp hnone, h.altered_of_deleted hdeleted⟩
      · exact .inl hsame.symm
    next hpassed =>
      refine .inl ⟨(Function.update_self ..).trans ?_, fun hsame => hpassed (.inr hsame.symm)⟩
      cases new with
      | none => rfl
      | some v =>
        have hne : v ≠ [] := (hnew v rfl).ne_nil
        exact if_neg (by simpa using hne)

theorem association {schema : Schema} (h : Tracks before after deleted replayed) {half : Half}
    (hfresh : after (.association half) = before (.association half))
    (hold : ∀ v ∈ after (.association half), schema.Admits (.association half) v)
    (hnew : ∀ v ∈ new, schema.Admits (.association half) v) :
    Tracks before (update after (.association half) new) deleted
      (Event.actAll ((Key.association half).events deleted (after (.association half)) new) replayed) := by
  generalize hcurrent : after (.association half) = old at hold
  by_cases hpassed : new.isNone ∧ deleted = some half.object ∨ old = new
  · have hevents : (Key.association half).events deleted old new = [] := if_pos hpassed
    rw [hevents]
    refine h.write (by simp) hfresh (fun _ _ => rfl) (.inr ⟨rfl, ?_⟩)
    rcases hpassed with ⟨hnone, hdeleted⟩ | hsame
    · exact .inr ⟨Option.isNone_iff_eq_none.mp hnone, h.altered_of_deleted hdeleted⟩
    · exact .inl (hcurrent.trans hsame).symm
  · have hne : new ≠ old := fun hsame => hpassed (.inr hsame.symm)
    obtain ⟨event, hevents, hact⟩ : ∃ event, (Key.association half).events deleted old new =
        [(half.object, event)] ∧
          event.act half.object replayed = update replayed (.association half) new := by
      cases old with
      | none =>
        cases new with
        | none => contradiction
        | some v =>
          obtain rfl : v = [] := hnew v rfl
          exact ⟨.linked half.field half.other half.otherField, @if_neg _ _ hpassed _ [] _, rfl⟩
      | some v =>
        obtain rfl : v = [] := hold v rfl
        cases new with
        | none => exact ⟨.unlinked half.field half.other half.otherField, @if_neg _ _ hpassed _ [] _, rfl⟩
        | some w =>
          obtain rfl : w = [] := hnew w rfl
          contradiction
    have hreplayed : Event.actAll [(half.object, event)] replayed =
      update replayed (.association half) new := hact
    rw [hevents, hreplayed]
    apply h.write (by simp) hfresh (fun j hj => Function.update_of_ne hj _ _)
    exact .inl ⟨Function.update_self .., hcurrent ▸ hne⟩

theorem created (h : Tracks before after deleted replayed)
    (hfresh : ∀ j : Key, j.owner = a → after j = before j) (hnone : before (.object a) = none)
    (type : Id) :
    Tracks before (update after (.object a) (some type.bytes)) deleted
      (Event.actAll [(a, .created type)] replayed) := by
  apply h.own hfresh
  · intro j hj
    refine Function.update_of_ne ?_ _ _
    rintro rfl
    exact hj rfl
  · exact Function.update_self ..
  · intro j hj hne
    rw [if_neg fun hgone => hgone.1 hnone]
    exact Function.update_of_ne hne _ _
  · exact fun b hb => .inl hb

theorem dropped (h : Tracks before after deleted replayed)
    (hfresh : ∀ j : Key, j.owner = a → after j = before j) (hthere : before (.object a) ≠ none)
    (type : Id) :
    Tracks before (update after (.object a) none) (some a)
      (Event.actAll [(a, .deleted type)] replayed) := by
  apply h.own hfresh
  · exact fun j hj => if_neg hj
  · exact if_pos rfl
  · intro j hj hne
    rw [if_pos ⟨hthere, hthere.symm⟩]
    exact if_pos hj
  · rintro b ⟨⟩
    exact .inr ⟨rfl, hthere, rfl⟩

theorem retyped (h : Tracks before after deleted replayed)
    (hfresh : ∀ j : Key, j.owner = a → after j = before j) (hthere : before (.object a) ≠ none)
    {type' : Id} (hchanged : some type'.bytes ≠ before (.object a)) (type : Id) :
    Tracks before (update after (.object a) (some type'.bytes)) deleted
      (Event.actAll [(a, .deleted type), (a, .created type')] replayed) := by
  apply h.own hfresh
  · intro j hj
    refine (Function.update_of_ne ?_ _ _).trans (if_neg hj)
    rintro rfl
    exact hj rfl
  · exact Function.update_self ..
  · intro j hj hne
    rw [if_pos ⟨hthere, hchanged⟩]
    exact (Function.update_of_ne hne _ _).trans (if_pos hj)
  · exact fun b hb => .inl hb

theorem object {schema : Schema} (h : Tracks before after deleted replayed)
    (hfresh : ∀ j : Key, j.owner = a → after j = before j)
    (hold : ∀ v ∈ after (.object a), schema.Admits (.object a) v)
    (hnew : ∀ v ∈ new, schema.Admits (.object a) v) :
    Tracks before (update after (.object a) new) ((Key.object a).deletes deleted (after (.object a)) new)
      (Event.actAll ((Key.object a).events deleted (after (.object a)) new) replayed) := by
  have hbefore : after (.object a) = before (.object a) := hfresh _ rfl
  have hsame : update after (.object a) (after (.object a)) = after := Function.update_eq_self ..
  generalize after (.object a) = old at hold hbefore hsame
  cases old with
  | none =>
    cases new with
    | none => exact hsame.symm ▸ h
    | some v =>
      obtain ⟨type, rfl, -⟩ := hnew v rfl
      simp only [Key.events, Option.bind_none, Option.bind_some, Id.ofBytes?_bytes]
      exact h.created hfresh hbefore.symm type
  | some v =>
    obtain ⟨type, rfl, -⟩ := hold v rfl
    have hthere : before (.object a) ≠ none := by
      rw [← hbefore]
      exact Option.some_ne_none _
    cases new with
    | none =>
      simp only [Key.events, Option.bind_none, Option.bind_some, Id.ofBytes?_bytes]
      exact h.dropped hfresh hthere type
    | some w =>
      obtain ⟨type', rfl, -⟩ := hnew w rfl
      simp only [Key.events, Option.bind_some, Id.ofBytes?_bytes]
      split
      next heq =>
        rw [← heq, hsame]
        exact h
      next hne =>
        have hchanged : some type'.bytes ≠ before (.object a) := by
          rw [← hbefore]
          exact fun heq => hne (Id.bytes_injective (Option.some.inj heq)).symm
        exact h.retyped hfresh hthere hchanged type

theorem step (schema : Schema) (h : Tracks before after deleted replayed)
    (hfresh : after k = before k) (howned : ∀ a j, k = .object a → j.owner = a → after j = before j)
    (hold : ∀ v ∈ after k, schema.Admits k v) (hnew : ∀ v ∈ new, schema.Admits k v) :
    Tracks before (update after k new) (k.deletes deleted (after k) new)
      (Event.actAll (k.events deleted (after k) new) replayed) := by
  cases k with
  | object a => exact h.object (fun j hj => howned a j rfl hj) hold hnew
  | field a f => exact h.field hfresh hnew
  | association half => exact h.association hfresh hold hnew

end Tracks

theorem Admitted.recording {schema : Schema} (h : Admitted schema d)
    (hd : Ascending KeyOrder.lexicographic d) : Recording d := by
  refine ⟨hd, fun e he => ?_⟩
  obtain ⟨k, hk, -⟩ := h e he
  exact ⟨k, hk⟩

theorem Recording.applyAll_eq (h : Recording d) (h' : Recording d') {deleted : Option Id}
    {log : List (Id × Event)}
    (htracks : Tracks (recorded d) (recorded d') deleted (Event.actAll log (recorded d)))
    (hrenewed : ∀ k, Records.Outlasts (recorded d) (recorded d') k → recorded d' k = none) :
    Event.applyAll log d = d' := by
  obtain ⟨happlied, hlogged⟩ := h.applyAll log
  exact happlied.ext h' (hlogged.trans (htracks.eq_of_none hrenewed))

end ObjectGraph
