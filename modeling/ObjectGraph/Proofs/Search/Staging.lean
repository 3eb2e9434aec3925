import ObjectGraph.Proofs.KeyOrder
import ObjectGraph.Proofs.Overlay.Contents
import ObjectGraph.Proofs.Search.Derived
import ObjectGraph.Search.Indexer

namespace ObjectGraph

open Dictionary (Ascending)
open Stateful (Triple)

def lastWord? (staged : List Entry) (key : Bytes) : Option Bool :=
  (Dictionary.find? KeyOrder.ignoringLast (key ++ [0]) staged).map fun e =>
    e.1.getLast? = some IndexEdit.insert.mark

def Settled (staged : List Entry) (keys : Bytes → Prop) (key : Bytes) : Prop :=
  (lastWord? staged key).elim (keys key) (· = true)

def IndexEdit.revise (edit : IndexEdit) (edited keys : Bytes → Prop) (key : Bytes) : Prop :=
  match edit with
  | insert => edited key ∨ keys key
  | remove => keys key ∧ ¬ edited key

theorem KeyOrder.ignoringLast_eq_iff {key bs : Bytes} {b : UInt8} :
    ignoringLast (key ++ [b]) bs = .eq ↔ key = bs.dropLast := by
  rw [ignoringLast, List.dropLast_concat]
  exact lexicographic_eq_iff

theorem settled_nil (keys : Bytes → Prop) (key : Bytes) : Settled [] keys key ↔ keys key := Iff.rfl

theorem lastWord?_insert {staged : List Entry} (h : Ascending KeyOrder.ignoringLast staged)
    (key j : Bytes) (edit : IndexEdit) :
    lastWord? (Dictionary.insert KeyOrder.ignoringLast (key ++ [edit.mark]) [] staged) j =
      if j = key then some (decide (edit = .insert)) else lastWord? staged j := by
  rw [lastWord?, Dictionary.find?_insert h]
  by_cases hj : j = key
  · rw [if_pos hj, if_pos (KeyOrder.ignoringLast_eq_iff.mpr (by simp [hj]))]
    cases edit <;> simp [IndexEdit.mark]
  · rw [if_neg hj, if_neg]
    · rfl
    · rw [KeyOrder.ignoringLast_eq_iff, List.dropLast_concat]
      exact hj

theorem lastWord?_cons {e : Entry} {staged : List Entry}
    (h : Ascending KeyOrder.ignoringLast (e :: staged)) (key : Bytes) :
    lastWord? (e :: staged) key =
      if key = e.1.dropLast then some (decide (e.1.getLast? = some IndexEdit.insert.mark))
      else lastWord? staged key := by
  rw [lastWord?, Dictionary.find?_cons h]
  by_cases hkey : key = e.1.dropLast
  · rw [if_pos hkey, if_pos (KeyOrder.ignoringLast_eq_iff.mpr hkey)]
    rfl
  · rw [if_neg hkey, if_neg]
    · rfl
    · rwa [KeyOrder.ignoringLast_eq_iff]

theorem lastWord?_head {e : Entry} {staged : List Entry}
    (h : Ascending KeyOrder.ignoringLast (e :: staged)) : lastWord? staged e.1.dropLast = none := by
  rw [lastWord?, Option.map_eq_none_iff, Dictionary.find?_eq_none_iff h.tail]
  intro a ha heq
  have hlt := h.head_lt ha
  rw [KeyOrder.ignoringLast_eq_iff] at heq
  rw [KeyOrder.ignoringLast, heq, Std.ReflOrd.compare_self] at hlt
  contradiction

theorem settled_cons {e : Entry} {staged : List Entry}
    (h : Ascending KeyOrder.ignoringLast (e :: staged)) (keys : Bytes → Prop) (key : Bytes) :
    Settled (e :: staged) keys key ↔ Settled staged (Settled [e] keys) key := by
  have hsingle : Ascending KeyOrder.ignoringLast [e] := List.pairwise_singleton ..
  simp only [Settled, lastWord?_cons h, lastWord?_cons hsingle]
  by_cases hkey : key = e.1.dropLast
  · subst hkey
    simp only [if_true, lastWord?_head h, Option.elim]
  · rw [if_neg hkey, if_neg hkey]
    cases lastWord? staged key <;> rfl

namespace Indexer

structure Turns (before after : Bytes → Prop) (i : Indexer) : Prop where
  valid : i.staged.Valid KeyOrder.ignoringLast
  indexable : ∀ e ∈ i.staged.entries, Indexable e.1.dropLast
  settled_iff : ∀ key, Settled i.staged.entries before key ↔ after key

def Marking (i : Indexer) : Prop := i.staged.order = KeyOrder.ignoringLast

variable {before after after' : Bytes → Prop} {i : Indexer} {schema : Schema} {c : Change}

theorem Turns.marking (h : i.Turns before after) : i.Marking := h.valid.order_eq

theorem Turns.congr (h : i.Turns before after) (hiff : ∀ key, after key ↔ after' key) :
    i.Turns before after' :=
  ⟨h.valid, h.indexable, fun key => (h.settled_iff key).trans (hiff key)⟩

theorem Marking.reset (h : i.Marking) (keys : Bytes → Prop) : i.reset.Turns keys keys where
  valid := ⟨h, ⟨Ascending.nil, by simp⟩, rfl⟩
  indexable := nofun
  settled_iff := settled_nil keys

theorem turns_of_create {capacity pageSize : Nat} (h : create capacity pageSize = .ok i)
    (keys : Bytes → Prop) : i.Turns keys keys := by
  obtain ⟨o, ho, h⟩ := Stateful.bind_eq_ok.mp h
  cases h
  obtain ⟨hvalid, hentries⟩ := Overlay.create_spec ho
  refine ⟨hvalid, ?_, ?_⟩
  · rw [hentries]
    nofun
  · rw [hentries]
    exact settled_nil keys

theorem stageKey_triple {key : Bytes} (hkey : Indexable key) (edit : IndexEdit) :
    Triple (Turns before after) (stageKey key edit)
      (fun _ => Turns before (edit.revise (· = key) after)) (fun _ => Marking) := by
  apply Triple.get_bind
  intro i hi
  apply Triple.ofExcept_bind
  · rintro o ho _ rfl
    obtain ⟨hvalid, hentries⟩ := hi.valid.put ho
    refine ⟨hvalid, ?_, ?_⟩
    · intro e he
      rw [hentries] at he
      rcases (Dictionary.mem_insert hi.valid.ascending).mp he with rfl | ⟨he, -⟩
      · rwa [List.dropLast_concat]
      · exact hi.indexable e he
    · intro j
      have hafter := hi.settled_iff j
      rw [Settled] at hafter ⊢
      rw [hentries, lastWord?_insert hi.valid.ascending]
      by_cases hj : j = key
      · rw [if_pos hj]
        cases edit <;> simp [IndexEdit.revise, hj]
      · rw [if_neg hj, hafter]
        cases edit <;> simp [IndexEdit.revise, hj]
  · rintro t e rfl -
    exact hi.marking

theorem forM_stageKey_triple {γ : Type} {key : γ → Bytes} {xs : List γ}
    (hkeys : ∀ x ∈ xs, Indexable (key x)) (edit : IndexEdit) :
    Triple (Turns before after) (xs.forM fun x => stageKey (key x) edit)
      (fun _ => Turns before (edit.revise (fun j => ∃ x ∈ xs, j = key x) after))
      (fun _ => Marking) := by
  induction xs generalizing after with
  | nil =>
    apply Triple.pure
    intro i hi
    exact hi.congr fun j => by cases edit <;> simp [IndexEdit.revise]
  | cons x xs ih =>
    apply Triple.bind (stageKey_triple (hkeys x List.mem_cons_self) edit)
    intro _
    refine (ih fun y hy => hkeys y (List.mem_cons_of_mem _ hy)).mono (fun _ hi => hi) ?_
      fun _ _ hi => hi
    intro _ i hi
    refine hi.congr fun j => ?_
    cases edit with
    | insert => simp only [IndexEdit.revise, List.mem_cons, exists_eq_or_imp, or_assoc, or_left_comm]
    | remove => simp only [IndexEdit.revise, List.mem_cons, exists_eq_or_imp, not_or, and_assoc]

theorem stageValue_triple (object field : Id) (raw : Bytes) (edit : IndexEdit) :
    Triple (Turns before after) (stageValue object field raw edit)
      (fun _ i => i.Turns before (edit.revise (Posts object field raw) after) ∧
        ∃ x, Value.decode raw = .ok x)
      (fun _ => Marking) := by
  rw [stageValue]
  cases hforms : indexForms raw with
  | error cause => exact Triple.throw fun i hi => hi.marking
  | ok forms =>
    have hposts (j : Bytes) : (∃ form ∈ forms, j = IndexKey.encode form.1 field form.2 object) ↔
        Posts object field raw j := by
      constructor
      · rintro ⟨⟨v, content⟩, hform, rfl⟩
        exact ⟨v, content, (contributes_iff hforms).mp hform, rfl⟩
      · rintro ⟨v, content, hcontent, rfl⟩
        exact ⟨(v, content), (contributes_iff hforms).mpr hcontent, rfl⟩
    have hkeys : ∀ form ∈ forms, Indexable (IndexKey.encode form.1 field form.2 object) :=
      fun form hform => ((hposts _).mp ⟨form, hform, rfl⟩).indexable
    refine (forM_stageKey_triple hkeys edit).mono (fun _ hi => hi) ?_ fun _ _ hi => hi
    intro _ i hi
    obtain ⟨x, hx, -⟩ := Stateful.bind_eq_ok.mp hforms
    exact ⟨hi.congr fun j => by simp only [IndexEdit.revise, hposts], x, hx⟩

theorem observe_of_idle
    (h : ∀ object field, Key.ofBytes? c.key = some (.field object field) →
      c.IsNoop ∨ ¬ schema.isIndexed field) : observe schema c = pure () := by
  rw [observe]
  split
  next object field hkey => rw [if_pos (h object field hkey)]
  · rfl

theorem observe_triple {object field : Id} (hkey : Key.ofBytes? c.key = some (.field object field))
    (hnoop : ¬ c.IsNoop) (hindexed : schema.isIndexed field) :
    Triple (Turns before after) (observe schema c)
      (fun _ i => i.Turns before (fun j => (∃ new ∈ c.new, Posts object field new j) ∨
          after j ∧ ¬ ∃ old ∈ c.old, Posts object field old j) ∧
        ∀ new ∈ c.new, ∃ x, Value.decode new = .ok x)
      (fun _ => Marking) := by
  have hchange : ¬ (c.IsNoop ∨ ¬ schema.isIndexed field) := by simp [hnoop, hindexed]
  rw [observe, hkey]
  simp only [if_neg hchange]
  cases c.old with
  | none =>
    cases c.new with
    | none => exact Triple.pure fun i hi => ⟨hi.congr fun j => by simp, nofun⟩
    | some new =>
      refine (stageValue_triple object field new .insert).mono (fun _ hi => hi) ?_ fun _ _ hi => hi
      rintro _ i ⟨hi, hx⟩
      exact ⟨hi.congr fun j => by simp [IndexEdit.revise], by simpa using hx⟩
  | some old =>
    apply Triple.bind (stageValue_triple object field old .remove)
    intro _
    cases c.new with
    | none =>
      exact Triple.pure fun i hi => ⟨hi.1.congr fun j => by simp [IndexEdit.revise], nofun⟩
    | some new =>
      refine (stageValue_triple object field new .insert).mono (fun _ hi => hi.1) ?_ fun _ _ hi => hi
      rintro _ i ⟨hi, hx⟩
      exact ⟨hi.congr fun j => by simp [IndexEdit.revise], by simpa using hx⟩

end Indexer

end ObjectGraph
