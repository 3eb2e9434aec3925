import Mathlib.Data.List.Dedup
import Mathlib.Data.Set.List
import ObjectGraph.Proofs.Search.Upkeep
/-!
Staging the edits of an index and carrying them out at the end, with one write for each key, makes the
table what carrying out every edit at once would have made of it.
-/

namespace ObjectGraph

open Dictionary (Ascending)
open Stateful (Triple)

@[ext]
structure KeyEdit where
  edit : IndexEdit
  key : IndexKey
deriving DecidableEq

namespace KeyEdit

def apply (d : List Entry) (e : KeyEdit) : List Entry :=
  match e.edit with
  | .insert => Dictionary.insert KeyOrder.search e.key.bytes [] d
  | .remove => Dictionary.erase KeyOrder.search e.key.bytes d

def write (t : TableId) (x : WriteTxn) (e : KeyEdit) : Except Error WriteTxn :=
  match e.edit with
  | .insert => x.put t e.key.bytes []
  | .remove => (x.delete t e.key.bytes).map Prod.snd

def stage (e : KeyEdit) : Indexing Unit := Indexer.stageKey e.key.bytes e.edit

def staged (e : KeyEdit) : Entry := (e.key.bytes ++ [e.edit.mark], [])

def ofValue (object field : Id) (raw : Bytes) (edit : IndexEdit) : List KeyEdit :=
  match indexForms raw with
  | .error _ => []
  | .ok forms => forms.map fun (v, content) => ⟨edit, v.tag, field, content, object⟩

def last? : List KeyEdit → IndexKey → Option IndexEdit
  | [], _ => none
  | e :: es, k => (last? es k).or (if e.key = k then some e.edit else none)

end KeyEdit

inductive IndexerCall where
  | observe (c : Change)
  | stageValue (object field : Id) (raw : Bytes) (edit : IndexEdit)

namespace IndexerCall

def perform (schema : Schema) : IndexerCall → Indexing Unit
  | observe c => Indexer.observe schema c
  | stageValue object field raw edit => Indexer.stageValue object field raw edit

def edits (schema : Schema) : IndexerCall → List KeyEdit
  | observe c =>
    match Key.ofBytes? c.key with
    | some (.field object field) =>
      if c.IsNoop ∨ ¬ schema.isIndexed field then []
      else c.old.elim [] (KeyEdit.ofValue object field · .remove) ++
        c.new.elim [] (KeyEdit.ofValue object field · .insert)
    | _ => []
  | stageValue object field raw edit => KeyEdit.ofValue object field raw edit

end IndexerCall

namespace KeyEdit

variable {e e' : KeyEdit} {es es' : List KeyEdit} {k : IndexKey} {d : List Entry} {v : Bytes}

theorem last?_append : last? (es ++ es') k = (last? es' k).or (last? es k) := by
  induction es with
  | nil => simp [last?]
  | cons e es ih => rw [List.cons_append, last?, ih, last?, Option.or_assoc]

theorem last?_concat : last? (es ++ [e]) k = if e.key = k then some e.edit else last? es k := by
  rw [last?_append, last?, last?, Option.none_or]
  split <;> rfl

theorem last?_eq_none_iff : last? es k = none ↔ k ∉ es.map key := by
  induction es with
  | nil => simp [last?]
  | cons e es ih =>
    rw [last?, Option.or_eq_none_iff, ih, List.map_cons, List.mem_cons, not_or, and_comm]
    apply and_congr_left'
    split <;> simp_all [eq_comm]

theorem last?_eq_some_iff (h : (es.map key).Nodup) : last? es e.key = some e.edit ↔ e ∈ es := by
  induction es with
  | nil => simp [last?]
  | cons a es ih =>
    obtain ⟨ha, hes⟩ := List.nodup_cons.mp h
    rw [last?, List.mem_cons, ← ih hes]
    by_cases hkey : a.key = e.key
    · have hnone : last? es e.key = none := last?_eq_none_iff.mpr (hkey ▸ ha)
      rw [if_pos hkey, hnone, Option.none_or, Option.some_inj]
      constructor
      · exact fun hedit => .inl (KeyEdit.ext hedit hkey).symm
      · rintro (rfl | hlast)
        · rfl
        · contradiction
    · have hne : e ≠ a := by
        rintro rfl
        exact hkey rfl
      rw [if_neg hkey, Option.or_none, or_iff_right hne]

theorem mark_injective {i j : IndexEdit} (h : i.mark = j.mark) : i = j := by
  revert h
  cases i <;> cases j <;> decide

theorem staged_injective (h : e.staged = e'.staged) : e = e' := by
  obtain ⟨hkey, hmark⟩ := List.append_inj' (Prod.mk.inj h).1 rfl
  exact KeyEdit.ext (mark_injective (List.head_eq_of_cons_eq hmark)) (IndexKey.bytes_injective hkey)

theorem tie_iff : KeyOrder.ignoringLast e.staged.1 e'.staged.1 = .eq ↔ e.key = e'.key := by
  rw [staged, staged, KeyOrder.ignoringLast_eq_iff, List.dropLast_concat]
  exact ⟨IndexKey.bytes_injective, congrArg IndexKey.bytes⟩

theorem writeKey_staged (t : TableId) (x : WriteTxn) (e : KeyEdit) :
    Indexer.writeKey t x e.staged = e.write t x := by
  obtain ⟨edit, key⟩ := e
  rw [Indexer.writeKey, staged, List.getLast?_concat, List.dropLast_concat, write]
  cases edit <;> rfl

theorem postings_apply (hd : Postings d) (he : Indexable e.key.bytes) : Postings (apply d e) := by
  rw [apply]
  cases e.edit with
  | insert => exact (hd.insert he []).1
  | remove => exact (hd.erase he).1

theorem mem_apply (hd : Postings d) (he : Indexable e.key.bytes) :
    (k.bytes, v) ∈ apply d e ↔ if e.key = k then e.edit = .insert ∧ v = [] else (k.bytes, v) ∈ d := by
  obtain ⟨edit, key⟩ := e
  have hother (h : (k.bytes, v) ∈ d) : KeyOrder.ranked key.bytes k.bytes ≠ .eq ↔ key ≠ k :=
    not_congr ((hd.ranked_eq_iff he h).trans ⟨IndexKey.bytes_injective, congrArg IndexKey.bytes⟩)
  rw [apply]
  cases edit with
  | insert =>
    dsimp only
    rw [Dictionary.insert_of_agree (hd.agree he), Dictionary.mem_insert hd.ascending_ranked,
      and_congr_right hother, Prod.mk.injEq]
    by_cases hkey : key = k
    · subst hkey
      simp
    · have hbytes : k.bytes ≠ key.bytes := fun h => hkey (IndexKey.bytes_injective h).symm
      simp [hkey, hbytes]
  | remove =>
    dsimp only
    rw [Dictionary.erase_of_agree (hd.agree he), Dictionary.mem_erase hd.ascending_ranked,
      and_congr_right hother]
    by_cases hkey : key = k
    · simp [hkey]
    · simp [hkey]

theorem postings_foldl (hd : Postings d) (hes : ∀ e ∈ es, Indexable e.key.bytes) :
    Postings (es.foldl apply d) ∧ ∀ k v, (k.bytes, v) ∈ es.foldl apply d ↔
      (last? es k).elim ((k.bytes, v) ∈ d) fun edit => edit = .insert ∧ v = [] := by
  induction es generalizing d with
  | nil => exact ⟨hd, fun _ _ => Iff.rfl⟩
  | cons e es ih =>
    have he := hes e List.mem_cons_self
    obtain ⟨hpostings, hmem⟩ := ih (postings_apply hd he) fun a ha => hes a (List.mem_cons_of_mem e ha)
    refine ⟨hpostings, fun k v => ?_⟩
    rw [List.foldl_cons, hmem, last?]
    cases last? es k with
    | some edit => rfl
    | none =>
      rw [Option.none_or, Option.elim, mem_apply hd he]
      split <;> rfl

theorem last?_of_forall {edit : IndexEdit} (h : ∀ e ∈ es, e.edit = edit) (k : IndexKey) :
    last? es k = if k ∈ es.map key then some edit else none := by
  induction es with
  | nil => rfl
  | cons e es ih =>
    rw [last?, ih fun a ha => h a (List.mem_cons_of_mem e ha), h e List.mem_cons_self, List.map_cons]
    by_cases hkey : e.key = k
    · simp only [hkey, List.mem_cons, true_or, if_true]
      split <;> rfl
    · simp only [if_neg hkey, Option.or_none, List.mem_cons, Ne.symm hkey, false_or]

theorem indexable_of_last? (hes : ∀ e ∈ es, Indexable e.key.bytes)
    (hlast : ∀ k, last? es' k = last? es k) : ∀ e ∈ es', Indexable e.key.bytes := by
  intro e he
  have hkey : e.key ∈ es.map key := by
    by_contra hkey
    rw [← last?_eq_none_iff, ← hlast, last?_eq_none_iff] at hkey
    exact hkey (List.mem_map_of_mem he)
  obtain ⟨a, ha, heq⟩ := List.mem_map.mp hkey
  exact heq ▸ hes a ha

theorem foldl_apply_congr (hd : Postings d) (hes : ∀ e ∈ es, Indexable e.key.bytes)
    (hlast : ∀ k, last? es' k = last? es k) : es'.foldl apply d = es.foldl apply d := by
  obtain ⟨hpostings, hmem⟩ := postings_foldl hd hes
  obtain ⟨hpostings', hmem'⟩ := postings_foldl hd (indexable_of_last? hes hlast)
  apply hpostings'.ext hpostings
  intro k v
  rw [hmem, hmem', hlast]

variable {t : TableId} {x x' : WriteTxn} {table : Table}

theorem replaces_of_write (ht : x.working.tables[t]? = some table) (horder : table.order = KeyOrder.search)
    (h : e.write t x = .ok x') : x.Replaces t (apply table.entries e) x' := by
  obtain ⟨edit, key⟩ := e
  rw [apply, ← horder]
  cases edit with
  | insert => exact (WriteTxn.put_spec ht h).1
  | remove =>
    obtain ⟨_, hdelete, rfl⟩ := Stateful.map_eq_ok.mp h
    obtain ⟨_, _, hdelete', hreplaces, -⟩ := WriteTxn.delete_spec (k := key.bytes) ht
    cases hdelete.symm.trans hdelete'
    exact hreplaces

theorem replaces_of_writes (ht : x.working.tables[t]? = some table) (horder : table.order = KeyOrder.search)
    (h : es.foldlM (write t) x = .ok x') : x.Replaces t (es.foldl apply table.entries) x' := by
  induction es generalizing x table with
  | nil =>
    cases h
    exact .refl ht
  | cons e es ih =>
    rw [List.foldlM_cons] at h
    obtain ⟨y, hwrite, hwrites⟩ := Stateful.bind_eq_ok.mp h
    have hreplaces := replaces_of_write ht horder hwrite
    exact hreplaces.trans (ih (hreplaces.getElem?_self ht) horder hwrites)

end KeyEdit

namespace Indexer

def Clean (i : Indexer) : Prop := i.staged.Valid KeyOrder.ignoringLast ∧ i.pending = 0

structure Collapses (es : List KeyEdit) (i : Indexer) : Prop where
  valid : i.staged.Valid KeyOrder.ignoringLast
  mem_iff : ∀ a, a ∈ i.staged.entries ↔
    ∃ e : KeyEdit, KeyEdit.last? es e.key = some e.edit ∧ a = e.staged

variable {i i' : Indexer} {es es' : List KeyEdit} {schema : Schema}

theorem Clean.collapses (h : i.Clean) : i.Collapses [] := by
  refine ⟨h.1, fun a => ?_⟩
  rw [h.1.size_eq_zero_iff.mp h.2]
  simp [KeyEdit.last?]

theorem Clean.of_create {capacity pageSize : Nat} (h : create capacity pageSize = .ok i) : i.Clean := by
  obtain ⟨o, ho, h⟩ := Stateful.bind_eq_ok.mp h
  cases h
  obtain ⟨hvalid, hentries⟩ := Overlay.create_spec ho
  exact ⟨hvalid, hvalid.size_eq_zero_iff.mpr hentries⟩

theorem stage_triple (e : KeyEdit) :
    Triple (Collapses es) e.stage (fun _ => Collapses (es ++ [e])) (fun _ _ => True) := by
  apply Triple.get_bind
  intro i hi
  apply Triple.ofExcept_bind
  · rintro o ho _ rfl
    obtain ⟨hvalid, hentries⟩ := hi.valid.put ho
    refine ⟨hvalid, fun a => ?_⟩
    change a ∈ o.entries ↔ _
    rw [hentries]
    change a ∈ Dictionary.insert _ e.staged.1 e.staged.2 _ ↔ _
    rw [Dictionary.mem_insert hi.valid.ascending, hi.mem_iff]
    constructor
    · rintro (rfl | ⟨⟨b, hlast, rfl⟩, hne⟩)
      · exact ⟨e, by rw [KeyEdit.last?_concat, if_pos rfl], rfl⟩
      · refine ⟨b, ?_, rfl⟩
        rw [KeyEdit.last?_concat, if_neg (mt KeyEdit.tie_iff.mpr hne)]
        exact hlast
    · rintro ⟨b, hlast, rfl⟩
      rw [KeyEdit.last?_concat] at hlast
      by_cases hkey : e.key = b.key
      · rw [if_pos hkey] at hlast
        rw [KeyEdit.ext (Option.some_inj.mp hlast) hkey]
        exact .inl rfl
      · rw [if_neg hkey] at hlast
        exact .inr ⟨⟨b, hlast, rfl⟩, mt KeyEdit.tie_iff.mp hkey⟩
  · exact fun _ _ _ _ => trivial

theorem collapses_of_stages (hi : i.Collapses es) (h : (es'.forM KeyEdit.stage).run i = (.ok ⟨⟩, i')) :
    i'.Collapses (es ++ es') := by
  induction es' generalizing i es with
  | nil =>
    cases h
    rwa [List.append_nil]
  | cons e es' ih =>
    obtain ⟨⟨⟩, j, hstage, hstages⟩ := Stateful.run_bind_eq_ok.mp h
    have hj := (stage_triple e).ok hi hstage
    rw [List.append_cons]
    exact ih hj hstages

theorem Collapses.survivors (h : i.Collapses es) : ∃ survivors : List KeyEdit,
    i.staged.entries = survivors.map KeyEdit.staged ∧ (survivors.map KeyEdit.key).Nodup ∧
      ∀ k, KeyEdit.last? survivors k = KeyEdit.last? es k := by
  have hrange : i.staged.entries ∈ Set.range (List.map KeyEdit.staged) := by
    rw [Set.range_list_map]
    intro a ha
    obtain ⟨e, -, rfl⟩ := (h.mem_iff a).mp ha
    exact ⟨e, rfl⟩
  obtain ⟨survivors, hentries⟩ := hrange
  have hnodup : (survivors.map KeyEdit.key).Nodup := by
    have hascending := h.valid.ascending
    rw [← hentries, Ascending, List.pairwise_map] at hascending
    refine List.pairwise_map.mpr (hascending.imp fun hlt htie => ?_)
    rw [KeyEdit.tie_iff.mpr htie] at hlt
    contradiction
  refine ⟨survivors, hentries.symm, hnodup, fun k => ?_⟩
  ext edit
  have hmem : (⟨edit, k⟩ : KeyEdit) ∈ survivors ↔ KeyEdit.last? es k = some edit := by
    rw [← List.mem_map_of_injective fun _ _ => KeyEdit.staged_injective, hentries, h.mem_iff]
    constructor
    · rintro ⟨e, hlast, heq⟩
      cases KeyEdit.staged_injective heq
      exact hlast
    · exact fun hlast => ⟨_, hlast, rfl⟩
  exact (KeyEdit.last?_eq_some_iff (e := ⟨edit, k⟩) hnodup).trans hmem

theorem stages_of_stageValue {object field : Id} {raw : Bytes} {edit : IndexEdit}
    (h : (stageValue object field raw edit).run i = (.ok ⟨⟩, i')) :
    ((KeyEdit.ofValue object field raw edit).forM KeyEdit.stage).run i = (.ok ⟨⟩, i') ∧
      ∀ e ∈ KeyEdit.ofValue object field raw edit, Indexable e.key.bytes := by
  rw [stageValue] at h
  rw [KeyEdit.ofValue]
  cases hforms : indexForms raw with
  | error cause =>
    rw [hforms] at h
    cases h
  | ok forms =>
    rw [hforms] at h
    have hstages : (forms.map fun (v, content) => (⟨edit, v.tag, field, content, object⟩ : KeyEdit)).forM
        KeyEdit.stage =
          forms.forM fun (v, content) => stageKey (IndexKey.encode v field content object) edit :=
      List.forM_map ..
    refine ⟨?_, ?_⟩
    · dsimp only
      rw [hstages]
      exact h
    · intro e he
      obtain ⟨⟨v, content⟩, hform, rfl⟩ := List.mem_map.mp he
      exact Posts.indexable ⟨v, content, (contributes_iff hforms).mp hform, rfl⟩

theorem stages_append (h : (es.forM KeyEdit.stage).run i = (.ok ⟨⟩, i'))
    {i'' : Indexer} (h' : (es'.forM KeyEdit.stage).run i' = (.ok ⟨⟩, i'')) :
    ((es ++ es').forM KeyEdit.stage).run i = (.ok ⟨⟩, i'') := by
  change (forM (es ++ es') KeyEdit.stage).run i = _
  rw [List.forM_append]
  exact Stateful.run_bind_eq_ok.mpr ⟨⟨⟩, i', h, h'⟩

theorem stages_of_optional {object field : Id} {raw? : Option Bytes} {edit : IndexEdit}
    (h : (raw?.elim (pure ⟨⟩) (stageValue object field · edit)).run i = (.ok ⟨⟩, i')) :
    ((raw?.elim [] (KeyEdit.ofValue object field · edit)).forM KeyEdit.stage).run i = (.ok ⟨⟩, i') ∧
      ∀ e ∈ raw?.elim [] (KeyEdit.ofValue object field · edit), Indexable e.key.bytes := by
  cases raw? with
  | none => exact ⟨h, nofun⟩
  | some raw => exact stages_of_stageValue h

theorem observe_of_active {c : Change} {object field : Id}
    (hkey : Key.ofBytes? c.key = some (.field object field))
    (hactive : ¬ (c.IsNoop ∨ ¬ schema.isIndexed field)) :
    observe schema c = c.old.elim (pure ⟨⟩) (stageValue object field · .remove) >>= fun _ =>
      c.new.elim (pure ⟨⟩) (stageValue object field · .insert) := by
  rw [observe, hkey]
  simp only [if_neg hactive]
  cases c.old <;> cases c.new <;> rfl

theorem edits_of_idle {c : Change}
    (h : ∀ object field, Key.ofBytes? c.key = some (.field object field) →
      c.IsNoop ∨ ¬ schema.isIndexed field) : (IndexerCall.observe c).edits schema = [] := by
  rw [IndexerCall.edits]
  split
  next object field hkey => exact if_pos (h object field hkey)
  · rfl

theorem stages_of_perform {call : IndexerCall} (h : (call.perform schema).run i = (.ok ⟨⟩, i')) :
    ((call.edits schema).forM KeyEdit.stage).run i = (.ok ⟨⟩, i') ∧
      ∀ e ∈ call.edits schema, Indexable e.key.bytes := by
  cases call with
  | stageValue object field raw edit => exact stages_of_stageValue h
  | observe c =>
    rw [IndexerCall.perform] at h
    by_cases hidle : ∀ object field, Key.ofBytes? c.key = some (.field object field) →
        c.IsNoop ∨ ¬ schema.isIndexed field
    · rw [observe_of_idle hidle] at h
      rw [edits_of_idle hidle]
      exact ⟨h, nofun⟩
    · push Not at hidle
      obtain ⟨object, field, hkey, hnoop, hindexed⟩ := hidle
      have hactive : ¬ (c.IsNoop ∨ ¬ schema.isIndexed field) := by simp [hnoop, hindexed]
      rw [observe_of_active hkey hactive] at h
      obtain ⟨⟨⟩, j, hold, hnew⟩ := Stateful.run_bind_eq_ok.mp h
      obtain ⟨hremoves, hindexable⟩ := stages_of_optional hold
      obtain ⟨hinserts, hindexable'⟩ := stages_of_optional hnew
      simp only [IndexerCall.edits, hkey, if_neg hactive]
      refine ⟨stages_append hremoves hinserts, fun e he => ?_⟩
      rcases List.mem_append.mp he with he | he
      · exact hindexable e he
      · exact hindexable' e he

theorem stages_of_performs {calls : List IndexerCall}
    (h : (calls.forM (IndexerCall.perform schema)).run i = (.ok ⟨⟩, i')) :
    ((calls.flatMap (IndexerCall.edits schema)).forM KeyEdit.stage).run i = (.ok ⟨⟩, i') ∧
      ∀ e ∈ calls.flatMap (IndexerCall.edits schema), Indexable e.key.bytes := by
  induction calls generalizing i with
  | nil => exact ⟨h, nofun⟩
  | cons call calls ih =>
    obtain ⟨⟨⟩, j, hcall, hcalls⟩ := Stateful.run_bind_eq_ok.mp h
    obtain ⟨hstage, hindexable⟩ := stages_of_perform hcall
    obtain ⟨hstages, hindexables⟩ := ih hcalls
    rw [List.flatMap_cons]
    refine ⟨stages_append hstage hstages, fun e he => ?_⟩
    rcases List.mem_append.mp he with he | he
    · exact hindexable e he
    · exact hindexables e he

theorem flush_eq {survivors : List KeyEdit} (h : i.staged.entries = survivors.map KeyEdit.staged)
    (t : TableId) (x : WriteTxn) :
    i.flush t x = (survivors.foldlM (KeyEdit.write t) x).map fun x' => (survivors.length, x', i.reset) := by
  simp only [flush, h, List.foldlM_map, KeyEdit.writeKey_staged, List.length_map]
  cases survivors.foldlM (KeyEdit.write t) x <;> rfl

theorem Collapses.replaces_of_flush (h : i.Collapses es) (hes : ∀ e ∈ es, Indexable e.key.bytes)
    {t : TableId} {x x' : WriteTxn} {table : Table} {n : Nat} (ht : x.working.tables[t]? = some table)
    (horder : table.order = KeyOrder.search) (hpostings : Postings table.entries)
    (hflush : i.flush t x = .ok (n, x', i')) : x.Replaces t (es.foldl KeyEdit.apply table.entries) x' := by
  obtain ⟨survivors, hentries, -, hlast⟩ := h.survivors
  rw [flush_eq hentries] at hflush
  obtain ⟨y, hwrites, hend⟩ := Stateful.map_eq_ok.mp hflush
  cases hend
  rw [← KeyEdit.foldl_apply_congr hpostings hes hlast]
  exact KeyEdit.replaces_of_writes ht horder hwrites

theorem length_survivors {survivors : List KeyEdit} (hnodup : (survivors.map KeyEdit.key).Nodup)
    (hlast : ∀ k, KeyEdit.last? survivors k = KeyEdit.last? es k) :
    survivors.length = (es.map KeyEdit.key).dedup.length := by
  have hperm : (survivors.map KeyEdit.key).Perm (es.map KeyEdit.key).dedup := by
    rw [List.perm_ext_iff_of_nodup hnodup (List.nodup_dedup _)]
    intro k
    rw [List.mem_dedup, ← not_iff_not, ← KeyEdit.last?_eq_none_iff, ← KeyEdit.last?_eq_none_iff, hlast]
  rw [← hperm.length_eq, List.length_map]

/-- Calls that succeed have staged their edits, and a flush that succeeds makes of the table what these
edits make of it one by one. It writes the last edit of each key that was edited, and no other. -/
theorem flush_after_calls {calls : List IndexerCall} {i₀ : Indexer} (hclean : i₀.Clean)
    (hcalls : (calls.forM (IndexerCall.perform schema)).run i₀ = (.ok ⟨⟩, i))
    {t : TableId} {x x' : WriteTxn} {table : Table} {n : Nat} (ht : x.working.tables[t]? = some table)
    (horder : table.order = KeyOrder.search) (hpostings : Postings table.entries)
    (hflush : i.flush t x = .ok (n, x', i')) :
    let es := calls.flatMap (IndexerCall.edits schema)
    (es.forM KeyEdit.stage).run i₀ = (.ok ⟨⟩, i) ∧
    x'.working.tables =
      x.working.tables.set t (table.withEntries (es.foldl KeyEdit.apply table.entries)) ∧
    (∀ x'', es.foldlM (KeyEdit.write t) x = .ok x'' → x''.working.tables = x'.working.tables) ∧
    (∃ survivors : List KeyEdit, (survivors.map KeyEdit.key).Nodup ∧
      (∀ e, e ∈ survivors ↔ KeyEdit.last? es e.key = some e.edit) ∧
      ∀ y, i.flush t y = (survivors.foldlM (KeyEdit.write t) y).map fun y' => (n, y', i')) ∧
    n = (es.map KeyEdit.key).dedup.length ∧ i'.Clean := by
  intro es
  obtain ⟨hstages, hindexable⟩ := stages_of_performs hcalls
  have hcollapses := collapses_of_stages hclean.collapses hstages
  obtain ⟨survivors, hentries, hnodup, hlast⟩ := hcollapses.survivors
  rw [flush_eq hentries] at hflush
  obtain ⟨y, hwrites, hend⟩ := Stateful.map_eq_ok.mp hflush
  cases hend
  -- carried out in the order of the overlay, the edits left are one for each key: order does not matter
  have hmem (e : KeyEdit) : e ∈ survivors ↔ KeyEdit.last? es e.key = some e.edit := by
    rw [← KeyEdit.last?_eq_some_iff hnodup, hlast]
    rfl
  have hsame : survivors.foldl KeyEdit.apply table.entries = es.foldl KeyEdit.apply table.entries :=
    KeyEdit.foldl_apply_congr hpostings hindexable hlast
  have htables {es' : List KeyEdit} {x'' : WriteTxn} (h : es'.foldlM (KeyEdit.write t) x = .ok x'') :
      x''.working.tables =
        x.working.tables.set t (table.withEntries (es'.foldl KeyEdit.apply table.entries)) := by
    obtain ⟨table', ht', htables⟩ := (KeyEdit.replaces_of_writes ht horder h).tables_eq
    cases ht.symm.trans ht'
    exact htables
  refine ⟨hstages, ?_, ?_, ⟨survivors, hnodup, hmem, flush_eq hentries t⟩,
    length_survivors hnodup hlast, ?_⟩
  · rw [htables hwrites, hsame]
  · intro x'' hdirect
    rw [htables hdirect, htables hwrites, hsame]
  · exact ⟨hcollapses.valid.reset.1, rfl⟩

theorem flush_after_calls_shared : ∃ (schema : Schema) (c : Change) (i₀ i i' : Indexer) (x x' : WriteTxn)
    (n : Nat), create 4096 512 = .ok i₀ ∧
    (([.observe c] : List IndexerCall).forM (IndexerCall.perform schema)).run i₀ = (.ok ⟨⟩, i) ∧
    i.flush 0 x = .ok (n, x', i') ∧ c.old = some (Value.string "abc").encode ∧
    c.new = some (Value.string "abcd").encode ∧ ((IndexerCall.observe c).edits schema).length = 7 ∧
    n = 6 ∧ i'.pending = 0 := by
  let schema : Schema := ⟨[], [(Id.ofNat 7, ⟨Id.ofNat 7, "name", Id.ofNat 5, .string, true, none⟩)]⟩
  let c : Change := ⟨(Key.field (Id.ofNat 9) (Id.ofNat 7)).bytes, some (Value.string "abc").encode,
    some (Value.string "abcd").encode⟩
  let x : WriteTxn := ⟨4096, [⟨"search", KeyOrder.search, []⟩], 0⟩
  let i₀ : Indexer := ⟨⟨KeyOrder.ignoringLast, ⟨4096, 0⟩, Tree.empty, 0⟩⟩
  let calls : List IndexerCall := [.observe c]
  have hcreate : create 4096 512 = .ok i₀ := rfl
  have hsucceed : ((calls.forM (IndexerCall.perform schema)).run i₀).1 = .ok ⟨⟩ ∧
      (((calls.forM (IndexerCall.perform schema)).run i₀).2.flush 0 x).toOption.isSome := by decide +kernel
  rcases hrun : (calls.forM (IndexerCall.perform schema)).run i₀ with ⟨result, i⟩
  rw [hrun] at hsucceed
  obtain ⟨rfl, hflush⟩ := hsucceed
  obtain ⟨⟨n, x', i'⟩, hflush⟩ := Option.isSome_iff_exists.mp hflush
  have hflush' := Stateful.ok_of_toOption hflush
  have htable : x.working.tables[0]? = some ⟨"search", KeyOrder.search, []⟩ := rfl
  obtain ⟨-, -, -, -, hn, -, hpending⟩ :=
    flush_after_calls (Clean.of_create hcreate) hrun htable rfl Postings.nil hflush'
  refine ⟨schema, c, i₀, i, i', x, x', n, hcreate, hrun, hflush', rfl, rfl, by decide +kernel, ?_,
    hpending⟩
  rw [hn]
  decide +kernel

end Indexer

end ObjectGraph
