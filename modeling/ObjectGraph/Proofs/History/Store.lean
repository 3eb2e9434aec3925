import ObjectGraph.Proofs.History.Replay
import ObjectGraph.Proofs.Session.Publish

namespace ObjectGraph

open Stateful

def Block.contents (b : Block) : Id × List Item := (b.object, b.items)

def Commit.Tells (c : CommitId) (log : List (Id × Event)) (es es' : List Entry) : Prop :=
  log = [] ∧ es' = es ∨
    ∃ bs commit, Commit.decode c bs = .ok commit ∧ commit.id = c ∧
      (∀ d, commit.replay d = Event.applyAll log d) ∧
      es' = Dictionary.insert KeyOrder.lexicographic c.bytes bs es

namespace Draft

section Resolving

variable {σ : Type} {lookup : TypeLookup σ} {blocks blocks' : List Block}

theorem resolve_eq_ok {b b' : Block} {s t : σ} (h : (b.resolve lookup).run s = (.ok b', t)) :
    ∃ type, b' = { b with type } := by
  rw [Block.resolve] at h
  split at h
  · obtain ⟨type, u, -, hend⟩ := run_bind_eq_ok.mp h
    cases hend
    exact ⟨_, rfl⟩
  · cases h
    exact ⟨b.type, rfl⟩

theorem contents_resolveBlocks (lookup : TypeLookup σ) (blocks : List Block) (s : σ) :
    (resolveBlocks lookup blocks s).2.1.map Block.contents = blocks.map Block.contents := by
  induction blocks generalizing s with
  | nil => rfl
  | cons b rest ih =>
    rw [resolveBlocks]
    rcases hb : (b.resolve lookup).run s with ⟨e | b', t⟩
    · rfl
    · obtain ⟨type, rfl⟩ := resolve_eq_ok hb
      exact congrArg (b.contents :: ·) (ih t)

theorem resolveBlocks_ok (h : ∀ a s, ∃ type t, (lookup a).run s = (.ok type, t)) (blocks : List Block) (s : σ) :
    (resolveBlocks lookup blocks s).1 = .ok ⟨⟩ := by
  induction blocks generalizing s with
  | nil => rfl
  | cons b rest ih =>
    have hb : ∃ b' t, (b.resolve lookup).run s = (.ok b', t) := by
      rw [Block.resolve]
      split
      · obtain ⟨type, t, htype⟩ := h b.object s
        exact ⟨_, t, run_bind_of_ok htype⟩
      · exact ⟨b, s, rfl⟩
    obtain ⟨b', t, hb⟩ := hb
    rw [resolveBlocks, hb]
    exact ih t

theorem logOf_congr (h : blocks.map Block.contents = blocks'.map Block.contents) :
    logOf blocks = logOf blocks' := by
  have hlog : ∀ bl : List Block, logOf bl =
      (bl.map Block.contents).reverse.flatMap fun p => p.2.reverse.map fun i => (p.1, i.event) := by
    intro bl
    rw [← List.map_reverse, List.flatMap_map]
    rfl
  rw [hlog, hlog, h]

theorem lengthOf_congr (h : blocks.map Block.contents = blocks'.map Block.contents) :
    lengthOf blocks = lengthOf blocks' := by
  have hlength : ∀ bl : List Block, bl.map Block.length =
      (bl.map Block.contents).map fun p => Block.headLength + Item.totalLength p.2 := by
    intro bl
    rw [List.map_map]
    rfl
  rw [lengthOf, lengthOf, hlength, hlength, h]

theorem tidy_congr (h : blocks.map Block.contents = blocks'.map Block.contents)
    (htidy : ∀ b ∈ blocks', b.Tidy) : ∀ b ∈ blocks, b.Tidy := by
  intro b hb
  have hmem := List.mem_map_of_mem hb (f := Block.contents)
  rw [h] at hmem
  obtain ⟨b', hb', hcontents⟩ := List.mem_map.mp hmem
  have hitems : b'.items = b.items := congrArg Prod.snd hcontents
  intro i hi
  exact htidy b' hb' i (hitems ▸ hi)

end Resolving

variable {t : Tables} {c : CommitId} {x x' : WriteTxn} {d : Draft} {history : Table}

theorem puts_eq_ok {t : TableId} {index : Table} {objects : List Id}
    (hx : x.working.tables[t]? = some index)
    (h : objects.foldlM (fun w a => w.put t (objectCommitKey a c) []) x = .ok x') :
    x'.working.tables[t]? =
      some (objects.foldl (fun index a => index.insert (objectCommitKey a c) []) index) := by
  induction objects generalizing x index with
  | nil =>
    cases h
    exact hx
  | cons a objects ih =>
    rw [List.foldlM_cons] at h
    obtain ⟨y, hput, hrest⟩ := bind_eq_ok.mp h
    exact ih ((WriteTxn.put_spec hx hput).1.getElem?_self hx) hrest

theorem store_eq_ok (hdistinct : t.Distinct) (hx : x.working.tables[t.history]? = some history)
    (h : d.store t c x = .ok x') :
    d.blocks = [] ∧ x' = x ∨ d.blocks ≠ [] ∧
      ∃ d' : Draft, d'.blocks.map Block.contents = d.blocks.map Block.contents ∧
        x'.working.tables[t.history]? = some (history.insert c.bytes d'.bytes) ∧
        ∀ index, x.working.tables[t.historyByObject]? = some index →
          x'.working.tables[t.historyByObject]? =
            some (d'.touched.foldl (fun index a => index.insert (objectCommitKey a c) []) index) := by
  rw [store] at h
  split at h
  next hempty =>
    cases h
    exact .inl ⟨List.isEmpty_iff.mp hempty, rfl⟩
  next hempty =>
    obtain ⟨_, -, h⟩ := bind_eq_ok.mp h
    obtain ⟨y, hput, h⟩ := bind_eq_ok.mp h
    have hframe : WriteTxn.Frame (· = t.historyByObject) y x' :=
      WriteTxn.Frame.foldlM (fun _ _ _ => WriteTxn.frame_of_put) h
    have hreplaces := (WriteTxn.put_spec hx hput).1
    refine .inr ⟨fun hnil => hempty (List.isEmpty_iff.mpr hnil),
      ((resolveTypes (x.objectType? t)).run d).2, ?_, ?_, fun index hindex => ?_⟩
    · change (resolveBlocks _ d.blocks.reverse ()).2.1.reverse.map Block.contents = _
      rw [List.map_reverse, contents_resolveBlocks, List.map_reverse, List.reverse_reverse]
    · rw [hframe.getElem?_eq _ hdistinct.history_ne_historyByObject, hreplaces.getElem?_self hx]
      rfl
    · rw [← hreplaces.getElem?_ne hdistinct.history_ne_historyByObject.symm] at hindex
      exact puts_eq_ok hindex h

theorem store_error {e : Error} (hobjects : t.objects < x.working.tables.length)
    (hhistory : t.history < x.working.tables.length)
    (hbyObject : t.historyByObject < x.working.tables.length) (h : d.store t c x = .error e) :
    e.IsShortage := by
  rw [store] at h
  split at h
  · contradiction
  · have hresolved : ((resolveTypes (x.objectType? t)).run d).1 = .ok ⟨⟩ := by
      refine resolveBlocks_ok (fun a s => ?_) d.blocks.reverse ()
      have htable := Snapshot.table?_eq_ok_iff.mpr (List.getElem?_eq_getElem hobjects)
      rw [WriteTxn.objectType?, htable]
      exact ⟨_, s, rfl⟩
    rcases hrun : (resolveTypes (x.objectType? t)).run d with ⟨resolved, d'⟩
    rw [hrun] at hresolved h
    obtain rfl : resolved = .ok ⟨⟩ := hresolved
    simp only [ok_bind] at h
    cases hput : x.put t.history c.bytes d'.bytes with
    | error e' =>
      rw [hput] at h
      cases h
      exact WriteTxn.put_error (List.getElem?_eq_getElem hhistory) hput
    | ok y =>
      rw [hput, ok_bind] at h
      have hlength := (WriteTxn.frame_of_put hput).length_eq
      exact WriteTxn.shortage_of_foldlM (hlength ▸ hbyObject) (fun _ _ _ => WriteTxn.frame_of_put)
        (fun _ _ _ _ hz => WriteTxn.put_error hz) h

variable {capacity : Nat} {deleted : Option Id} {log : List (Id × Event)}

theorem Logs.tells (hd : d.Logs capacity deleted log) (hcapacity : capacity ≤ Quota.maxCapacity)
    (hdistinct : t.Distinct) (hx : x.working.tables[t.history]? = some history)
    (horder : history.order = KeyOrder.lexicographic) (h : d.store t c x = .ok x') :
    ∃ history', x'.working.tables[t.history]? = some history' ∧
      history'.order = KeyOrder.lexicographic ∧
      Commit.Tells c log history.entries history'.entries := by
  rcases store_eq_ok hdistinct hx h with ⟨hempty, rfl⟩ | ⟨-, d', hcontents, hstored, -⟩
  · have hlog := hd.log_eq
    rw [hempty] at hlog
    exact ⟨history, hx, horder, .inl ⟨hlog.symm, rfl⟩⟩
  · have hlength : lengthOf d'.blocks < 1 <<< 32 := by
      rw [lengthOf_congr hcontents]
      have hused := hd.has.used_le
      have hmax : Quota.maxCapacity < 1 <<< 32 := by decide
      omega
    have hdecode := decode_bytes c (tidy_congr hcontents hd.tidy) hlength
    refine ⟨_, hstored, horder, .inr ⟨d'.bytes, _, hdecode, rfl, ?_, ?_⟩⟩
    · intro entries
      rw [Commit.replay_changes rfl, logOf_congr hcontents, hd.log_eq]
    · rw [Table.insert, horder]

end Draft

end ObjectGraph
