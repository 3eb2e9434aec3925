import ObjectGraph.Overlay.LinkedCursor
import ObjectGraph.Proofs.Overlay.Cursor
import ObjectGraph.Proofs.Overlay.Shape

namespace ObjectGraph

open Std (TransCmp OrientedCmp)

namespace Nodes

variable {order : KeyOrder} {s : Nodes} {start : Option Nat} {es : List Entry} {rows : List (List Entry)}

def Chained (s : Nodes) (start : Option Nat) (rows : List (List Entry)) : Prop :=
  ∃ ls, s.Follows start ls ∧ ls.map (fun i => s.leaves[i]?.map LeafNode.entries) = rows.map some

theorem chained_nil : s.Chained start [] ↔ start = none := by
  constructor
  · rintro ⟨ls, hfollows, hrows⟩
    obtain rfl : ls = [] := List.map_eq_nil_iff.mp hrows
    exact hfollows
  · rintro rfl
    exact ⟨[], rfl, rfl⟩

theorem Chained.exists_leaf (h : s.Chained start (es :: rows)) :
    ∃ i next, start = some i ∧ s.leaves[i]? = some ⟨es, next⟩ ∧ s.Chained next rows := by
  obtain ⟨ls, hfollows, hrows⟩ := h
  cases ls with
  | nil => contradiction
  | cons i ls =>
    obtain ⟨hstart, leaf, hleaf, hrest⟩ := hfollows
    obtain ⟨hes, hlater⟩ := List.cons.inj hrows
    obtain ⟨entries, next⟩ := leaf
    dsimp only at hes
    rw [hleaf] at hes
    cases hes
    exact ⟨i, next, hstart, hleaf, ls, hrest, hlater⟩

theorem Follows.suffix : ∀ {start : Option Nat} {before ls : List Nat} {i : Nat},
    s.Follows start (before ++ i :: ls) → s.Follows (some i) (i :: ls)
  | _, [], _, _, ⟨_, hrest⟩ => ⟨rfl, hrest⟩
  | _, _ :: _, _, _, ⟨_, _, _, hrest⟩ => Follows.suffix hrest

variable {t : Tree} {depth : Nat} {ls ns : List Nat}

theorem Stores.chained (h : s.Stores t depth ls ns) : s.Chained (some 0) t.leaves :=
  ⟨ls, h.links, h.held.leaves_eq⟩

theorem Stores.chained_from (h : s.Stores t depth ls ns) (hsized : t.Sized) (order : KeyOrder) (k : Bytes) :
    ∃ i path es next later, s.leafFor order k = some (i, path) ∧ s.leaves[i]? = some ⟨es, next⟩ ∧
      t.find? order k = Dictionary.find? order k es ∧ t.leavesFrom order k = es :: later ∧
      s.Chained (some i) (es :: later) := by
  obtain ⟨i, path, es, hfor, hleads⟩ := h.exists_leads hsized order k []
  obtain ⟨next, hleaf⟩ := hleads.way.leaf
  obtain ⟨before, after, rfl, hrows⟩ := hleads.onward
  have hchained : s.Chained (some i) (t.leavesFrom order k) := ⟨i :: after, h.links.suffix, hrows⟩
  cases hfrom : t.leavesFrom order k with
  | nil =>
    rw [hfrom] at hrows
    contradiction
  | cons es' later =>
    rw [hfrom] at hchained
    obtain ⟨j, next', hj, hleaf', -⟩ := hchained.exists_leaf
    cases hj
    cases hleaf.symm.trans hleaf'
    exact ⟨i, path, es, next, later, hfor, hleaf, hleads.find?_eq, rfl, hchained⟩

theorem getElem?_slot [OrientedCmp order] {k : Bytes} {es : List Entry} {e : Entry}
    (h : Dictionary.find? order k es = some e) : es[(slot order k es).2]? = some e := by
  induction es with
  | nil => contradiction
  | cons e' es ih =>
    rw [Dictionary.find?] at h
    cases hk : order k e'.1 with
    | lt =>
      rw [hk] at h
      contradiction
    | eq =>
      rw [hk] at h
      cases h
      simp [slot, OrientedCmp.eq_symm hk]
    | gt =>
      rw [hk] at h
      have hslot : (slot order k (e' :: es)).2 = (slot order k es).2 + 1 := by simp [slot, OrientedCmp.lt_of_gt hk]
      rw [hslot]
      exact ih h

end Nodes

namespace LinkedCursor

open Nodes

structure Matches (c : LinkedCursor) (c' : OverlayCursor) : Prop where
  mirrors : c.overlay.Mirrors c'.overlay
  slot_eq : c.slot = c'.slot
  chained : c.overlay.nodes.Chained c.leaf c'.leaves
  settled : c'.Settled

variable {l : LinkedOverlay} {o : Overlay} {c : LinkedCursor} {c' : OverlayCursor}

theorem skipExhausted_matches (h : l.Mirrors o) {start : Option Nat} {rows : List (List Entry)} (n : Nat)
    (hrows : l.nodes.Chained start rows) :
    ∃ c, l.skipExhausted start n = some c ∧ c.Matches (OverlayCursor.skipExhausted o rows n) := by
  induction rows generalizing start n with
  | nil =>
    obtain rfl := chained_nil.mp hrows
    exact ⟨_, by rw [LinkedOverlay.skipExhausted], h, rfl, hrows, nofun⟩
  | cons es later ih =>
    obtain ⟨i, next, rfl, hleaf, hlater⟩ := hrows.exists_leaf
    rw [LinkedOverlay.skipExhausted, OverlayCursor.skipExhausted, hleaf, Option.bind_eq_bind, Option.bind_some]
    split
    next hn =>
      refine ⟨_, rfl, h, rfl, hrows, ?_⟩
      rintro es' ⟨⟩
      exact hn
    next => exact ih 0 hlater

def move (c : LinkedCursor) : OverlayMove → Option LinkedCursor
  | .seekFirst => c.seekFirst
  | .seek k => c.seek k
  | .advance => c.advance

theorem matches_create (h : l.Mirrors o) : (create l).Matches (OverlayCursor.create o) :=
  ⟨h, rfl, chained_nil.mpr rfl, nofun⟩

theorem Matches.move (h : c.Matches c') (m : OverlayMove) : ∃ d, c.move m = some d ∧ d.Matches (c'.move m) := by
  obtain ⟨depth, ls, ns, hstores⟩ := h.mirrors.stores
  cases m with
  | seekFirst => exact skipExhausted_matches h.mirrors 0 hstores.chained
  | seek k =>
    obtain ⟨i, path, es, next, later, hfor, hleaf, -, hfrom, hchained⟩ :=
      hstores.chained_from h.mirrors.sized c'.overlay.order k
    rw [LinkedCursor.move, seek, h.mirrors.order_eq, OverlayCursor.move, OverlayCursor.seek, hfrom]
    simp only [hfor, hleaf, Option.bind_eq_bind, Option.bind_some]
    exact skipExhausted_matches h.mirrors _ hchained
  | advance =>
    obtain ⟨l, leaf, slot⟩ := c
    obtain ⟨o, leaves, slot'⟩ := c'
    obtain rfl : slot = slot' := h.slot_eq
    cases leaves with
    | nil =>
      obtain rfl : leaf = none := chained_nil.mp h.chained
      exact ⟨_, rfl, h⟩
    | cons es later =>
      obtain ⟨i, next, rfl, -, -⟩ := h.chained.exists_leaf
      exact skipExhausted_matches h.mirrors (slot + 1) h.chained

theorem Matches.moves (h : c.Matches c') (moves : List OverlayMove) :
    ∃ d, moves.foldlM LinkedCursor.move c = some d ∧ d.Matches (moves.foldl OverlayCursor.move c') := by
  induction moves generalizing c c' with
  | nil => exact ⟨c, rfl, h⟩
  | cons m moves ih =>
    obtain ⟨d, hmove, hd⟩ := h.move m
    obtain ⟨d', hmoves, hd'⟩ := ih hd
    refine ⟨d', ?_, hd'⟩
    rw [List.foldlM_cons, hmove, Option.bind_eq_bind, Option.bind_some, hmoves]

theorem Matches.current?_eq (h : c.Matches c') : c.current? = some c'.current? := by
  obtain ⟨l, leaf, slot⟩ := c
  obtain ⟨o, leaves, slot'⟩ := c'
  obtain rfl : slot = slot' := h.slot_eq
  cases leaves with
  | nil =>
    obtain rfl : leaf = none := chained_nil.mp h.chained
    rfl
  | cons es later =>
    obtain ⟨i, next, rfl, hleaf, -⟩ := h.chained.exists_leaf
    have hslot : slot < es.length := h.settled es rfl
    have hentry : es[slot]? = some es[slot] := List.getElem?_eq_getElem hslot
    change l.nodes.leaves[i]? = _ at hleaf
    simp only [current?, OverlayCursor.current?, hleaf, hentry, Option.bind_eq_bind, Option.bind_some]
    rfl

end LinkedCursor

namespace LinkedOverlay

theorem Mirrors.get?_eq {l : LinkedOverlay} {o : Overlay} [OrientedCmp o.order] (h : l.Mirrors o) (k : Bytes) :
    l.get? k = some (o.get? k) := by
  obtain ⟨depth, ls, ns, hstores⟩ := h.stores
  obtain ⟨i, path, es, next, later, hfor, hleaf, hfind, -, -⟩ := hstores.chained_from h.sized o.order k
  obtain ⟨j, hslot, -⟩ := Nodes.slot_spec o.order k [] es
  rw [Overlay.get?, Overlay.find?, hfind, get?, h.order_eq]
  simp only [hfor, hleaf, hslot, Option.bind_eq_bind, Option.bind_some]
  cases hfound : Dictionary.find? o.order k es with
  | none => rfl
  | some e =>
    have hget := Nodes.getElem?_slot hfound
    rw [hslot] at hget
    simp only [Option.isSome_some, if_true, hget, Option.bind_some]
    rfl

theorem reads_agree (order : KeyOrder) [TransCmp order] (capacity pageSize : Nat) (hpage : pageSize ≠ 0) :
    ∃ l₀ o₀, create order capacity pageSize = .ok l₀ ∧ Overlay.create order capacity pageSize = .ok o₀ ∧
      ∀ cs : List OverlayCall, ∃ l answers, l₀.calls cs = some (answers, l) ∧
        (∀ k, l.get? k = some ((o₀.calls cs).2.get? k)) ∧
        ∀ moves : List OverlayMove, ∃ c, moves.foldlM LinkedCursor.move (.create l) = some c ∧
          c.current? = some (moves.foldl OverlayCursor.move (.create (o₀.calls cs).2)).current? := by
  let o₀ : Overlay := ⟨order, ⟨min capacity Quota.maxCapacity, 0⟩, Tree.empty, 0⟩
  have hcreate : Overlay.create order capacity pageSize = .ok o₀ := Overlay.create_eq_ok hpage
  refine ⟨_, o₀, create_eq_ok hpage, hcreate, fun cs => ?_⟩
  have hlogged := Overlay.logged_create hcreate
  obtain ⟨l, hcalls, hmirrors⟩ := (mirrors_create order o₀.quota).calls hlogged cs
  have : OrientedCmp (o₀.calls cs).2.order := by
    rw [(hlogged.calls cs).2.valid.order_eq]
    infer_instance
  refine ⟨l, _, hcalls, hmirrors.get?_eq, fun moves => ?_⟩
  obtain ⟨c, hmoves, hmatches⟩ := (LinkedCursor.matches_create hmirrors).moves moves
  exact ⟨c, hmoves, hmatches.current?_eq⟩

end LinkedOverlay

end ObjectGraph
