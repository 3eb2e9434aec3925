import ObjectGraph.Proofs.Overlay.Calls
import ObjectGraph.Proofs.Overlay.Descent
import ObjectGraph.Proofs.Stateful
/-!
The shape of the nodes of an overlay. Whatever calls are made, they are those of a search tree of one depth
with bounded nodes, in which every node is used once, and the links visit its leaves from left to right.
-/

namespace ObjectGraph

open Dictionary (Ascending)
open Std (TransCmp OrientedCmp)

namespace Nodes

variable {order : KeyOrder} {k v : Bytes} {s : Nodes} {t : Tree}

structure Stores (s : Nodes) (t : Tree) (depth : Nat) (ls ns : List Nat) : Prop where
  held : t.HeldAt s s.root depth ls ns
  leaves : ls.Perm (List.range s.leaves.length)
  inners : ns.Perm (List.range s.inners.length)
  links : s.Follows (some 0) ls

variable {depth : Nat} {ls ns : List Nat}

theorem stores_empty : Nodes.empty.Stores Tree.empty 0 [0] [] :=
  ⟨⟨0, rfl, rfl, rfl, rfl, rfl⟩, .rfl, .rfl, rfl, _, rfl, rfl⟩

theorem Stores.nodup (h : s.Stores t depth ls ns) : ls.Nodup ∧ ns.Nodup :=
  ⟨h.leaves.nodup_iff.mpr List.nodup_range, h.inners.nodup_iff.mpr List.nodup_range⟩

theorem Stores.exists_leads (h : s.Stores t depth ls ns) (hsized : t.Sized) (order : KeyOrder) (k v : Bytes) :
    ∃ l path es, s.leafFor order k = some (l, path) ∧ t.Leads order k v s s.root depth ls ns l path es := by
  obtain ⟨l, path, es, hleads⟩ := h.held.exists_leads order k v hsized h.nodup.1 h.nodup.2
  have hfuel : depth ≤ s.inners.length := by
    have hlength := h.inners.length_eq
    rw [List.length_range] at hlength
    exact hlength ▸ h.held.bounds.2.2
  refine ⟨l, path, es, ?_, hleads⟩
  rw [leafFor, hleads.way.descend _ [] hfuel, List.append_nil]

theorem Regrown.perm_range {s' : Nodes} {ns' : List Nat} (h : s.Regrown ns ns' s')
    (hns : ns.Perm (List.range s.inners.length)) : ns'.Perm (List.range s'.inners.length) := by
  obtain ⟨m, hlength, hperm⟩ := h.fresh
  rw [hlength, List.range_eq_range', ← List.range'_append_1, Nat.zero_add, ← List.range_eq_range']
  exact hperm.trans (hns.append_right _)

theorem stores_crown {left right : Tree} {sep : Bytes} {r : NodeRef} {ls₁ ls₂ ns₁ ns₂ : List Nat}
    (hleft : left.HeldAt s s.root depth ls₁ ns₁) (hright : right.HeldAt s r depth ls₂ ns₂)
    (hleaves : (ls₁ ++ ls₂).Perm (List.range s.leaves.length))
    (hinners : (ns₁ ++ ns₂).Perm (List.range s.inners.length)) (hlinks : s.Follows (some 0) (ls₁ ++ ls₂)) :
    (crown (s, some ⟨sep, r⟩)).Stores (.node (.cons left sep (.last right))) (depth + 1) (ls₁ ++ ls₂)
      (s.inners.length :: (ns₁ ++ ns₂)) := by
  let top : InnerNode := ⟨[sep], [s.root, r]⟩
  have hsame : ∀ i ∈ ns₁ ++ ns₂, (s.inners ++ [top])[i]? = s.inners[i]? := fun i hi =>
    List.getElem?_append_left (List.mem_range.mp (hinners.mem_iff.mp hi))
  refine ⟨?_, hleaves, ?_, hlinks.congr fun _ _ => rfl⟩
  · refine ⟨s.inners.length, [s.root, r], depth, ns₁ ++ ns₂, rfl, rfl, rfl, ?_, ?_⟩
    · exact List.getElem?_concat_length ..
    · refine ⟨s.root, [r], ls₁, ls₂, ns₁, ns₂, rfl, rfl, rfl, ?_, r, rfl, ?_⟩
      · exact hleft.congr (fun _ _ => rfl) fun i hi => hsame i (List.mem_append_left _ hi)
      · exact hright.congr (fun _ _ => rfl) fun i hi => hsame i (List.mem_append_right _ hi)
  · rw [crown, List.length_append, List.length_singleton, List.range_succ]
    exact (List.Perm.cons _ hinners).trans (List.perm_append_singleton _ _).symm

theorem Stores.insert (order : KeyOrder) [OrientedCmp order] (h : s.Stores t depth ls ns) (hsized : t.Sized)
    (k v : Bytes) :
    ∃ s' depth' ls' ns', s.insert order k v = some ((t.find? order k).isSome, s') ∧
      s'.Stores (t.insert order k v) depth' ls' ns' := by
  obtain ⟨l, path, es, hfor, hleads⟩ := h.exists_leads hsized order k v
  obtain ⟨next, hleaf⟩ := hleads.way.leaf
  obtain ⟨s₁, sprout, pieces, hfill, hgrown, hrefilled⟩ :=
    fill_spec order k v hleaf hleads.way.short
  obtain ⟨s₂, sprout', ns', hcarry, hregrown, hheld⟩ := hleads.grow s₁ sprout pieces hrefilled hgrown
  have hinsert : s.insert order k v = some ((t.find? order k).isSome, crown (s₂, sprout')) := by
    simp only [Nodes.insert, hfor, hfill, hcarry, Option.bind_eq_bind, Option.bind_some, hleads.find?_eq]
    rfl
  have hleaves : (splice l pieces ls).Perm (List.range s₂.leaves.length) := by
    rw [hregrown.leaves_eq]
    exact hrefilled.perm hleads.mem h.leaves
  have hinners : ns'.Perm (List.range s₂.inners.length) := by
    refine hregrown.perm_range ?_
    rw [hrefilled.inners_eq]
    exact h.inners
  have hlinks : s₂.Follows (some 0) (splice l pieces ls) :=
    (hrefilled.follows h.nodup.1 h.links).congr fun i _ => by rw [hregrown.leaves_eq]
  have hroot : s₂.root = s.root := hregrown.root_eq.trans hrefilled.root_eq
  rw [hinsert, Tree.insert]
  cases hg : t.grow order k v with
  | whole t' =>
    rw [hg] at hheld
    obtain ⟨rfl, hheld⟩ := hheld
    exact ⟨_, depth, _, ns', rfl, hroot.symm ▸ hheld, hleaves, hinners, hlinks⟩
  | split left sep right =>
    rw [hg] at hheld
    obtain ⟨r, ls₁, ls₂, ns₁, ns₂, rfl, hsplice, rfl, hleft, hright⟩ := hheld
    rw [hsplice] at hleaves hlinks
    exact ⟨_, depth + 1, _, _, rfl, stores_crown (hroot.symm ▸ hleft) hright hleaves hinners hlinks⟩

theorem Stores.erase (order : KeyOrder) [OrientedCmp order] (h : s.Stores t depth ls ns) (hsized : t.Sized)
    (k : Bytes) :
    ∃ s', s.erase order k = some ((t.find? order k).isSome, s') ∧
      s'.Stores (if (t.find? order k).isSome then t.erase order k else t) depth ls ns := by
  obtain ⟨l, path, es, hfor, hleads⟩ := h.exists_leads hsized order k []
  obtain ⟨next, hleaf⟩ := hleads.way.leaf
  obtain ⟨i, hslot, hput⟩ := slot_spec order k [] es
  rw [hleads.find?_eq]
  by_cases hfound : (Dictionary.find? order k es).isSome = true
  · rw [if_pos hfound] at hput ⊢
    obtain ⟨hrefilled, hset⟩ := refilled_set hleaf (Dictionary.erase order k es)
    refine ⟨{ s with leaves := s.leaves.set l ⟨Dictionary.erase order k es, next⟩ }, ?_, ?_, ?_, h.inners, ?_⟩
    · simp [Nodes.erase, hfor, hleaf, hslot, hfound, hput.2]
    · exact hleads.erase _ hrefilled (congrArg _ hset)
    · rw [List.length_set]
      exact h.leaves
    · have hfollows := hrefilled.follows h.nodup.1 h.links
      rwa [splice_self] at hfollows
  · rw [if_neg hfound]
    exact ⟨s, by simp [Nodes.erase, hfor, hleaf, hslot, hfound], h⟩

mutual

/-- A reference leads to a node at the head of so many levels of inner nodes over leaves, with keys from `lo`
on and before `hi`. These are the leaves below it from left to right, and the inner nodes. -/
inductive Heads (order : KeyOrder) (s : Nodes) :
    Nat → Option Bytes → Option Bytes → NodeRef → List Nat → List Nat → Prop where
  | leaf {lo hi : Option Bytes} {i : Nat} {leaf : LeafNode} : s.leaves[i]? = some leaf →
      leaf.entries.length ≤ maxKeys → Ascending order leaf.entries →
      (∀ e ∈ leaf.entries, order.AtLeast lo e.1 ∧ order.Below hi e.1) →
      Heads order s 0 lo hi (.leaf i) [i] []
  | inner {levels : Nat} {lo hi : Option Bytes} {i : Nat} {node : InnerNode} {ls ns : List Nat} :
      s.inners[i]? = some node → node.separators ≠ [] → node.separators.length ≤ maxKeys →
      node.children.length = node.separators.length + 1 →
      node.separators.Pairwise (order · · = .lt) →
      Row order s levels lo hi node.separators node.children ls ns →
      Heads order s (levels + 1) lo hi (.inner i) ls (i :: ns)

inductive Row (order : KeyOrder) (s : Nodes) :
    Nat → Option Bytes → Option Bytes → List Bytes → List NodeRef → List Nat → List Nat → Prop where
  | last {levels : Nat} {lo hi : Option Bytes} {r : NodeRef} {ls ns : List Nat} :
      Heads order s levels lo hi r ls ns → Row order s levels lo hi [] [r] ls ns
  | cons {levels : Nat} {lo hi : Option Bytes} {sep : Bytes} {separators : List Bytes} {r : NodeRef}
      {rs : List NodeRef} {ls ls' ns ns' : List Nat} :
      order.Above lo sep → order.Below hi sep → Heads order s levels lo (some sep) r ls ns →
      Row order s levels (some sep) hi separators rs ls' ns' →
      Row order s levels lo hi (sep :: separators) (r :: rs) (ls ++ ls') (ns ++ ns')

end

end Nodes

theorem Children.Within.separators {order : KeyOrder} : ∀ {cs : Children} {lo hi : Option Bytes} [TransCmp order],
    cs.Within order lo hi →
    cs.separators.Pairwise (order · · = .lt) ∧ ∀ sep ∈ cs.separators, order.Above lo sep
  | .last _, _, _, _, _ => ⟨.nil, nofun⟩
  | .cons t sep rest, lo, hi, _, ⟨hlo, _, _, hrest⟩ => by
    obtain ⟨hascending, habove⟩ := Children.Within.separators hrest
    refine ⟨List.pairwise_cons.mpr ⟨fun sep' hsep' => ?_, hascending⟩, fun sep' hsep' => ?_⟩
    · exact KeyOrder.above_some.mp (habove sep' hsep')
    · rcases List.mem_cons.mp hsep' with rfl | hsep'
      · exact hlo
      · exact hlo.trans (KeyOrder.above_some.mp (habove sep' hsep'))

section Heads

variable {order : KeyOrder} {s : Nodes}

mutual

theorem Tree.HeldAt.heads [TransCmp order] :
    ∀ {t : Tree} {r : NodeRef} {depth : Nat} {lo hi : Option Bytes} {ls ns : List Nat},
    t.HeldAt s r depth ls ns → t.Within order lo hi → t.Sized → s.Heads order depth lo hi r ls ns
  | .leaf es, r, depth, lo, hi, ls, ns, ⟨i, hr, hdepth, hls, hns, hleaf⟩, hwithin, hsized => by
    subst hr hdepth hls hns
    obtain ⟨leaf, hleaf', rfl⟩ := Option.map_eq_some_iff.mp hleaf
    exact .leaf hleaf' hsized hwithin.1 hwithin.2
  | .node cs, r, depth, lo, hi, ls, ns, ⟨i, rs, d, ns', hr, hdepth, hns, hnode, hcs⟩, hwithin, hsized => by
    subst hr hdepth hns
    exact .inner hnode hsized.1 hsized.2.1 hcs.length_eq (Children.Within.separators hwithin).1
      (Children.HeldAt.row hcs hwithin hsized.2.2)

theorem Children.HeldAt.row [TransCmp order] :
    ∀ {cs : Children} {rs : List NodeRef} {depth : Nat} {lo hi : Option Bytes} {ls ns : List Nat},
    cs.HeldAt s rs depth ls ns → cs.Within order lo hi → cs.Sized →
    s.Row order depth lo hi cs.separators rs ls ns
  | .last t, rs, depth, lo, hi, ls, ns, ⟨r, hrs, ht⟩, hwithin, hsized => by
    subst hrs
    exact .last (Tree.HeldAt.heads ht hwithin hsized)
  | .cons t sep rest, rs, depth, lo, hi, ls, ns, ⟨r, rs', ls₁, ls₂, ns₁, ns₂, hrs, hls, hns, ht, hrest⟩,
      ⟨hlo, hhi, hwithin, hwithin'⟩, ⟨hsized, hsized'⟩ => by
    subst hrs hls hns
    exact .cons hlo hhi (Tree.HeldAt.heads ht hwithin hsized) (Children.HeldAt.row hrest hwithin' hsized')

end

end Heads

namespace Nodes

def Shaped (order : KeyOrder) (s : Nodes) (rows : List (List Entry)) : Prop :=
  ∃ levels ls ns, s.Heads order levels none none s.root ls ns ∧
    ls.Perm (List.range s.leaves.length) ∧ ns.Perm (List.range s.inners.length) ∧
    s.Follows (some 0) ls ∧ ls.map (fun i => s.leaves[i]?.map LeafNode.entries) = rows.map some

theorem Stores.shaped {order : KeyOrder} [TransCmp order] {s : Nodes} {t : Tree} {depth : Nat} {ls ns : List Nat}
    (h : s.Stores t depth ls ns) (hwithin : t.Within order none none) (hsized : t.Sized) :
    s.Shaped order t.leaves :=
  ⟨depth, ls, ns, h.held.heads hwithin hsized, h.leaves, h.inners, h.links, h.held.leaves_eq⟩

end Nodes

namespace LinkedOverlay

def putCall (o : LinkedOverlay) (r : Except Error LinkedOverlay) : OverlayAnswer × LinkedOverlay :=
  match r with
  | .ok o' => (.done, o')
  | .error e => (.failed e, o)

def call (o : LinkedOverlay) : OverlayCall → Option (OverlayAnswer × LinkedOverlay)
  | .put k v => return o.putCall (← (o.put k v).run)
  | .putParts k parts => return o.putCall (← (o.putParts k parts).run)
  | .remove k => return (← o.remove k).map .removed id
  | .reset => return (.done, o.reset)

def calls (o : LinkedOverlay) : List OverlayCall → Option (List OverlayAnswer × LinkedOverlay)
  | [] => return ([], o)
  | c :: cs => do
    let (answer, next) ← o.call c
    let (answers, last) ← next.calls cs
    return (answer :: answers, last)

structure Mirrors (l : LinkedOverlay) (o : Overlay) : Prop where
  order_eq : l.order = o.order
  quota_eq : l.quota = o.quota
  size_eq : l.size = o.size
  sized : o.tree.Sized
  stores : ∃ depth ls ns, l.nodes.Stores o.tree depth ls ns

variable {l : LinkedOverlay} {o : Overlay}

theorem Mirrors.put [OrientedCmp o.order] (h : l.Mirrors o) (k v : Bytes) :
    ∃ r, (l.put k v).run = some r ∧ (l.putCall r).1 = (o.putCall (o.put k v)).1 ∧
      (l.putCall r).2.Mirrors (o.putCall (o.put k v)).2 := by
  cases hquota : o.quota.take (k.length + v.length) with
  | error e =>
    have hput : o.put k v = .error e := by
      rw [Overlay.put, hquota]
      rfl
    refine ⟨.error e, ?_, ?_⟩
    · rw [LinkedOverlay.put, h.quota_eq, hquota]
      rfl
    · rw [hput]
      exact ⟨rfl, h⟩
  | ok quota =>
    obtain ⟨depth, ls, ns, hstores⟩ := h.stores
    obtain ⟨s', depth', ls', ns', hinsert, hstores'⟩ := hstores.insert o.order h.sized k v
    have hput : o.put k v = .ok { o with
        quota
        tree := o.tree.insert o.order k v
        size := if (o.find? k).isSome then o.size else o.size + 1 } := by
      rw [Overlay.put, hquota]
      rfl
    refine ⟨.ok { l with
      quota
      nodes := s'
      size := if (o.find? k).isSome then l.size else l.size + 1 }, ?_, ?_⟩
    · rw [LinkedOverlay.put, Stateful.run_ofExcept_bind (by rw [h.quota_eq, hquota]),
        Stateful.run_lift_bind (by rw [h.order_eq, hinsert])]
      rfl
    · rw [hput]
      refine ⟨rfl, h.order_eq, rfl, ?_, Tree.insert_sized _ _ _ h.sized, depth', ls', ns', hstores'⟩
      rw [putCall, Overlay.putCall, h.size_eq]

theorem Mirrors.remove [OrientedCmp o.order] (h : l.Mirrors o) (k : Bytes) :
    ∃ l', l.remove k = some ((o.remove k).1, l') ∧ l'.Mirrors (o.remove k).2 := by
  obtain ⟨depth, ls, ns, hstores⟩ := h.stores
  obtain ⟨s', herase, hstores'⟩ := hstores.erase o.order h.sized k
  have hfind : o.find? k = o.tree.find? o.order k := rfl
  rw [← hfind] at herase hstores'
  refine ⟨{ l with nodes := s', size := if (o.find? k).isSome then l.size - 1 else l.size }, ?_, ?_⟩
  · rw [LinkedOverlay.remove, h.order_eq, herase, Overlay.found_remove]
    rfl
  · rw [Overlay.remove]
    cases hk : o.find? k with
    | none =>
      rw [hk] at hstores'
      exact ⟨h.order_eq, h.quota_eq, h.size_eq, h.sized, depth, ls, ns, hstores'⟩
    | some e =>
      rw [hk] at hstores'
      exact ⟨h.order_eq, h.quota_eq, congrArg (· - 1) h.size_eq, Tree.erase_sized _ _ _ h.sized, depth, ls, ns,
        hstores'⟩

theorem Mirrors.reset (h : l.Mirrors o) : l.reset.Mirrors o.reset where
  order_eq := h.order_eq
  quota_eq := congrArg Quota.reset h.quota_eq
  size_eq := rfl
  sized := Tree.sized_empty
  stores := ⟨0, [0], [], Nodes.stores_empty⟩

theorem Mirrors.call [OrientedCmp o.order] (h : l.Mirrors o) (c : OverlayCall) :
    ∃ l', l.call c = some ((o.call c).1, l') ∧ l'.Mirrors (o.call c).2 := by
  have hput (k v : Bytes) : ∃ l', (do return l.putCall (← (l.put k v).run)) =
      some ((o.putCall (o.put k v)).1, l') ∧ l'.Mirrors (o.putCall (o.put k v)).2 := by
    obtain ⟨r, hrun, hanswer, hmirrors⟩ := h.put k v
    refine ⟨(l.putCall r).2, ?_, hmirrors⟩
    rw [hrun, ← hanswer]
    rfl
  cases c with
  | put k v => exact hput k v
  | putParts k parts => exact hput k parts.flatten
  | remove k =>
    obtain ⟨l', hremove, hmirrors⟩ := h.remove k
    refine ⟨l', ?_, hmirrors⟩
    rw [LinkedOverlay.call, hremove]
    rfl
  | reset => exact ⟨l.reset, rfl, h.reset⟩

theorem Mirrors.calls {order : KeyOrder} [TransCmp order] {capacity : Nat} {log : WriteLog}
    (h : l.Mirrors o) (hlogged : o.Logged order capacity log) (cs : List OverlayCall) :
    ∃ l', l.calls cs = some ((o.calls cs).1, l') ∧ l'.Mirrors (o.calls cs).2 := by
  induction cs generalizing l o log with
  | nil => exact ⟨l, rfl, h⟩
  | cons c cs ih =>
    have : OrientedCmp o.order := by
      rw [hlogged.valid.order_eq]
      infer_instance
    obtain ⟨l', hcall, hmirrors⟩ := h.call c
    obtain ⟨l'', hcalls, hmirrors'⟩ := ih hmirrors (hlogged.call c).2
    refine ⟨l'', ?_, hmirrors'⟩
    simp only [LinkedOverlay.calls, hcall, hcalls, Option.bind_eq_bind, Option.bind_some]
    rfl

theorem create_eq_ok {order : KeyOrder} {capacity pageSize : Nat} (hpage : pageSize ≠ 0) :
    create order capacity pageSize = .ok ⟨order, ⟨min capacity Quota.maxCapacity, 0⟩, Nodes.empty, 0⟩ := by
  simp only [create, Quota.create, if_neg hpage]
  rfl

theorem mirrors_create (order : KeyOrder) (quota : Quota) :
    Mirrors ⟨order, quota, Nodes.empty, 0⟩ ⟨order, quota, Tree.empty, 0⟩ :=
  ⟨rfl, rfl, rfl, Tree.sized_empty, 0, [0], [], Nodes.stores_empty⟩

/-- Whatever calls are made, no index leads nowhere and every way down ends. The answers are those of an
overlay without indexes, and the nodes are those of one search tree with bounded nodes, whose leaves are
linked from left to right and hold what that overlay's do. -/
theorem calls_keep_shape (order : KeyOrder) [TransCmp order] (capacity pageSize : Nat) (hpage : pageSize ≠ 0) :
    ∃ l₀ o₀, create order capacity pageSize = .ok l₀ ∧ Overlay.create order capacity pageSize = .ok o₀ ∧
      ∀ cs : List OverlayCall, ∃ l, l₀.calls cs = some ((o₀.calls cs).1, l) ∧
        l.nodes.Shaped order (o₀.calls cs).2.tree.leaves := by
  have hcreate : Overlay.create order capacity pageSize = .ok _ := Overlay.create_eq_ok hpage
  refine ⟨_, _, create_eq_ok hpage, hcreate, fun cs => ?_⟩
  have hlogged := Overlay.logged_create hcreate
  obtain ⟨l, hcalls, hmirrors⟩ := (mirrors_create order ⟨min capacity Quota.maxCapacity, 0⟩).calls hlogged cs
  obtain ⟨depth, ls, ns, hstores⟩ := hmirrors.stores
  exact ⟨l, hcalls, hstores.shaped (hlogged.calls cs).2.valid.within hmirrors.sized⟩

theorem calls_keep_shape_descending :
    let descending : List OverlayCall := (List.range 50).map fun i => .put [UInt8.ofNat (100 - i)] [7]
    let emptying : List OverlayCall := (List.range 17).map fun i => .remove [UInt8.ofNat (84 + i)]
    ∃ l₀ l answers rows, create KeyOrder.lexicographic 1000 100 = .ok l₀ ∧
      l₀.calls (descending ++ emptying) = some (answers, l) ∧ l.size = 33 ∧ l.nodes.root = .inner 0 ∧
      l.nodes.inners = [⟨[[67], [84]], [.leaf 0, .leaf 2, .leaf 1]⟩] ∧
      l.nodes.leaves.map (fun leaf => leaf.entries.length) = [16, 0, 17] ∧
      l.nodes.leaves.map LeafNode.next = [some 2, none, some 1] ∧
      l.nodes.Shaped KeyOrder.lexicographic rows := by
  intro descending emptying
  obtain ⟨l₀, o₀, hcreate, -, hcalls⟩ :=
    calls_keep_shape .lexicographic 1000 100 (by decide)
  obtain ⟨l, hl, hshaped⟩ := hcalls (descending ++ emptying)
  cases hcreate
  have hrun : (LinkedOverlay.calls ⟨.lexicographic, ⟨min 1000 Quota.maxCapacity, 0⟩, Nodes.empty, 0⟩
      (descending ++ emptying)).any (fun r => r.2.size = 33 ∧ r.2.nodes.root = .inner 0 ∧
        r.2.nodes.inners = [⟨[[67], [84]], [.leaf 0, .leaf 2, .leaf 1]⟩] ∧
        r.2.nodes.leaves.map (fun leaf => leaf.entries.length) = [16, 0, 17] ∧
        r.2.nodes.leaves.map LeafNode.next = [some 2, none, some 1]) = true := by decide +kernel
  rw [hl, Option.any_some, decide_eq_true_iff] at hrun
  obtain ⟨hsize, hroot, hinners, hlengths, hlinks⟩ := hrun
  exact ⟨_, l, _, _, rfl, hl, hsize, hroot, hinners, hlengths, hlinks, hshaped⟩

end LinkedOverlay

end ObjectGraph
