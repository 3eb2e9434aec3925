import ObjectGraph.Overlay.Tree
import ObjectGraph.Proofs.KeyOrder
import ObjectGraph.Proofs.Ordered.Dictionary

namespace ObjectGraph

open Dictionary (Ascending)
open Std (TransCmp OrientedCmp ReflCmp)

mutual

def Tree.Within (order : KeyOrder) : Option Bytes → Option Bytes → Tree → Prop
  | lo, hi, .leaf es => Ascending order es ∧ ∀ e ∈ es, order.AtLeast lo e.1 ∧ order.Below hi e.1
  | lo, hi, .node cs => cs.Within order lo hi

def Children.Within (order : KeyOrder) : Option Bytes → Option Bytes → Children → Prop
  | lo, hi, .last t => t.Within order lo hi
  | lo, hi, .cons t s rest =>
    order.Above lo s ∧ order.Below hi s ∧ t.Within order lo (some s) ∧ rest.Within order (some s) hi

end

def Growth.Within (order : KeyOrder) (lo hi : Option Bytes) : Growth → Prop
  | .whole t => t.Within order lo hi
  | .split l s r =>
    order.Above lo s ∧ order.Below hi s ∧ l.Within order lo (some s) ∧ r.Within order (some s) hi

def Children.entries (cs : Children) : List Entry := cs.leaves.flatten

def Growth.entries : Growth → List Entry
  | .whole t => t.entries
  | .split l _ r => l.entries ++ r.entries

@[simp] theorem Tree.entries_leaf (es : List Entry) : (Tree.leaf es).entries = es := by
  simp [Tree.entries, Tree.leaves]

@[simp] theorem Tree.entries_node (cs : Children) : (Tree.node cs).entries = cs.entries := by
  simp [Tree.entries, Tree.leaves, Children.entries]

@[simp] theorem Children.entries_last (t : Tree) : (Children.last t).entries = t.entries := by
  simp [Tree.entries, Children.leaves, Children.entries]

@[simp] theorem Children.entries_cons (t : Tree) (s : Bytes) (rest : Children) :
    (Children.cons t s rest).entries = t.entries ++ rest.entries := by
  simp [Tree.entries, Children.leaves, Children.entries]

variable {order : KeyOrder}

mutual

theorem Tree.Within.bounds [TransCmp order] {lo hi : Option Bytes} :
    ∀ (t : Tree), t.Within order lo hi →
    ∀ e ∈ t.entries, order.AtLeast lo e.1 ∧ order.Below hi e.1
  | .leaf es, h => by simpa using h.2
  | .node cs, h => by simpa using Children.Within.bounds cs h

theorem Children.Within.bounds [TransCmp order] {lo hi : Option Bytes} :
    ∀ (cs : Children), cs.Within order lo hi →
    ∀ e ∈ cs.entries, order.AtLeast lo e.1 ∧ order.Below hi e.1
  | .last t, h => by simpa using Tree.Within.bounds t h
  | .cons t s rest, ⟨hlo, hhi, ht, hrest⟩ => by
    intro e he
    rcases List.mem_append.mp (Children.entries_cons .. ▸ he) with he | he
    · have hb := Tree.Within.bounds t ht e he
      exact ⟨hb.1, hhi.trans (KeyOrder.below_some.mp hb.2)⟩
    · have hb := Children.Within.bounds rest hrest e he
      exact ⟨hlo.atLeast (KeyOrder.atLeast_some.mp hb.1), hb.2⟩

end

theorem Children.Within.lt_of_mem [TransCmp order] {lo hi : Option Bytes} {t : Tree} {s : Bytes}
    {rest : Children} (h : (Children.cons t s rest).Within order lo hi) :
    ∀ a ∈ t.entries, ∀ b ∈ rest.entries, order a.1 b.1 = .lt := by
  obtain ⟨-, -, ht, hrest⟩ := h
  intro a ha b hb
  exact TransCmp.lt_of_lt_of_isLE (KeyOrder.below_some.mp (Tree.Within.bounds t ht a ha).2)
    (KeyOrder.atLeast_some.mp (Children.Within.bounds rest hrest b hb).1)

theorem Children.Within.rest_above [TransCmp order] {lo hi : Option Bytes} {t : Tree} {s k : Bytes}
    {rest : Children} (h : (Children.cons t s rest).Within order lo hi) (hk : order s k = .gt) :
    ∀ e ∈ rest.entries, order k e.1 = .lt := by
  intro e he
  exact TransCmp.lt_of_lt_of_isLE (OrientedCmp.lt_of_gt hk)
    (KeyOrder.atLeast_some.mp (Children.Within.bounds rest h.2.2.2 e he).1)

theorem Children.Within.child_below [TransCmp order] {lo hi : Option Bytes} {t : Tree} {s k : Bytes}
    {rest : Children} (h : (Children.cons t s rest).Within order lo hi) (hk : order s k ≠ .gt) :
    ∀ e ∈ t.entries, order k e.1 = .gt := by
  intro e he
  exact OrientedCmp.gt_of_lt (TransCmp.lt_of_lt_of_isLE
    (KeyOrder.below_some.mp (Tree.Within.bounds t h.2.2.1 e he).2) (Ordering.isLE_iff_ne_gt.mpr hk))

mutual

theorem Tree.Within.ascending [TransCmp order] {lo hi : Option Bytes} :
    ∀ (t : Tree), t.Within order lo hi → Ascending order t.entries
  | .leaf es, h => by simpa using h.1
  | .node cs, h => by simpa using Children.Within.ascending cs h

theorem Children.Within.ascending [TransCmp order] {lo hi : Option Bytes} : ∀ (cs : Children),
    cs.Within order lo hi → Ascending order cs.entries
  | .last t, h => by simpa using Tree.Within.ascending t h
  | .cons t s rest, h => by
    rw [Children.entries_cons]
    exact (Tree.Within.ascending t h.2.2.1).append (Children.Within.ascending rest h.2.2.2) h.lt_of_mem

end

mutual

theorem Tree.find?_eq [TransCmp order] {lo hi : Option Bytes} (k : Bytes) :
    ∀ (t : Tree), t.Within order lo hi →
    t.find? order k = Dictionary.find? order k t.entries
  | .leaf es, _ => by simp [Tree.find?]
  | .node cs, h => by simpa [Tree.find?] using Children.find?_eq k cs h

theorem Children.find?_eq [TransCmp order] {lo hi : Option Bytes} (k : Bytes) : ∀ (cs : Children),
    cs.Within order lo hi → cs.find? order k = Dictionary.find? order k cs.entries
  | .last t, h => by simpa [Children.find?] using Tree.find?_eq k t h
  | .cons t s rest, h => by
    rw [Children.find?, Children.entries_cons]
    split
    next hk => rw [Dictionary.find?_append_left (h.rest_above hk), Tree.find?_eq k t h.2.2.1]
    next hk => rw [Dictionary.find?_append_right (h.child_below hk), Children.find?_eq k rest h.2.2.2]

end

mutual

theorem Tree.erase_spec [TransCmp order] {lo hi : Option Bytes} (k : Bytes) :
    ∀ (t : Tree), t.Within order lo hi →
    (t.erase order k).entries = Dictionary.erase order k t.entries ∧
      (t.erase order k).Within order lo hi
  | .leaf es, h => by
    simp only [Tree.erase, Tree.entries_leaf, true_and]
    exact ⟨h.1.erase k, fun e he => h.2 e ((Dictionary.erase_sublist k es).subset he)⟩
  | .node cs, h => by simpa [Tree.erase, Tree.Within] using Children.erase_spec k cs h

theorem Children.erase_spec [TransCmp order] {lo hi : Option Bytes} (k : Bytes) : ∀ (cs : Children),
    cs.Within order lo hi → (cs.erase order k).entries = Dictionary.erase order k cs.entries ∧
      (cs.erase order k).Within order lo hi
  | .last t, h => by simpa [Children.erase, Children.Within] using Tree.erase_spec k t h
  | .cons t s rest, h => by
    have ⟨hlo, hhi, ht, hrest⟩ := h
    rw [Children.erase, Children.entries_cons]
    split
    next hk =>
      obtain ⟨he, hw⟩ := Tree.erase_spec k t ht
      rw [Dictionary.erase_append_left (h.rest_above hk), Children.entries_cons, he]
      exact ⟨rfl, hlo, hhi, hw, hrest⟩
    next hk =>
      obtain ⟨he, hw⟩ := Children.erase_spec k rest hrest
      rw [Dictionary.erase_append_right (h.child_below hk), Children.entries_cons, he]
      exact ⟨rfl, hlo, hhi, ht, hw⟩

end

theorem Growth.ofEntries_spec [TransCmp order] {lo hi : Option Bytes} {es : List Entry}
    (hes : Ascending order es) (hb : ∀ e ∈ es, order.AtLeast lo e.1 ∧ order.Below hi e.1) :
    (Growth.ofEntries es).entries = es ∧ (Growth.ofEntries es).Within order lo hi := by
  rw [Growth.ofEntries]
  split
  · exact ⟨Tree.entries_leaf es, hes, hb⟩
  next hlong =>
    have hjoin := List.take_append_drop (es.length / 2) es
    cases hr : es.drop (es.length / 2) with
    | nil => exact ⟨Tree.entries_leaf es, hes, hb⟩
    | cons e right =>
      rw [hr] at hjoin
      have hparts := List.pairwise_append.mp (hjoin ▸ hes)
      have hmem (a : Entry) : a ∈ es ↔ a ∈ es.take (es.length / 2) ∨ a ∈ e :: right := by
        rw [← List.mem_append, hjoin]
      -- the left half is not empty, so the separator lies strictly above the lower bound
      obtain ⟨a, ha⟩ : ∃ a, a ∈ es.take (es.length / 2) := by
        apply List.exists_mem_of_ne_nil
        simp only [ne_eq, List.take_eq_nil_iff, not_or]
        simp only [maxKeys] at hlong
        refine ⟨by omega, ?_⟩
        rintro rfl
        simp at hlong
      have he := (hb e ((hmem e).mpr (.inr List.mem_cons_self))).2
      refine ⟨by simpa [Growth.entries] using hjoin,
        (hb a ((hmem a).mpr (.inl ha))).1.above (hparts.2.2 a ha e List.mem_cons_self), he,
        ⟨hparts.1, fun b h => ⟨(hb b ((hmem b).mpr (.inl h))).1, ?_⟩⟩,
        ⟨hparts.2.1, fun b h => ⟨?_, (hb b ((hmem b).mpr (.inr h))).2⟩⟩⟩
      · exact KeyOrder.below_some.mpr (hparts.2.2 b h e List.mem_cons_self)
      · rw [KeyOrder.atLeast_some]
        rcases List.mem_cons.mp h with rfl | h
        · exact ReflCmp.isLE_rfl
        · exact Ordering.isLE_of_eq_lt (Ascending.head_lt hparts.2.1 h)

theorem Children.splitAt?_spec [TransCmp order] {lo hi : Option Bytes} {n : Nat}
    {cs left right : Children} {s : Bytes} (h : cs.splitAt? n = some (left, s, right))
    (hcs : cs.Within order lo hi) :
    left.entries ++ right.entries = cs.entries ∧ order.Above lo s ∧ order.Below hi s ∧
      left.Within order lo (some s) ∧ right.Within order (some s) hi := by
  induction n generalizing cs left lo with
  | zero =>
    cases cs with
    | last t => simp [Children.splitAt?] at h
    | cons t m rest =>
      simp only [Children.splitAt?, Option.some.injEq, Prod.mk.injEq] at h
      obtain ⟨rfl, rfl, rfl⟩ := h
      exact ⟨by simp, hcs⟩
  | succ n ih =>
    cases cs with
    | last t => simp [Children.splitAt?] at h
    | cons t m rest =>
      simp only [Children.splitAt?, Option.map_eq_some_iff, Prod.mk.injEq] at h
      obtain ⟨⟨l, s', r⟩, hrest, rfl, rfl, rfl⟩ := h
      obtain ⟨hlo, hhi, ht, hw⟩ := hcs
      obtain ⟨hentries, habove, hbelow, hl, hr⟩ := ih hrest hw
      have hms := KeyOrder.above_some.mp habove
      exact ⟨by simp [hentries], hlo.trans hms, hbelow, ⟨hlo, KeyOrder.below_some.mpr hms, ht, hl⟩, hr⟩

theorem Growth.ofChildren_spec [TransCmp order] {lo hi : Option Bytes} {cs : Children}
    (h : cs.Within order lo hi) :
    (Growth.ofChildren cs).entries = cs.entries ∧ (Growth.ofChildren cs).Within order lo hi := by
  rw [Growth.ofChildren]
  split
  · exact ⟨Tree.entries_node cs, h⟩
  · split
    · exact ⟨Tree.entries_node cs, h⟩
    next hs =>
      obtain ⟨hentries, hw⟩ := Children.splitAt?_spec hs h
      exact ⟨by simpa [Growth.entries] using hentries, hw⟩

theorem Growth.asLast_spec {lo hi : Option Bytes} {g : Growth} (h : g.Within order lo hi) :
    g.asLast.entries = g.entries ∧ g.asLast.Within order lo hi := by
  cases g with
  | whole t => exact ⟨Children.entries_last t, h⟩
  | split l s r => exact ⟨by simp [Growth.asLast, Growth.entries], h⟩

theorem Growth.before_spec [TransCmp order] {lo hi : Option Bytes} {g : Growth} {s : Bytes}
    {rest : Children} (hg : g.Within order lo (some s)) (hlo : order.Above lo s)
    (hhi : order.Below hi s) (hrest : rest.Within order (some s) hi) :
    (g.before s rest).entries = g.entries ++ rest.entries ∧
      (g.before s rest).Within order lo hi := by
  cases g with
  | whole t => exact ⟨Children.entries_cons t s rest, hlo, hhi, hg, hrest⟩
  | split l m r =>
    obtain ⟨hm, hms, hl, hr⟩ := hg
    have hms' := KeyOrder.below_some.mp hms
    exact ⟨by simp [Growth.before, Growth.entries], hm, hhi.trans hms', hl,
      KeyOrder.above_some.mpr hms', hhi, hr, hrest⟩

theorem Growth.tree_spec {g : Growth} (h : g.Within order none none) :
    g.tree.entries = g.entries ∧ g.tree.Within order none none := by
  cases g with
  | whole t => exact ⟨rfl, h⟩
  | split l s r => exact ⟨by simp [Growth.tree, Growth.entries], h⟩

mutual

theorem Tree.grow_spec [TransCmp order] {lo hi : Option Bytes} (k v : Bytes)
    (hlo : order.AtLeast lo k) (hhi : order.Below hi k) : ∀ (t : Tree), t.Within order lo hi →
    (t.grow order k v).entries = Dictionary.insert order k v t.entries ∧
      (t.grow order k v).Within order lo hi
  | .leaf es, h => by
    rw [Tree.grow, Tree.entries_leaf]
    refine Growth.ofEntries_spec (h.1.insert k v) fun e he => ?_
    rcases (Dictionary.mem_insert h.1).mp he with rfl | ⟨he, -⟩
    · exact ⟨hlo, hhi⟩
    · exact h.2 e he
  | .node cs, h => by
    rw [Tree.grow, Tree.entries_node]
    obtain ⟨he, hw⟩ := Children.grow_spec k v hlo hhi cs h
    exact he ▸ Growth.ofChildren_spec hw

theorem Children.grow_spec [TransCmp order] {lo hi : Option Bytes} (k v : Bytes)
    (hlo : order.AtLeast lo k) (hhi : order.Below hi k) : ∀ (cs : Children), cs.Within order lo hi →
    (cs.grow order k v).entries = Dictionary.insert order k v cs.entries ∧
      (cs.grow order k v).Within order lo hi
  | .last t, h => by
    rw [Children.grow, Children.entries_last]
    obtain ⟨he, hw⟩ := Tree.grow_spec k v hlo hhi t h
    exact he ▸ Growth.asLast_spec hw
  | .cons t s rest, h => by
    have ⟨hs, hs', ht, hrest⟩ := h
    rw [Children.grow, Children.entries_cons]
    split
    next hk =>
      obtain ⟨he, hw⟩ :=
        Tree.grow_spec k v hlo (KeyOrder.below_some.mpr (OrientedCmp.lt_of_gt hk)) t ht
      rw [Dictionary.insert_append_left (h.rest_above hk), ← he]
      exact Growth.before_spec hw hs hs' hrest
    next hk =>
      obtain ⟨he, hw⟩ := Children.grow_spec k v
        (KeyOrder.atLeast_some.mpr (Ordering.isLE_iff_ne_gt.mpr hk)) hhi rest hrest
      rw [Dictionary.insert_append_right (h.child_below hk), Children.entries_cons, he]
      exact ⟨rfl, hs, hs', ht, hw⟩

end

theorem Tree.insert_spec [TransCmp order] (k v : Bytes) {t : Tree} (h : t.Within order none none) :
    (t.insert order k v).entries = Dictionary.insert order k v t.entries ∧
      (t.insert order k v).Within order none none := by
  obtain ⟨he, hw⟩ := Tree.grow_spec k v (by simp [KeyOrder.AtLeast]) (by simp [KeyOrder.Below]) t h
  exact he ▸ Growth.tree_spec hw

def startingWith (order : KeyOrder) (k : Bytes) : List (List Entry) → List Entry
  | [] => []
  | es :: later => Dictionary.startingAt order k es ++ later.flatten

theorem startingWith_append (k : Bytes) {leaves : List (List Entry)} (h : leaves ≠ [])
    (later : List (List Entry)) :
    startingWith order k (leaves ++ later) = startingWith order k leaves ++ later.flatten := by
  cases leaves with
  | nil => exact absurd rfl h
  | cons es leaves => simp [startingWith]

mutual

theorem Tree.leavesFrom_ne_nil (k : Bytes) : ∀ t : Tree, t.leavesFrom order k ≠ []
  | .leaf es => by simp [Tree.leavesFrom]
  | .node cs => by simpa [Tree.leavesFrom] using Children.leavesFrom_ne_nil k cs

theorem Children.leavesFrom_ne_nil (k : Bytes) : ∀ cs : Children, cs.leavesFrom order k ≠ []
  | .last t => by simpa [Children.leavesFrom] using Tree.leavesFrom_ne_nil k t
  | .cons t s rest => by
    rw [Children.leavesFrom]
    split
    · simpa using fun h => absurd h (Tree.leavesFrom_ne_nil k t)
    · exact Children.leavesFrom_ne_nil k rest

end

mutual

theorem Tree.leavesFrom_spec [TransCmp order] {lo hi : Option Bytes} (k : Bytes) : ∀ (t : Tree),
    t.Within order lo hi →
    startingWith order k (t.leavesFrom order k) = Dictionary.startingAt order k t.entries
  | .leaf es, _ => by simp [Tree.leavesFrom, startingWith]
  | .node cs, h => by simpa [Tree.leavesFrom] using Children.leavesFrom_spec k cs h

theorem Children.leavesFrom_spec [TransCmp order] {lo hi : Option Bytes} (k : Bytes) :
    ∀ (cs : Children), cs.Within order lo hi →
    startingWith order k (cs.leavesFrom order k) = Dictionary.startingAt order k cs.entries
  | .last t, h => by simpa [Children.leavesFrom] using Tree.leavesFrom_spec k t h
  | .cons t s rest, h => by
    rw [Children.leavesFrom, Children.entries_cons]
    split
    next hk =>
      rw [startingWith_append k (Tree.leavesFrom_ne_nil k t), Tree.leavesFrom_spec k t h.2.2.1,
        Dictionary.startingAt_append_left (h.rest_above hk), Children.entries]
    next hk =>
      rw [Dictionary.startingAt_append_right (h.child_below hk), Children.leavesFrom_spec k rest h.2.2.2]

end

end ObjectGraph
