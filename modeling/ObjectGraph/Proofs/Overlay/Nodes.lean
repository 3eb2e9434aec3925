import ObjectGraph.Overlay.Nodes
import ObjectGraph.Proofs.Overlay.Sizes

namespace ObjectGraph

open Std (OrientedCmp)

mutual

/-- A tree stands in the nodes at a reference, with all leaves at one depth. These are the indexes of its
leaves from left to right, and of its inner nodes. -/
def Tree.HeldAt (s : Nodes) : Tree → NodeRef → Nat → List Nat → List Nat → Prop
  | .leaf es, r, depth, ls, ns =>
    ∃ i, r = .leaf i ∧ depth = 0 ∧ ls = [i] ∧ ns = [] ∧ s.leaves[i]?.map LeafNode.entries = some es
  | .node cs, r, depth, ls, ns =>
    ∃ i rs d ns', r = .inner i ∧ depth = d + 1 ∧ ns = i :: ns' ∧
      s.inners[i]? = some ⟨cs.separators, rs⟩ ∧ cs.HeldAt s rs d ls ns'

def Children.HeldAt (s : Nodes) : Children → List NodeRef → Nat → List Nat → List Nat → Prop
  | .last t, rs, depth, ls, ns => ∃ r, rs = [r] ∧ t.HeldAt s r depth ls ns
  | .cons t _ rest, rs, depth, ls, ns =>
    ∃ r rs' ls₁ ls₂ ns₁ ns₂, rs = r :: rs' ∧ ls = ls₁ ++ ls₂ ∧ ns = ns₁ ++ ns₂ ∧
      t.HeldAt s r depth ls₁ ns₁ ∧ rest.HeldAt s rs' depth ls₂ ns₂

end

def Growth.HeldAt (s : Nodes) : Growth → NodeRef → Option Sprout → Nat → List Nat → List Nat → Prop
  | .whole t, r, sprout, depth, ls, ns => sprout = none ∧ t.HeldAt s r depth ls ns
  | .split l sep t, r, sprout, depth, ls, ns =>
    ∃ r' ls₁ ls₂ ns₁ ns₂, sprout = some ⟨sep, r'⟩ ∧ ls = ls₁ ++ ls₂ ∧ ns = ns₁ ++ ns₂ ∧
      l.HeldAt s r depth ls₁ ns₁ ∧ t.HeldAt s r' depth ls₂ ns₂

variable {s s' : Nodes} {r : NodeRef} {rs : List NodeRef} {depth : Nat} {ls ns : List Nat}

mutual

theorem Tree.HeldAt.bounds : ∀ {t : Tree} {r : NodeRef} {depth : Nat} {ls ns : List Nat},
    t.HeldAt s r depth ls ns →
    (∀ i ∈ ls, i < s.leaves.length) ∧ (∀ i ∈ ns, i < s.inners.length) ∧ depth ≤ ns.length
  | .leaf es, r, depth, ls, ns, ⟨i, _, hdepth, hls, hns, hleaf⟩ => by
    subst hdepth hls hns
    obtain ⟨leaf, hleaf, -⟩ := Option.map_eq_some_iff.mp hleaf
    refine ⟨fun j hj => ?_, fun j hj => absurd hj List.not_mem_nil, Nat.le_refl _⟩
    rw [List.mem_singleton.mp hj]
    exact (List.getElem?_eq_some_iff.mp hleaf).1
  | .node cs, r, depth, ls, ns, ⟨i, rs, d, ns', _, hdepth, hns, hnode, hcs⟩ => by
    subst hdepth hns
    obtain ⟨hl, hn, hle⟩ := Children.HeldAt.bounds hcs
    refine ⟨hl, fun j hj => ?_, Nat.succ_le_succ hle⟩
    rcases List.mem_cons.mp hj with rfl | hj
    · exact (List.getElem?_eq_some_iff.mp hnode).1
    · exact hn j hj

theorem Children.HeldAt.bounds : ∀ {cs : Children} {rs : List NodeRef} {depth : Nat} {ls ns : List Nat},
    cs.HeldAt s rs depth ls ns →
    (∀ i ∈ ls, i < s.leaves.length) ∧ (∀ i ∈ ns, i < s.inners.length) ∧ depth ≤ ns.length
  | .last t, rs, depth, ls, ns, ⟨r, _, ht⟩ => Tree.HeldAt.bounds ht
  | .cons t sep rest, rs, depth, ls, ns, ⟨r, rs', ls₁, ls₂, ns₁, ns₂, _, hls, hns, ht, hrest⟩ => by
    subst hls hns
    obtain ⟨hl, hn, hle⟩ := Tree.HeldAt.bounds ht
    obtain ⟨hl', hn', -⟩ := Children.HeldAt.bounds hrest
    refine ⟨fun j hj => (List.mem_append.mp hj).elim (hl j) (hl' j),
      fun j hj => (List.mem_append.mp hj).elim (hn j) (hn' j), ?_⟩
    rw [List.length_append]
    omega

end

mutual

theorem Tree.HeldAt.congr : ∀ {t : Tree} {r : NodeRef} {depth : Nat} {ls ns : List Nat},
    t.HeldAt s r depth ls ns →
    (∀ i ∈ ls, s'.leaves[i]?.map LeafNode.entries = s.leaves[i]?.map LeafNode.entries) →
    (∀ i ∈ ns, s'.inners[i]? = s.inners[i]?) → t.HeldAt s' r depth ls ns
  | .leaf es, r, depth, ls, ns, ⟨i, hr, hdepth, hls, hns, hleaf⟩, hl, _ => by
    subst hls
    exact ⟨i, hr, hdepth, rfl, hns, (hl i List.mem_cons_self).trans hleaf⟩
  | .node cs, r, depth, ls, ns, ⟨i, rs, d, ns', hr, hdepth, hns, hnode, hcs⟩, hl, hn => by
    subst hns
    exact ⟨i, rs, d, ns', hr, hdepth, rfl, (hn i List.mem_cons_self).trans hnode,
      Children.HeldAt.congr hcs hl fun j hj => hn j (List.mem_cons_of_mem _ hj)⟩

theorem Children.HeldAt.congr : ∀ {cs : Children} {rs : List NodeRef} {depth : Nat} {ls ns : List Nat},
    cs.HeldAt s rs depth ls ns →
    (∀ i ∈ ls, s'.leaves[i]?.map LeafNode.entries = s.leaves[i]?.map LeafNode.entries) →
    (∀ i ∈ ns, s'.inners[i]? = s.inners[i]?) → cs.HeldAt s' rs depth ls ns
  | .last t, rs, depth, ls, ns, ⟨r, hrs, ht⟩, hl, hn => ⟨r, hrs, Tree.HeldAt.congr ht hl hn⟩
  | .cons t sep rest, rs, depth, ls, ns, ⟨r, rs', ls₁, ls₂, ns₁, ns₂, hrs, hls, hns, ht, hrest⟩, hl, hn => by
    subst hls hns
    exact ⟨r, rs', ls₁, ls₂, ns₁, ns₂, hrs, rfl, rfl,
      Tree.HeldAt.congr ht (fun j hj => hl j (List.mem_append_left _ hj))
        (fun j hj => hn j (List.mem_append_left _ hj)),
      Children.HeldAt.congr hrest (fun j hj => hl j (List.mem_append_right _ hj))
        (fun j hj => hn j (List.mem_append_right _ hj))⟩

end

mutual

theorem Tree.HeldAt.leaves_eq : ∀ {t : Tree} {r : NodeRef} {depth : Nat} {ls ns : List Nat},
    t.HeldAt s r depth ls ns → ls.map (fun i => s.leaves[i]?.map LeafNode.entries) = t.leaves.map some
  | .leaf es, r, depth, ls, ns, ⟨i, _, _, hls, _, hleaf⟩ => by
    subst hls
    exact congrArg (fun leaf => [leaf]) hleaf
  | .node cs, r, depth, ls, ns, ⟨i, rs, d, ns', _, _, _, _, hcs⟩ => Children.HeldAt.leaves_eq hcs

theorem Children.HeldAt.leaves_eq : ∀ {cs : Children} {rs : List NodeRef} {depth : Nat} {ls ns : List Nat},
    cs.HeldAt s rs depth ls ns → ls.map (fun i => s.leaves[i]?.map LeafNode.entries) = cs.leaves.map some
  | .last t, rs, depth, ls, ns, ⟨r, _, ht⟩ => Tree.HeldAt.leaves_eq ht
  | .cons t sep rest, rs, depth, ls, ns, ⟨r, rs', ls₁, ls₂, ns₁, ns₂, _, hls, _, ht, hrest⟩ => by
    subst hls
    rw [List.map_append, Tree.HeldAt.leaves_eq ht, Children.HeldAt.leaves_eq hrest, ← List.map_append]
    rfl

end

theorem Children.HeldAt.length_eq : ∀ {cs : Children} {rs : List NodeRef} {ls ns : List Nat},
    cs.HeldAt s rs depth ls ns → rs.length = cs.separators.length + 1
  | .last t, rs, ls, ns, ⟨r, hrs, _⟩ => by rw [hrs]; rfl
  | .cons t sep rest, rs, ls, ns, ⟨r, rs', ls₁, ls₂, ns₁, ns₂, hrs, _, _, _, hrest⟩ => by
    rw [hrs, List.length_cons, Children.HeldAt.length_eq hrest]
    rfl

theorem Children.HeldAt.splitAt? {cs left right : Children} {n : Nat} {sep : Bytes}
    (hsplit : cs.splitAt? n = some (left, sep, right)) (h : cs.HeldAt s rs depth ls ns) :
    ∃ ls₁ ls₂ ns₁ ns₂, ls = ls₁ ++ ls₂ ∧ ns = ns₁ ++ ns₂ ∧ left.HeldAt s (rs.take (n + 1)) depth ls₁ ns₁ ∧
      right.HeldAt s (rs.drop (n + 1)) depth ls₂ ns₂ := by
  induction n generalizing cs left rs ls ns with
  | zero =>
    cases cs with
    | last t => contradiction
    | cons t m rest =>
      cases hsplit
      obtain ⟨r, rs', ls₁, ls₂, ns₁, ns₂, rfl, rfl, rfl, ht, hrest⟩ := h
      exact ⟨ls₁, ls₂, ns₁, ns₂, rfl, rfl, ⟨r, rfl, ht⟩, hrest⟩
  | succ n ih =>
    cases cs with
    | last t => contradiction
    | cons t m rest =>
      obtain ⟨⟨l, m', r'⟩, hsplit', heq⟩ := Option.map_eq_some_iff.mp hsplit
      cases heq
      obtain ⟨r, rs', ls₁, ls₂, ns₁, ns₂, rfl, rfl, rfl, ht, hrest⟩ := h
      obtain ⟨ls₃, ls₄, ns₃, ns₄, rfl, rfl, hl, hr⟩ := ih hsplit' hrest
      exact ⟨ls₁ ++ ls₃, ls₄, ns₁ ++ ns₃, ns₄, (List.append_assoc ..).symm, (List.append_assoc ..).symm,
        ⟨r, rs'.take (n + 1), ls₁, ls₃, ns₁, ns₃, rfl, rfl, rfl, ht, hl⟩, hr⟩

def splice (l : Nat) (pieces ls : List Nat) : List Nat := ls.flatMap fun j => if j = l then pieces else [j]

section Splice

variable {l : Nat} {pieces : List Nat}

theorem splice_append (ls₁ ls₂ : List Nat) :
    splice l pieces (ls₁ ++ ls₂) = splice l pieces ls₁ ++ splice l pieces ls₂ := List.flatMap_append

theorem splice_singleton : splice l pieces [l] = pieces := by simp [splice]

theorem splice_self (l : Nat) (ls : List Nat) : splice l [l] ls = ls := by
  have hpiece : (fun j => if j = l then [l] else [j]) = fun j : Nat => [j] := by
    funext j
    split
    next hj => rw [hj]
    next => rfl
  rw [splice, hpiece, List.flatMap_singleton']

theorem splice_of_not_mem (h : l ∉ ls) : splice l pieces ls = ls := by
  induction ls with
  | nil => rfl
  | cons j ls ih =>
    obtain ⟨hj, hls⟩ := not_or.mp (fun hmem => h (List.mem_cons.mpr hmem))
    change (if j = l then pieces else [j]) ++ splice l pieces ls = _
    rw [if_neg (Ne.symm hj), ih hls]
    rfl

end Splice

namespace Nodes

variable {order : KeyOrder} {k v : Bytes}

theorem slot_spec (order : KeyOrder) [OrientedCmp order] (k v : Bytes) (es : List Entry) :
    ∃ i, slot order k es = ((Dictionary.find? order k es).isSome, i) ∧
      if (Dictionary.find? order k es).isSome then
        es.set i (k, v) = Dictionary.insert order k v es ∧ es.eraseIdx i = Dictionary.erase order k es
      else insertAt? i (k, v) es = some (Dictionary.insert order k v es) := by
  induction es with
  | nil => exact ⟨0, rfl, rfl⟩
  | cons e es ih =>
    cases hk : order k e.1 with
    | lt =>
      have he : order e.1 k ≠ .lt := fun h => by rw [OrientedCmp.gt_of_lt h] at hk; contradiction
      have he' : order e.1 k ≠ .eq := fun h => by rw [OrientedCmp.eq_symm h] at hk; contradiction
      exact ⟨0, by simp [slot, Dictionary.find?, hk, he, he'],
        by simp [Dictionary.find?, Dictionary.insert, insertAt?, hk]⟩
    | eq =>
      have he : order e.1 k = .eq := OrientedCmp.eq_symm hk
      exact ⟨0, by simp [slot, Dictionary.find?, hk, he],
        by simp [Dictionary.find?, Dictionary.insert, Dictionary.erase, hk]⟩
    | gt =>
      obtain ⟨i, hslot, hput⟩ := ih
      have he : order e.1 k = .lt := OrientedCmp.lt_of_gt hk
      obtain ⟨hfound, hi⟩ := Prod.mk.inj hslot
      refine ⟨i + 1, ?_, ?_⟩
      · simp [slot, Dictionary.find?, hk, he, ← hi, ← hfound]
      · simp only [Dictionary.find?, Dictionary.insert, Dictionary.erase, hk, insertAt?] at hput ⊢
        split at hput
        next hsome =>
          rw [if_pos hsome]
          exact ⟨congrArg (e :: ·) hput.1, congrArg (e :: ·) hput.2⟩
        next hnone =>
          rw [if_neg hnone]
          split at hput
          next hle =>
            rw [if_pos (by simpa using hle), List.insertIdx_succ_cons, Option.some.inj hput]
          next => contradiction

def Follows (s : Nodes) : Option Nat → List Nat → Prop
  | start, [] => start = none
  | start, i :: ls => start = some i ∧ ∃ leaf, s.leaves[i]? = some leaf ∧ s.Follows leaf.next ls

structure Refilled (s : Nodes) (l : Nat) (pieces : List Nat) (s' : Nodes) : Prop where
  inners_eq : s'.inners = s.inners
  root_eq : s'.root = s.root
  others : ∀ j < s.leaves.length, j ≠ l → s'.leaves[j]? = s.leaves[j]?
  links : pieces = [l] ∧ s'.leaves.length = s.leaves.length ∧
        s'.leaves[l]?.map LeafNode.next = s.leaves[l]?.map LeafNode.next ∨
      pieces = [l, s.leaves.length] ∧ s'.leaves.length = s.leaves.length + 1 ∧
        s'.leaves[l]?.map LeafNode.next = some (some s.leaves.length) ∧
        s'.leaves[s.leaves.length]?.map LeafNode.next = s.leaves[l]?.map LeafNode.next

variable {l : Nat} {pieces : List Nat} {start : Option Nat}

theorem Follows.lt_length : ∀ {start : Option Nat} {ls : List Nat}, s.Follows start ls →
    ∀ i ∈ ls, i < s.leaves.length
  | _, i :: ls, ⟨_, leaf, hleaf, hrest⟩, j, hj => by
    rcases List.mem_cons.mp hj with rfl | hj
    · exact (List.getElem?_eq_some_iff.mp hleaf).1
    · exact Follows.lt_length hrest j hj

theorem Follows.congr : ∀ {start : Option Nat} {ls : List Nat}, s.Follows start ls →
    (∀ i ∈ ls, s'.leaves[i]? = s.leaves[i]?) → s'.Follows start ls
  | _, [], h, _ => h
  | _, _ :: _, ⟨hstart, leaf, hleaf, hrest⟩, hsame =>
    ⟨hstart, leaf, (hsame _ List.mem_cons_self).trans hleaf,
      Follows.congr hrest fun j hj => hsame j (List.mem_cons_of_mem _ hj)⟩

theorem Refilled.follows (h : s.Refilled l pieces s') : ∀ {start : Option Nat} {ls : List Nat},
    ls.Nodup → s.Follows start ls → s'.Follows start (splice l pieces ls)
  | _, [], _, hls => hls
  | start, i :: ls, hnodup, ⟨hstart, leaf, hleaf, hrest⟩ => by
    obtain ⟨hi, hnodup⟩ := List.nodup_cons.mp hnodup
    change s'.Follows start ((if i = l then pieces else [i]) ++ splice l pieces ls)
    split
    next hil =>
      subst hil
      have hkept : s'.Follows leaf.next ls := hrest.congr fun j hj =>
        h.others j (hrest.lt_length j hj) fun heq => hi (heq ▸ hj)
      rw [splice_of_not_mem hi]
      rcases h.links with ⟨rfl, -, hnext⟩ | ⟨rfl, -, hnext, hnext'⟩
      · rw [hleaf] at hnext
        obtain ⟨leaf', hleaf', hsame⟩ := Option.map_eq_some_iff.mp hnext
        exact ⟨hstart, leaf', hleaf', hsame ▸ hkept⟩
      · rw [hleaf] at hnext'
        obtain ⟨leaf', hleaf', hnew⟩ := Option.map_eq_some_iff.mp hnext
        obtain ⟨leaf'', hleaf'', hsame⟩ := Option.map_eq_some_iff.mp hnext'
        exact ⟨hstart, leaf', hleaf', hnew, leaf'', hleaf'', hsame ▸ hkept⟩
    next hil =>
      have hi' := (List.getElem?_eq_some_iff.mp hleaf).1
      exact ⟨hstart, leaf, (h.others i hi' hil).trans hleaf, Refilled.follows h hnodup hrest⟩

theorem Refilled.perm (h : s.Refilled l pieces s') (hl : l ∈ ls)
    (hls : ls.Perm (List.range s.leaves.length)) :
    (splice l pieces ls).Perm (List.range s'.leaves.length) := by
  have hnodup : ls.Nodup := hls.nodup_iff.mpr List.nodup_range
  obtain ⟨ls₁, ls₂, rfl⟩ := List.append_of_mem hl
  obtain ⟨-, h₂, h₁⟩ := List.nodup_append.mp hnodup
  have hl₁ : l ∉ ls₁ := fun hmem => h₁ l hmem l List.mem_cons_self rfl
  have hl₂ : l ∉ ls₂ := (List.nodup_cons.mp h₂).1
  have hsplice : splice l pieces (ls₁ ++ l :: ls₂) = ls₁ ++ (pieces ++ ls₂) := by
    change splice l pieces (ls₁ ++ ([l] ++ ls₂)) = _
    rw [splice_append, splice_append, splice_singleton, splice_of_not_mem hl₁, splice_of_not_mem hl₂]
  rw [hsplice]
  rcases h.links with ⟨rfl, hlength, -⟩ | ⟨rfl, hlength, -⟩
  · rwa [hlength]
  · rw [hlength, List.range_succ]
    refine List.Perm.trans ?_ (hls.append_right [s.leaves.length])
    rw [List.append_assoc]
    exact (List.Perm.cons l List.perm_append_comm).append_left ls₁

section Fill

variable {es : List Entry} {next : Option Nat}

theorem refilled_set (hleaf : s.leaves[l]? = some ⟨es, next⟩) (es' : List Entry) :
    s.Refilled l [l] { s with leaves := s.leaves.set l ⟨es', next⟩ } ∧
      (s.leaves.set l ⟨es', next⟩)[l]? = some ⟨es', next⟩ := by
  have hl := (List.getElem?_eq_some_iff.mp hleaf).1
  have hset : (s.leaves.set l ⟨es', next⟩)[l]? = some ⟨es', next⟩ := List.getElem?_set_self hl
  refine ⟨⟨rfl, rfl, fun j _ hj => List.getElem?_set_ne (Ne.symm hj), .inl ⟨rfl, List.length_set, ?_⟩⟩, hset⟩
  rw [hset, hleaf]
  rfl

theorem refilled_split (hleaf : s.leaves[l]? = some ⟨es, next⟩) (lower upper : List Entry) :
    let leaves := s.leaves.set l ⟨lower, some s.leaves.length⟩ ++ [⟨upper, next⟩]
    s.Refilled l [l, s.leaves.length] { s with leaves } ∧ leaves[l]? = some ⟨lower, some s.leaves.length⟩ ∧
      leaves[s.leaves.length]? = some ⟨upper, next⟩ := by
  intro leaves
  have hl := (List.getElem?_eq_some_iff.mp hleaf).1
  have hold {j : Nat} (hj : j < s.leaves.length) :
      leaves[j]? = (s.leaves.set l ⟨lower, some s.leaves.length⟩)[j]? :=
    List.getElem?_append_left (by rwa [List.length_set])
  have hlower : leaves[l]? = some ⟨lower, some s.leaves.length⟩ := by
    rw [hold hl, List.getElem?_set_self hl]
  have hupper : leaves[s.leaves.length]? = some ⟨upper, next⟩ := by
    rw [List.getElem?_append_right (Nat.le_of_eq List.length_set), List.length_set, Nat.sub_self]
    rfl
  refine ⟨⟨rfl, rfl, fun j hlt hj => ?_, .inr ⟨rfl, ?_, ?_, ?_⟩⟩, hlower, hupper⟩
  · rw [hold hlt, List.getElem?_set_ne (Ne.symm hj)]
  · rw [List.length_append, List.length_set]
    rfl
  · rw [hlower]
    rfl
  · rw [hupper, hleaf]
    rfl

theorem fill_spec (order : KeyOrder) [OrientedCmp order] (k v : Bytes) (hleaf : s.leaves[l]? = some ⟨es, next⟩)
    (hlength : es.length ≤ maxKeys) :
    ∃ s' sprout pieces, s.fill order k v l = some ((Dictionary.find? order k es).isSome, s', sprout) ∧
      (Growth.ofEntries (Dictionary.insert order k v es)).HeldAt s' (.leaf l) sprout 0 pieces [] ∧
      s.Refilled l pieces s' := by
  obtain ⟨i, hslot, hput⟩ := slot_spec order k v es
  have hgrown := @Dictionary.length_insert _ _ order k v es
  generalize Dictionary.insert order k v es = es' at hput hgrown ⊢
  have hwhole (hshort : es'.length ≤ maxKeys) :
      (Growth.ofEntries es').HeldAt { s with leaves := s.leaves.set l ⟨es', next⟩ } (.leaf l) none 0 [l] [] := by
    rw [Growth.ofEntries, if_pos hshort]
    exact ⟨rfl, l, rfl, rfl, rfl, rfl, congrArg _ (refilled_set hleaf es').2⟩
  by_cases hfound : (Dictionary.find? order k es).isSome = true
  · rw [if_pos hfound] at hput hgrown
    refine ⟨_, none, [l], ?_, hwhole (hgrown ▸ hlength), (refilled_set hleaf es').1⟩
    simp [fill, hleaf, hslot, hfound, hput.1]
  · rw [if_neg hfound] at hput
    by_cases hshort : es'.length ≤ maxKeys
    · refine ⟨_, none, [l], ?_, hwhole hshort, (refilled_set hleaf es').1⟩
      simp [fill, hleaf, hslot, hfound, hput, hshort]
    · have hmiddle : es'.length / 2 ≤ es'.length := Nat.div_le_self _ _
      cases hupper : es'.drop (es'.length / 2) with
      | nil =>
        have hempty := List.drop_eq_nil_iff.mp hupper
        have hmax : maxKeys = 32 := rfl
        omega
      | cons first upper =>
        obtain ⟨hrefilled, hlow, hup⟩ := refilled_split hleaf (es'.take (es'.length / 2)) (first :: upper)
        refine ⟨_, some ⟨first.1, .leaf s.leaves.length⟩, _, ?_, ?_, hrefilled⟩
        · simp [fill, hleaf, hslot, hfound, hput, hshort, splitOff?, hmiddle, List.splitAt_eq, hupper]
        · rw [Growth.ofEntries, if_neg hshort, hupper]
          exact ⟨.leaf s.leaves.length, [l], [s.leaves.length], [], [], rfl, rfl, rfl,
            ⟨l, rfl, rfl, rfl, rfl, congrArg _ hlow⟩, ⟨_, rfl, rfl, rfl, rfl, congrArg _ hup⟩⟩

end Fill

structure Regrown (s : Nodes) (ns ns' : List Nat) (s' : Nodes) : Prop where
  leaves_eq : s'.leaves = s.leaves
  root_eq : s'.root = s.root
  others : ∀ j < s.inners.length, j ∉ ns → s'.inners[j]? = s.inners[j]?
  fresh : ∃ m, s'.inners.length = s.inners.length + m ∧ ns'.Perm (ns ++ List.range' s.inners.length m)

section Regrown

variable {s'' : Nodes} {ns' ns'' : List Nat}

theorem Regrown.refl (s : Nodes) (ns : List Nat) : s.Regrown ns ns s :=
  ⟨rfl, rfl, fun _ _ _ => rfl, 0, rfl, by rw [List.range'_zero, List.append_nil]⟩

theorem Regrown.le_length (h : s.Regrown ns ns' s') : s.inners.length ≤ s'.inners.length := by
  obtain ⟨m, hlength, -⟩ := h.fresh
  exact hlength ▸ Nat.le_add_right _ _

theorem Regrown.mem (h : s.Regrown ns ns' s') {j : Nat} (hj : j ∈ ns') : j ∈ ns ∨ s.inners.length ≤ j := by
  obtain ⟨m, -, hperm⟩ := h.fresh
  exact (List.mem_append.mp (hperm.mem_iff.mp hj)).imp id fun hj => (List.mem_range'_1.mp hj).1

theorem Regrown.trans (h : s.Regrown ns ns' s') (h' : s'.Regrown ns' ns'' s'') : s.Regrown ns ns'' s'' := by
  obtain ⟨m, hlength, hperm⟩ := h.fresh
  obtain ⟨m', hlength', hperm'⟩ := h'.fresh
  refine ⟨h'.leaves_eq.trans h.leaves_eq, h'.root_eq.trans h.root_eq, fun j hj hns => ?_, m + m', by omega, ?_⟩
  · have hns' : j ∉ ns' := fun hj' => (h.mem hj').elim hns (Nat.not_le.mpr hj)
    exact (h'.others j (Nat.lt_of_lt_of_le hj h.le_length) hns').trans (h.others j hj hns)
  · have happend := List.range'_append_1 (s := s.inners.length) (m := m) (n := m')
    rw [← happend, ← List.append_assoc, ← hlength]
    exact hperm'.trans (hperm.append_right _)

theorem Regrown.perm (h : s.Regrown ns ns' s') (hperm : ns''.Perm ns') : s.Regrown ns ns'' s' := by
  obtain ⟨m, hlength, hfresh⟩ := h.fresh
  exact ⟨h.leaves_eq, h.root_eq, h.others, m, hlength, hperm.trans hfresh⟩

theorem Regrown.append_left (h : s.Regrown ns ns' s') (before : List Nat) :
    s.Regrown (before ++ ns) (before ++ ns') s' := by
  obtain ⟨m, hlength, hperm⟩ := h.fresh
  refine ⟨h.leaves_eq, h.root_eq, fun j hj hns => ?_, m, hlength, ?_⟩
  · exact h.others j hj fun hj' => hns (List.mem_append_right _ hj')
  · rw [List.append_assoc]
    exact hperm.append_left before

theorem Regrown.append_right (h : s.Regrown ns ns' s') (after : List Nat) :
    s.Regrown (ns ++ after) (ns' ++ after) s' := by
  obtain ⟨m, hlength, hperm⟩ := h.fresh
  refine ⟨h.leaves_eq, h.root_eq, fun j hj hns => ?_, m, hlength, ?_⟩
  · exact h.others j hj fun hj' => hns (List.mem_append_left _ hj')
  · refine (hperm.append_right after).trans ?_
    rw [List.append_assoc, List.append_assoc]
    exact List.perm_append_comm.append_left ns

end Regrown

end Nodes

section Frames

variable {l : Nat} {pieces ns₁ ns₂ : List Nat}

theorem Nodes.Refilled.entries_eq (h : s.Refilled l pieces s') (hls : ∀ i ∈ ls, i < s.leaves.length)
    (hl : l ∉ ls) :
    ∀ i ∈ ls, s'.leaves[i]?.map LeafNode.entries = s.leaves[i]?.map LeafNode.entries :=
  fun i hi => congrArg _ (h.others i (hls i hi) fun heq => hl (heq ▸ hi))

theorem Tree.HeldAt.refill {t : Tree} (h : t.HeldAt s r depth ls ns) (hs : s.Refilled l pieces s') (hl : l ∉ ls) :
    t.HeldAt s' r depth ls ns :=
  h.congr (hs.entries_eq h.bounds.1 hl) fun i _ => by rw [hs.inners_eq]

theorem Children.HeldAt.refill {cs : Children} (h : cs.HeldAt s rs depth ls ns) (hs : s.Refilled l pieces s')
    (hl : l ∉ ls) : cs.HeldAt s' rs depth ls ns :=
  h.congr (hs.entries_eq h.bounds.1 hl) fun i _ => by rw [hs.inners_eq]

theorem Tree.HeldAt.regrow {t : Tree} (h : t.HeldAt s r depth ls ns) (hs : s.Regrown ns₁ ns₂ s')
    (hns : ∀ i ∈ ns, i ∉ ns₁) : t.HeldAt s' r depth ls ns :=
  h.congr (fun i _ => by rw [hs.leaves_eq]) fun i hi => hs.others i (h.bounds.2.1 i hi) (hns i hi)

theorem Children.HeldAt.regrow {cs : Children} (h : cs.HeldAt s rs depth ls ns) (hs : s.Regrown ns₁ ns₂ s')
    (hns : ∀ i ∈ ns, i ∉ ns₁) : cs.HeldAt s' rs depth ls ns :=
  h.congr (fun i _ => by rw [hs.leaves_eq]) fun i hi => hs.others i (h.bounds.2.1 i hi) (hns i hi)

end Frames

namespace Nodes

theorem regrown_set (s : Nodes) (i : Nat) (node : InnerNode) :
    s.Regrown [i] [i] { s with inners := s.inners.set i node } :=
  ⟨rfl, rfl, fun _ _ hj => List.getElem?_set_ne (Ne.symm (List.ne_of_not_mem_cons hj)), 0, List.length_set, by
    rw [List.range'_zero, List.append_nil]⟩

theorem regrown_split (s : Nodes) (i : Nat) (lower upper : InnerNode) :
    s.Regrown [i] [i, s.inners.length] { s with inners := s.inners.set i lower ++ [upper] } := by
  refine ⟨rfl, rfl, fun j hj hji => ?_, 1, ?_, .rfl⟩
  · rw [List.getElem?_append_left (by rwa [List.length_set])]
    exact List.getElem?_set_ne (Ne.symm (List.ne_of_not_mem_cons hji))
  · rw [List.length_append, List.length_set]
    rfl

section Absorb

variable {i taken : Nat} {new : Sprout} {separators grown : List Bytes} {children : List NodeRef}

theorem absorb_short (hnode : s.inners[i]? = some ⟨separators, children⟩)
    (hseparators : insertAt? taken new.separator separators = some grown)
    (hchildren : insertAt? (taken + 1) new.node children = some rs) (hshort : grown.length ≤ maxKeys) :
    s.absorb i taken new = some ({ s with inners := s.inners.set i ⟨grown, rs⟩ }, none) := by
  simp [absorb, hnode, hseparators, hchildren, hshort]

theorem absorb_long {middle : Nat} (hnode : s.inners[i]? = some ⟨separators, children⟩)
    (hseparators : insertAt? taken new.separator separators = some grown)
    (hchildren : insertAt? (taken + 1) new.node children = some rs) (hlong : ¬ grown.length ≤ maxKeys)
    (hhalf : grown.length / 2 = middle) (hmiddle : middle < grown.length) (hlength : rs.length = grown.length + 1) :
    s.absorb i taken new = some
      ({ s with inners := s.inners.set i ⟨grown.take middle, rs.take (middle + 1)⟩ ++
          [⟨grown.drop (middle + 1), rs.drop (middle + 1)⟩] },
        some ⟨grown[middle], .inner s.inners.length⟩) := by
  have hmax : maxKeys = 32 := rfl
  have hsplit : splitOff? (middle + 1) grown = some (grown.take (middle + 1), grown.drop (middle + 1)) := by
    rw [splitOff?, if_pos (Nat.succ_le_of_lt hmiddle), List.splitAt_eq]
  have hsplit' : splitOff? (middle + 1) rs = some (rs.take (middle + 1), rs.drop (middle + 1)) := by
    rw [splitOff?, if_pos (by omega), List.splitAt_eq]
  have hlower : (grown.take (middle + 1)).dropLast = grown.take middle := by
    rw [List.dropLast_take (by omega), Nat.add_sub_cancel]
  have hlast : (grown.take (middle + 1)).getLast?.getD new.separator = grown[middle] := by
    rw [List.getLast?_take, if_neg (Nat.succ_ne_zero _), Nat.add_sub_cancel, List.getElem?_eq_getElem hmiddle]
    rfl
  simp only [absorb, hnode, hseparators, hchildren, if_neg hlong, hhalf, Option.bind_eq_bind, Option.bind_some]
  rw [hsplit, Option.bind_some, hsplit', Option.bind_some, hlower, hlast]
  rfl

theorem absorb_spec {cs : Children} (hnode : s.inners[i]? = some ⟨separators, children⟩)
    (hseparators : insertAt? taken new.separator separators = some cs.separators)
    (hchildren : insertAt? (taken + 1) new.node children = some rs)
    (hcs : cs.HeldAt s rs depth ls ns) (hi : i ∉ ns) :
    ∃ s' sprout ns', s.absorb i taken new = some (s', sprout) ∧ s.Regrown (i :: ns) ns' s' ∧
      (Growth.ofChildren cs).HeldAt s' (.inner i) sprout (depth + 1) ls ns' := by
  have hlt := (List.getElem?_eq_some_iff.mp hnode).1
  have hlength := hcs.length_eq
  have hkept : ∀ j ∈ ns, j ∉ [i] := fun j hj hj' => hi (List.mem_singleton.mp hj' ▸ hj)
  by_cases hshort : cs.separators.length ≤ maxKeys
  · have hregrown := s.regrown_set i ⟨cs.separators, rs⟩
    refine ⟨_, none, i :: ns, absorb_short hnode hseparators hchildren hshort, hregrown.append_right ns, ?_⟩
    rw [Growth.ofChildren, if_pos hshort]
    exact ⟨rfl, i, rs, depth, ns, rfl, rfl, rfl, List.getElem?_set_self hlt, hcs.regrow hregrown hkept⟩
  · have hmiddle : cs.separators.length / 2 < cs.separators.length := by
      have hmax : maxKeys = 32 := rfl
      omega
    have habsorb := absorb_long hnode hseparators hchildren hshort rfl hmiddle hlength
    obtain ⟨left, right, hsplit, hleft, hright⟩ := Children.exists_splitAt? hmiddle
    obtain ⟨ls₁, ls₂, ns₁, ns₂, rfl, rfl, hl, hr⟩ := hcs.splitAt? hsplit
    rw [← hleft, ← hright] at habsorb
    -- the lower half stays where the node was, and the upper half is a new node after all others
    let middle := cs.separators.length / 2
    have hregrown := s.regrown_split i ⟨left.separators, rs.take (middle + 1)⟩
      ⟨right.separators, rs.drop (middle + 1)⟩
    refine ⟨_, _, (i :: ns₁) ++ (s.inners.length :: ns₂), habsorb, ?_, ?_⟩
    · exact (hregrown.append_right (ns₁ ++ ns₂)).perm (List.Perm.cons i List.perm_middle)
    · rw [Growth.ofChildren, if_neg hshort, hsplit]
      refine ⟨.inner s.inners.length, ls₁, ls₂, i :: ns₁, s.inners.length :: ns₂, rfl, rfl, rfl, ?_, ?_⟩
      · refine ⟨i, _, depth, ns₁, rfl, rfl, rfl, ?_, hl.regrow hregrown fun j hj => hkept j (List.mem_append_left _ hj)⟩
        rw [List.getElem?_append_left (by rwa [List.length_set])]
        exact List.getElem?_set_self hlt
      · refine ⟨s.inners.length, _, depth, ns₂, rfl, rfl, rfl, ?_,
          hr.regrow hregrown fun j hj => hkept j (List.mem_append_right _ hj)⟩
        rw [List.getElem?_append_right (Nat.le_of_eq List.length_set), List.length_set, Nat.sub_self]
        rfl

end Absorb

end Nodes

end ObjectGraph
