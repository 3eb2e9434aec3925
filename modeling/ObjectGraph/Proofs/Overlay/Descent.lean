import ObjectGraph.Proofs.Overlay.Nodes
/-!
The way down to a leaf and back. By induction on the tree: what the leaf becomes is carried up the path, and
each inner node on it becomes what the tree has there.
-/

namespace ObjectGraph

open Nodes
open Std (OrientedCmp)

def Joins (taken : Nat) (separators : List Bytes) (rs : List NodeRef) :
    Option Sprout → List Bytes → List NodeRef → Prop
  | none, separators', rs' => separators' = separators ∧ rs' = rs
  | some new, separators', rs' =>
    insertAt? taken new.separator separators = some separators' ∧
      insertAt? (taken + 1) new.node rs = some rs'

structure Nodes.Way (order : KeyOrder) (k : Bytes) (s : Nodes) (r : NodeRef) (depth l : Nat)
    (path : List (Nat × Nat)) (es : List Entry) : Prop where
  descend : ∀ n rest, depth ≤ n → s.descend order k n r rest = some (l, path ++ rest)
  leaf : ∃ next, s.leaves[l]? = some ⟨es, next⟩
  short : es.length ≤ maxKeys

/-- The way leads where the tree looks, and what is done to the leaf comes to what is done to the tree. -/
structure Tree.Leads (order : KeyOrder) (k v : Bytes) (s : Nodes) (t : Tree) (r : NodeRef) (depth : Nat)
    (ls ns : List Nat) (l : Nat) (path : List (Nat × Nat)) (es : List Entry) : Prop where
  way : s.Way order k r depth l path es
  onward : ∃ before after, ls = before ++ l :: after ∧
    (l :: after).map (fun i => s.leaves[i]?.map LeafNode.entries) = (t.leavesFrom order k).map some
  find?_eq : t.find? order k = Dictionary.find? order k es
  erase : ∀ s', s.Refilled l [l] s' →
    s'.leaves[l]?.map LeafNode.entries = some (Dictionary.erase order k es) →
    (t.erase order k).HeldAt s' r depth ls ns
  grow : ∀ s₁ sprout pieces, s.Refilled l pieces s₁ →
    (Growth.ofEntries (Dictionary.insert order k v es)).HeldAt s₁ (.leaf l) sprout 0 pieces [] →
    ∃ s₂ sprout' ns', path.foldlM carry (s₁, sprout) = some (s₂, sprout') ∧ s₁.Regrown ns ns' s₂ ∧
      (t.grow order k v).HeldAt s₂ r sprout' depth (splice l pieces ls) ns'

structure Children.Leads (order : KeyOrder) (k v : Bytes) (s : Nodes) (cs : Children) (rs : List NodeRef)
    (depth : Nat) (ls ns : List Nat) (l : Nat) (path : List (Nat × Nat)) (es : List Entry) : Prop where
  way : ∃ r, rs[childFor order k cs.separators]? = some r ∧ s.Way order k r depth l path es
  onward : ∃ before after, ls = before ++ l :: after ∧
    (l :: after).map (fun i => s.leaves[i]?.map LeafNode.entries) = (cs.leavesFrom order k).map some
  find?_eq : cs.find? order k = Dictionary.find? order k es
  erase : ∀ s', s.Refilled l [l] s' →
    s'.leaves[l]?.map LeafNode.entries = some (Dictionary.erase order k es) →
    (cs.erase order k).HeldAt s' rs depth ls ns
  grow : ∀ s₁ sprout pieces, s.Refilled l pieces s₁ →
    (Growth.ofEntries (Dictionary.insert order k v es)).HeldAt s₁ (.leaf l) sprout 0 pieces [] →
    ∃ s₂ sprout' ns' rs', path.foldlM carry (s₁, sprout) = some (s₂, sprout') ∧ s₁.Regrown ns ns' s₂ ∧
      (cs.grow order k v).HeldAt s₂ rs' depth (splice l pieces ls) ns' ∧
      Joins (childFor order k cs.separators) cs.separators rs sprout' (cs.grow order k v).separators rs'

section Steps

variable {order : KeyOrder} {k v : Bytes} {s : Nodes} {r : NodeRef} {rs : List NodeRef} {depth l : Nat}
  {ls ns ls₁ ls₂ ns₁ ns₂ : List Nat} {path : List (Nat × Nat)} {es : List Entry}

theorem Tree.Leads.mem {t : Tree} (h : t.Leads order k v s r depth ls ns l path es) : l ∈ ls := by
  obtain ⟨before, after, rfl, -⟩ := h.onward
  exact List.mem_append_right _ List.mem_cons_self

theorem Children.Leads.mem {cs : Children} (h : cs.Leads order k v s rs depth ls ns l path es) : l ∈ ls := by
  obtain ⟨before, after, rfl, -⟩ := h.onward
  exact List.mem_append_right _ List.mem_cons_self

theorem childFor_cons {sep : Bytes} {separators : List Bytes} :
    childFor order k (sep :: separators) = if order sep k = .gt then 0 else childFor order k separators + 1 := by
  rw [childFor, List.takeWhile_cons]
  by_cases h : order sep k = .gt <;> simp [h, childFor]

theorem Tree.leads_leaf {i : Nat} {next : Option Nat} (hleaf : s.leaves[i]? = some ⟨es, next⟩)
    (hshort : es.length ≤ maxKeys) : (Tree.leaf es).Leads order k v s (.leaf i) 0 [i] [] i [] es where
  way := ⟨fun n rest _ => by cases n <;> rfl, ⟨next, hleaf⟩, hshort⟩
  onward := ⟨[], [], rfl, by rw [List.map_singleton, hleaf]; rfl⟩
  find?_eq := rfl
  erase s' _ hes := ⟨i, rfl, rfl, rfl, rfl, hes⟩
  grow s₁ sprout pieces _ hgrown := by
    refine ⟨s₁, sprout, [], rfl, .refl s₁ [], ?_⟩
    rw [splice_singleton]
    exact hgrown

theorem Children.leads_last {t : Tree} (h : t.Leads order k v s r depth ls ns l path es) :
    (Children.last t).Leads order k v s [r] depth ls ns l path es where
  way := ⟨r, rfl, h.way⟩
  onward := h.onward
  find?_eq := h.find?_eq
  erase s' hs hes := ⟨r, rfl, h.erase s' hs hes⟩
  grow s₁ sprout pieces hs hgrown := by
    obtain ⟨s₂, sprout', ns', hcarry, hregrown, hheld⟩ := h.grow s₁ sprout pieces hs hgrown
    rw [Children.grow]
    cases hg : t.grow order k v with
    | whole t' =>
      rw [hg] at hheld
      obtain ⟨rfl, hheld⟩ := hheld
      exact ⟨s₂, none, ns', [r], hcarry, hregrown, ⟨r, rfl, hheld⟩, rfl, rfl⟩
    | split left sep right =>
      rw [hg] at hheld
      obtain ⟨r', ls₁, ls₂, ns₁, ns₂, rfl, hls, rfl, hleft, hright⟩ := hheld
      exact ⟨s₂, _, _, [r, r'], hcarry, hregrown,
        ⟨r, [r'], ls₁, ls₂, ns₁, ns₂, rfl, hls, rfl, hleft, r', rfl, hright⟩, rfl, rfl⟩

theorem Children.leads_first {t : Tree} {sep : Bytes} {rest : Children} (hk : order sep k = .gt)
    (h : t.Leads order k v s r depth ls₁ ns₁ l path es) (hrest : rest.HeldAt s rs depth ls₂ ns₂)
    (hls : (ls₁ ++ ls₂).Nodup) (hns : (ns₁ ++ ns₂).Nodup) :
    (Children.cons t sep rest).Leads order k v s (r :: rs) depth (ls₁ ++ ls₂) (ns₁ ++ ns₂) l path es := by
  have hfirst : childFor order k (Children.cons t sep rest).separators = 0 := by
    rw [Children.separators, childFor_cons, if_pos hk]
  have hl : l ∉ ls₂ := fun hl => (List.nodup_append.mp hls).2.2 l h.mem l hl rfl
  have hdisjoint : ∀ i ∈ ns₂, i ∉ ns₁ := fun i hi hi' => (List.nodup_append.mp hns).2.2 i hi' i hi rfl
  refine ⟨?_, ?_, ?_, fun s' hs hes => ?_, fun s₁ sprout pieces hs hgrown => ?_⟩
  · exact ⟨r, by rw [hfirst]; rfl, h.way⟩
  · obtain ⟨before, after, hbefore, hafter⟩ := h.onward
    refine ⟨before, after ++ ls₂, by rw [hbefore, List.append_assoc, List.cons_append], ?_⟩
    rw [Children.leavesFrom, if_pos hk, ← List.cons_append, List.map_append, hafter, hrest.leaves_eq, List.map_append]
  · rw [Children.find?, if_pos hk, h.find?_eq]
  · rw [Children.erase, if_pos hk]
    exact ⟨r, rs, ls₁, ls₂, ns₁, ns₂, rfl, rfl, rfl, h.erase s' hs hes, hrest.refill hs hl⟩
  · obtain ⟨s₂, sprout', ns', hcarry, hregrown, hheld⟩ := h.grow s₁ sprout pieces hs hgrown
    have hrest' := (hrest.refill hs hl).regrow hregrown hdisjoint
    rw [hfirst, Children.grow, if_pos hk, splice_append, splice_of_not_mem hl]
    cases hg : t.grow order k v with
    | whole t' =>
      rw [hg] at hheld
      obtain ⟨rfl, hheld⟩ := hheld
      exact ⟨s₂, none, _, r :: rs, hcarry, hregrown.append_right ns₂,
        ⟨r, rs, _, _, _, _, rfl, rfl, rfl, hheld, hrest'⟩, rfl, rfl⟩
    | split left m right =>
      rw [hg] at hheld
      obtain ⟨r', ls₃, ls₄, ns₃, ns₄, rfl, hsplice, rfl, hleft, hright⟩ := hheld
      rw [hsplice]
      exact ⟨s₂, _, _, r :: r' :: rs, hcarry, hregrown.append_right ns₂,
        ⟨r, _, ls₃, ls₄ ++ ls₂, ns₃, ns₄ ++ ns₂, rfl, List.append_assoc .., List.append_assoc .., hleft,
          r', rs, _, _, _, _, rfl, rfl, rfl, hright, hrest'⟩, rfl, rfl⟩

theorem Joins.cons {taken : Nat} {separators separators' : List Bytes} {rs' : List NodeRef}
    {sprout : Option Sprout} (h : Joins taken separators rs sprout separators' rs') (sep : Bytes) (r : NodeRef) :
    Joins (taken + 1) (sep :: separators) (r :: rs) sprout (sep :: separators') (r :: rs') := by
  have hinsert {α : Type} {i : Nat} {x y : α} {xs ys : List α} (h : insertAt? i x xs = some ys) :
      insertAt? (i + 1) x (y :: xs) = some (y :: ys) := by
    rw [insertAt?] at h ⊢
    split at h
    next hle =>
      rw [if_pos (by simpa using hle), List.insertIdx_succ_cons, Option.some.inj h]
    next => contradiction
  cases sprout with
  | none => exact ⟨congrArg (sep :: ·) h.1, congrArg (r :: ·) h.2⟩
  | some new => exact ⟨hinsert h.1, hinsert h.2⟩

theorem Children.leads_later {t : Tree} {sep : Bytes} {rest : Children} (hk : order sep k ≠ .gt)
    (ht : t.HeldAt s r depth ls₁ ns₁) (h : rest.Leads order k v s rs depth ls₂ ns₂ l path es)
    (hls : (ls₁ ++ ls₂).Nodup) (hns : (ns₁ ++ ns₂).Nodup) :
    (Children.cons t sep rest).Leads order k v s (r :: rs) depth (ls₁ ++ ls₂) (ns₁ ++ ns₂) l path es := by
  have hlater : childFor order k (Children.cons t sep rest).separators = childFor order k rest.separators + 1 := by
    rw [Children.separators, childFor_cons, if_neg hk]
  have hl : l ∉ ls₁ := fun hl => (List.nodup_append.mp hls).2.2 l hl l h.mem rfl
  have hdisjoint : ∀ i ∈ ns₁, i ∉ ns₂ := fun i hi hi' => (List.nodup_append.mp hns).2.2 i hi i hi' rfl
  refine ⟨?_, ?_, ?_, fun s' hs hes => ?_, fun s₁ sprout pieces hs hgrown => ?_⟩
  · obtain ⟨r', hr', hway⟩ := h.way
    exact ⟨r', by rwa [hlater, List.getElem?_cons_succ], hway⟩
  · obtain ⟨before, after, hbefore, hafter⟩ := h.onward
    refine ⟨ls₁ ++ before, after, by rw [hbefore, List.append_assoc], ?_⟩
    rw [Children.leavesFrom, if_neg hk, hafter]
  · rw [Children.find?, if_neg hk, h.find?_eq]
  · rw [Children.erase, if_neg hk]
    exact ⟨r, rs, ls₁, ls₂, ns₁, ns₂, rfl, rfl, rfl, ht.refill hs hl, h.erase s' hs hes⟩
  · obtain ⟨s₂, sprout', ns', rs', hcarry, hregrown, hheld, hjoins⟩ := h.grow s₁ sprout pieces hs hgrown
    rw [hlater, Children.grow, if_neg hk, splice_append, splice_of_not_mem hl]
    exact ⟨s₂, sprout', _, r :: rs', hcarry, hregrown.append_left ns₁,
      ⟨r, rs', _, _, _, _, rfl, rfl, rfl, (ht.refill hs hl).regrow hregrown hdisjoint, hheld⟩, hjoins.cons sep r⟩

theorem Children.separators_erase (order : KeyOrder) : ∀ (cs : Children) (k : Bytes),
    (cs.erase order k).separators = cs.separators
  | .last _, _ => rfl
  | .cons t sep rest, k => by
    rw [Children.erase]
    split
    · rfl
    · exact congrArg (sep :: ·) (Children.separators_erase order rest k)

theorem Tree.leads_node {cs : Children} {i : Nat} (hnode : s.inners[i]? = some ⟨cs.separators, rs⟩)
    (hlength : cs.separators.length ≤ maxKeys) (h : cs.Leads order k v s rs depth ls ns l path es) (hi : i ∉ ns) :
    (Tree.node cs).Leads order k v s (.inner i) (depth + 1) ls (i :: ns) l
      (path ++ [(i, childFor order k cs.separators)]) es := by
  have hlt := (List.getElem?_eq_some_iff.mp hnode).1
  refine ⟨?_, h.onward, h.find?_eq, fun s' hs hes => ?_, fun s₁ sprout pieces hs hgrown => ?_⟩
  · obtain ⟨r, hr, hway⟩ := h.way
    refine ⟨fun n rest hn => ?_, hway.leaf, hway.short⟩
    obtain ⟨m, rfl⟩ : ∃ m, n = m + 1 := ⟨n - 1, by omega⟩
    simp only [descend, hnode, Option.bind_eq_bind, Option.bind_some, hr,
      hway.descend m _ (Nat.le_of_succ_le_succ hn), List.append_assoc, List.cons_append, List.nil_append]
  · refine ⟨i, rs, depth, ns, rfl, rfl, rfl, ?_, h.erase s' hs hes⟩
    rw [hs.inners_eq, Children.separators_erase, hnode]
  · obtain ⟨s₂, sprout', ns', rs', hcarry, hregrown, hheld, hjoins⟩ := h.grow s₁ sprout pieces hs hgrown
    have hnode₂ : s₂.inners[i]? = some ⟨cs.separators, rs⟩ := by
      rw [hregrown.others i (by rwa [hs.inners_eq]) hi, hs.inners_eq, hnode]
    have hi' : i ∉ ns' := fun hi' => by
      rcases hregrown.mem hi' with hi' | hi'
      · exact hi hi'
      · rw [hs.inners_eq] at hi'
        omega
    have hframed : s₁.Regrown (i :: ns) (i :: ns') s₂ := hregrown.append_left [i]
    rw [List.foldlM_append, hcarry, Option.bind_eq_bind, Option.bind_some]
    cases sprout' with
    | none =>
      obtain ⟨hseparators, rfl⟩ := hjoins
      refine ⟨s₂, none, i :: ns', rfl, hframed, ?_⟩
      rw [Tree.grow, Growth.ofChildren, if_pos (hseparators ▸ hlength)]
      exact ⟨rfl, i, rs', depth, ns', rfl, rfl, rfl, hseparators ▸ hnode₂, hheld⟩
    | some new =>
      obtain ⟨s₃, sprout₃, ns₃, habsorb, hregrown₃, hheld₃⟩ :=
        absorb_spec hnode₂ hjoins.1 hjoins.2 hheld hi'
      refine ⟨s₃, sprout₃, ns₃, ?_, hframed.trans hregrown₃, hheld₃⟩
      rw [List.foldlM_cons, carry, habsorb]
      rfl

end Steps

variable (order : KeyOrder) {s : Nodes} (k v : Bytes)

mutual

theorem Tree.HeldAt.exists_leads : ∀ {t : Tree} {r : NodeRef} {depth : Nat} {ls ns : List Nat},
    t.HeldAt s r depth ls ns → t.Sized → ls.Nodup → ns.Nodup →
    ∃ l path es, t.Leads order k v s r depth ls ns l path es
  | .leaf es, r, depth, ls, ns, ⟨i, hr, hdepth, hls, hns, hleaf⟩, hsized, _, _ => by
    subst hr hdepth hls hns
    obtain ⟨⟨_, next⟩, hleaf', heq⟩ := Option.map_eq_some_iff.mp hleaf
    cases heq
    exact ⟨i, [], _, Tree.leads_leaf hleaf' hsized⟩
  | .node cs, r, depth, ls, ns, ⟨i, rs, d, ns', hr, hdepth, hns, hnode, hcs⟩, ⟨_, hlength, hsized⟩, hlsn, hnsn => by
    subst hr hdepth hns
    obtain ⟨hi, hnsn⟩ := List.nodup_cons.mp hnsn
    obtain ⟨l, path, es, hleads⟩ := Children.HeldAt.exists_leads hcs hsized hlsn hnsn
    exact ⟨l, _, es, Tree.leads_node hnode hlength hleads hi⟩

theorem Children.HeldAt.exists_leads : ∀ {cs : Children} {rs : List NodeRef} {depth : Nat} {ls ns : List Nat},
    cs.HeldAt s rs depth ls ns → cs.Sized → ls.Nodup → ns.Nodup →
    ∃ l path es, cs.Leads order k v s rs depth ls ns l path es
  | .last t, rs, depth, ls, ns, ⟨r, hrs, ht⟩, hsized, hlsn, hnsn => by
    subst hrs
    obtain ⟨l, path, es, hleads⟩ := Tree.HeldAt.exists_leads ht hsized hlsn hnsn
    exact ⟨l, path, es, Children.leads_last hleads⟩
  | .cons t sep rest, rs, depth, ls, ns, ⟨r, rs', ls₁, ls₂, ns₁, ns₂, hrs, hls, hns, ht, hrest⟩, hsized, hlsn,
      hnsn => by
    subst hrs hls hns
    obtain ⟨hlsn₁, hlsn₂, -⟩ := List.nodup_append.mp hlsn
    obtain ⟨hnsn₁, hnsn₂, -⟩ := List.nodup_append.mp hnsn
    by_cases hk : order sep k = .gt
    · obtain ⟨l, path, es, hleads⟩ := Tree.HeldAt.exists_leads ht hsized.1 hlsn₁ hnsn₁
      exact ⟨l, path, es, Children.leads_first hk hleads hrest hlsn hnsn⟩
    · obtain ⟨l, path, es, hleads⟩ := Children.HeldAt.exists_leads hrest hsized.2 hlsn₂ hnsn₂
      exact ⟨l, path, es, Children.leads_later hk ht hleads hlsn hnsn⟩

end

end ObjectGraph
