import ObjectGraph.Proofs.Ordered.Dictionary
import ObjectGraph.Overlay.Tree

namespace ObjectGraph

mutual

def Tree.Sized : Tree → Prop
  | .leaf es => es.length ≤ maxKeys
  | .node cs => cs.separators ≠ [] ∧ cs.separators.length ≤ maxKeys ∧ cs.Sized

def Children.Sized : Children → Prop
  | .last t => t.Sized
  | .cons t _ rest => t.Sized ∧ rest.Sized

end

def Growth.Sized : Growth → Prop
  | .whole t => t.Sized
  | .split l _ r => l.Sized ∧ r.Sized

theorem Tree.sized_empty : Tree.empty.Sized := Nat.zero_le _

theorem Children.exists_splitAt? {cs : Children} {n : Nat} (h : n < cs.separators.length) :
    ∃ left right, cs.splitAt? n = some (left, cs.separators[n], right) ∧
      left.separators = cs.separators.take n ∧ right.separators = cs.separators.drop (n + 1) := by
  induction n generalizing cs with
  | zero =>
    cases cs with
    | last t => contradiction
    | cons t s rest => exact ⟨.last t, rest, rfl, rfl, rfl⟩
  | succ n ih =>
    cases cs with
    | last t => contradiction
    | cons t s rest =>
      obtain ⟨left, right, hsplit, hleft, hright⟩ := ih (Nat.lt_of_succ_lt_succ h)
      refine ⟨.cons t s left, right, ?_, congrArg (s :: ·) hleft, hright⟩
      rw [Children.splitAt?, hsplit]
      rfl

theorem Children.sized_of_splitAt? {cs left right : Children} {n : Nat} {s : Bytes}
    (h : cs.splitAt? n = some (left, s, right)) (hcs : cs.Sized) : left.Sized ∧ right.Sized := by
  induction n generalizing cs left with
  | zero =>
    cases cs with
    | last t => contradiction
    | cons t m rest =>
      cases h
      exact hcs
  | succ n ih =>
    cases cs with
    | last t => contradiction
    | cons t m rest =>
      obtain ⟨⟨l, m', r⟩, hrest, heq⟩ := Option.map_eq_some_iff.mp h
      cases heq
      obtain ⟨hl, hr⟩ := ih hrest hcs.2
      exact ⟨⟨hcs.1, hl⟩, hr⟩

theorem Growth.ofEntries_sized {es : List Entry} (h : es.length ≤ maxKeys + 1) : (ofEntries es).Sized := by
  rw [ofEntries]
  split
  next hshort => exact hshort
  next hlong =>
    have hmax : maxKeys = 32 := rfl
    have hjoin := congrArg List.length (List.take_append_drop (es.length / 2) es)
    have htake : (es.take (es.length / 2)).length = es.length / 2 := List.length_take_of_le (by omega)
    rw [List.length_append, htake] at hjoin
    split
    next hnil =>
      rw [hnil, List.length_nil] at hjoin
      omega
    next e right hcons =>
      rw [hcons] at hjoin
      refine ⟨?_, ?_⟩
      · change (es.take (es.length / 2)).length ≤ maxKeys
        omega
      · change (e :: right).length ≤ maxKeys
        omega

theorem Growth.ofChildren_sized {cs : Children} (h : cs.Sized) (hne : cs.separators ≠ [])
    (hlength : cs.separators.length ≤ maxKeys + 1) : (ofChildren cs).Sized := by
  rw [ofChildren]
  split
  next hshort => exact ⟨hne, hshort, h⟩
  next hlong =>
    have hmax : maxKeys = 32 := rfl
    have hmiddle : cs.separators.length / 2 < cs.separators.length := by omega
    obtain ⟨left, right, hsplit, hleft, hright⟩ := Children.exists_splitAt? hmiddle
    obtain ⟨hl, hr⟩ := Children.sized_of_splitAt? hsplit h
    have hsizes : left.separators.length = cs.separators.length / 2 ∧
        right.separators.length = cs.separators.length - (cs.separators.length / 2 + 1) := by
      rw [hleft, hright, List.length_take, List.length_drop]
      omega
    rw [hsplit]
    refine ⟨⟨?_, by omega, hl⟩, ⟨?_, by omega, hr⟩⟩
    · exact List.ne_nil_of_length_pos (by omega)
    · exact List.ne_nil_of_length_pos (by omega)

theorem Growth.before_sized {g : Growth} (h : g.Sized) (s : Bytes) {rest : Children} (hrest : rest.Sized) :
    (g.before s rest).Sized ∧ rest.separators.length + 1 ≤ (g.before s rest).separators.length ∧
      (g.before s rest).separators.length ≤ rest.separators.length + 2 := by
  cases g with
  | whole t => exact ⟨⟨h, hrest⟩, Nat.le_refl _, Nat.le_succ _⟩
  | split l m r => exact ⟨⟨h.1, h.2, hrest⟩, Nat.le_succ _, Nat.le_refl _⟩

theorem Growth.tree_sized {g : Growth} (h : g.Sized) : g.tree.Sized := by
  cases g with
  | whole t => exact h
  | split l s r => exact ⟨List.cons_ne_nil _ _, show 1 ≤ maxKeys by decide, h⟩

variable (order : KeyOrder) (k v : Bytes)

mutual

theorem Tree.grow_sized : ∀ t : Tree, t.Sized → (t.grow order k v).Sized
  | .leaf es, h => by
    refine Growth.ofEntries_sized ?_
    rw [Dictionary.length_insert]
    have hes : es.length ≤ maxKeys := h
    split <;> omega
  | .node cs, h => by
    obtain ⟨hne, hlength, hcs⟩ := h
    obtain ⟨hsized, hle, hle'⟩ := Children.grow_sized cs hcs
    have hpos := List.length_pos_iff.mpr hne
    exact Growth.ofChildren_sized hsized (List.ne_nil_of_length_pos (by omega)) (by omega)

theorem Children.grow_sized : ∀ cs : Children, cs.Sized → (cs.grow order k v).Sized ∧
    cs.separators.length ≤ (cs.grow order k v).separators.length ∧
      (cs.grow order k v).separators.length ≤ cs.separators.length + 1
  | .last t, h => by
    have ht := Tree.grow_sized t h
    rw [Children.grow]
    cases hg : t.grow order k v with
    | whole t' =>
      rw [hg] at ht
      exact ⟨ht, Nat.le_refl _, Nat.le_succ _⟩
    | split l s r =>
      rw [hg] at ht
      exact ⟨ht, Nat.le_succ _, Nat.le_refl _⟩
  | .cons t s rest, h => by
    rw [Children.grow]
    split
    · exact Growth.before_sized (Tree.grow_sized t h.1) s h.2
    · obtain ⟨hsized, hle, hle'⟩ := Children.grow_sized rest h.2
      exact ⟨⟨h.1, hsized⟩, Nat.succ_le_succ hle, Nat.succ_le_succ hle'⟩

end

mutual

theorem Tree.erase_sized : ∀ t : Tree, t.Sized → (t.erase order k).Sized
  | .leaf es, h => Nat.le_trans (Dictionary.erase_sublist k es).length_le h
  | .node cs, h => by
    obtain ⟨hne, hlength, hcs⟩ := h
    obtain ⟨hsized, hseparators⟩ := Children.erase_sized cs hcs
    exact ⟨hseparators ▸ hne, hseparators ▸ hlength, hsized⟩

theorem Children.erase_sized : ∀ cs : Children, cs.Sized →
    (cs.erase order k).Sized ∧ (cs.erase order k).separators = cs.separators
  | .last t, h => ⟨Tree.erase_sized t h, rfl⟩
  | .cons t s rest, h => by
    rw [Children.erase]
    split
    · exact ⟨⟨Tree.erase_sized t h.1, h.2⟩, rfl⟩
    · obtain ⟨hsized, hseparators⟩ := Children.erase_sized rest h.2
      exact ⟨⟨h.1, hsized⟩, congrArg (s :: ·) hseparators⟩

end

theorem Tree.insert_sized {t : Tree} (h : t.Sized) : (t.insert order k v).Sized :=
  Growth.tree_sized (Tree.grow_sized order k v t h)

end ObjectGraph
