import ObjectGraph.Ordered.Dictionary

namespace ObjectGraph.Dictionary

open Std (TransCmp OrientedCmp ReflCmp)

variable {κ ν : Type} {order : κ → κ → Ordering}

def Ascending (order : κ → κ → Ordering) (d : List (κ × ν)) : Prop :=
  d.Pairwise fun a b => order a.1 b.1 = .lt

instance (order : κ → κ → Ordering) (d : List (κ × ν)) : Decidable (Ascending order d) :=
  inferInstanceAs (Decidable (d.Pairwise _))

theorem Ascending.nil : Ascending order ([] : List (κ × ν)) := List.Pairwise.nil

theorem Ascending.tail {e : κ × ν} {d : List (κ × ν)} (h : Ascending order (e :: d)) :
    Ascending order d := List.Pairwise.of_cons h

theorem Ascending.head_lt {e a : κ × ν} {d : List (κ × ν)} (h : Ascending order (e :: d))
    (ha : a ∈ d) : order e.1 a.1 = .lt := List.rel_of_pairwise_cons h ha

theorem mem_and_eq_of_find? {k : κ} {d : List (κ × ν)} {e : κ × ν} (h : find? order k d = some e) :
    e ∈ d ∧ order k e.1 = .eq := by
  induction d with
  | nil => simp [find?] at h
  | cons a d ih =>
    simp only [find?] at h
    split at h
    · contradiction
    · cases h
      exact ⟨List.mem_cons_self, ‹_›⟩
    · exact ⟨List.mem_cons_of_mem _ (ih h).1, (ih h).2⟩

theorem of_mem_insert {k : κ} {v : ν} {d : List (κ × ν)} {e : κ × ν} (h : e ∈ insert order k v d) :
    e = (k, v) ∨ e ∈ d := by
  induction d with
  | nil => exact .inl (List.mem_singleton.mp h)
  | cons a d ih =>
    simp only [insert] at h
    split at h
    · exact List.mem_cons.mp h
    · exact (List.mem_cons.mp h).imp id (List.mem_cons_of_mem a)
    · rcases List.mem_cons.mp h with rfl | h
      · exact .inr List.mem_cons_self
      · exact (ih h).imp id (List.mem_cons_of_mem a)

theorem erase_sublist (k : κ) (d : List (κ × ν)) : (erase order k d).Sublist d := by
  induction d with
  | nil => exact List.Sublist.refl _
  | cons a d ih =>
    simp only [erase]
    split
    · exact List.Sublist.refl _
    · exact List.sublist_cons_self ..
    · exact ih.cons_cons a

theorem Ascending.erase {d : List (κ × ν)} (hd : Ascending order d) (k : κ) :
    Ascending order (erase order k d) := List.Pairwise.sublist (erase_sublist k d) hd

theorem Ascending.startingAt {d : List (κ × ν)} (hd : Ascending order d) (k : κ) :
    Ascending order (startingAt order k d) :=
  List.Pairwise.sublist (List.dropWhile_sublist _) hd

section Oriented

variable [OrientedCmp order]

theorem Ascending.nodup {d : List (κ × ν)} (h : Ascending order d) : d.Nodup := by
  refine List.Pairwise.imp ?_ h
  rintro a b hab rfl
  rw [@ReflCmp.compare_self _ order] at hab
  contradiction

theorem Ascending.keys_nodup {d : List (κ × ν)} (h : Ascending order d) :
    (d.map Prod.fst).Nodup := by
  refine List.pairwise_map.mpr (List.Pairwise.imp ?_ h)
  intro a b hab he
  rw [he, @ReflCmp.compare_self _ order] at hab
  contradiction

theorem Ascending.ext {d d' : List (κ × ν)} (h : Ascending order d) (h' : Ascending order d')
    (hm : ∀ e, e ∈ d ↔ e ∈ d') : d = d' := by
  apply List.Perm.eq_of_pairwise ?_ h h' ((List.perm_ext_iff_of_nodup h.nodup h'.nodup).mpr hm)
  intro a b _ _ hab hba
  exact absurd hba (OrientedCmp.not_lt_of_lt hab)

end Oriented

section Trans

variable [TransCmp order]

theorem find?_eq_some_iff {k : κ} {d : List (κ × ν)} (hd : Ascending order d) {e : κ × ν} :
    find? order k d = some e ↔ e ∈ d ∧ order k e.1 = .eq := by
  refine ⟨mem_and_eq_of_find?, ?_⟩
  rintro ⟨hm, he⟩
  induction d with
  | nil => simp at hm
  | cons a d ih =>
    simp only [find?]
    rcases List.mem_cons.mp hm with rfl | hm'
    · simp [he]
    · have hgt : order k a.1 = .gt :=
        OrientedCmp.gt_of_lt (TransCmp.lt_of_lt_of_eq (hd.head_lt hm') (OrientedCmp.eq_symm he))
      simpa [hgt] using ih hd.tail hm'

theorem find?_eq_none_iff {k : κ} {d : List (κ × ν)} (hd : Ascending order d) :
    find? order k d = none ↔ ∀ e ∈ d, order k e.1 ≠ .eq := by
  constructor
  · intro h e he heq
    have := (find?_eq_some_iff hd).mpr ⟨he, heq⟩
    simp [h] at this
  · intro h
    cases hf : find? order k d with
    | none => rfl
    | some e => exact absurd (mem_and_eq_of_find? hf).2 (h e (mem_and_eq_of_find? hf).1)

theorem get?_eq_some_iff [Std.LawfulEqCmp order] {k : κ} {d : List (κ × ν)}
    (hd : Ascending order d) {v : ν} : get? order k d = some v ↔ (k, v) ∈ d := by
  rw [get?, Option.map_eq_some_iff]
  constructor
  · rintro ⟨⟨k', v⟩, he, rfl⟩
    obtain ⟨hm, hk⟩ := (find?_eq_some_iff hd).mp he
    rwa [Std.LawfulEqCmp.eq_of_compare hk]
  · intro hm
    exact ⟨_, (find?_eq_some_iff hd).mpr ⟨hm, ReflCmp.compare_self⟩, rfl⟩

theorem find?_cons {k : κ} {e : κ × ν} {d : List (κ × ν)} (hd : Ascending order (e :: d)) :
    find? order k (e :: d) = if order k e.1 = .eq then some e else find? order k d := by
  simp only [find?]
  split
  next hlt =>
    rw [if_neg (by simp [hlt]), eq_comm, find?_eq_none_iff hd.tail]
    intro a ha
    simp [TransCmp.lt_trans hlt (hd.head_lt ha)]
  next heq => rw [if_pos heq]
  next hgt => rw [if_neg (by simp [hgt])]

theorem Ascending.ext_find? {d d' : List (κ × ν)} (h : Ascending order d) (h' : Ascending order d')
    (hf : ∀ k, find? order k d = find? order k d') : d = d' := by
  apply h.ext h'
  intro e
  have hmem : e ∈ d ∧ order e.1 e.1 = .eq ↔ e ∈ d' ∧ order e.1 e.1 = .eq := by
    rw [← find?_eq_some_iff h, ← find?_eq_some_iff h', hf]
  simpa [@ReflCmp.compare_self _ order] using hmem

theorem find?_congr {k k' : κ} (h : order k k' = .eq) (d : List (κ × ν)) :
    find? order k d = find? order k' d := by
  induction d with
  | nil => rfl
  | cons a d ih => simp only [find?, TransCmp.congr_left h, ih]

theorem mem_insert {k : κ} {v : ν} {d : List (κ × ν)} (hd : Ascending order d) {e : κ × ν} :
    e ∈ insert order k v d ↔ e = (k, v) ∨ e ∈ d ∧ order k e.1 ≠ .eq := by
  induction d with
  | nil => simp [insert]
  | cons a d ih =>
    simp only [insert]
    split
    next hlt =>
      have hne : ∀ b ∈ a :: d, order k b.1 ≠ .eq := by
        intro b hb
        rcases List.mem_cons.mp hb with rfl | hb
        · simp [hlt]
        · simp [TransCmp.lt_trans hlt (hd.head_lt hb)]
      simp only [List.mem_cons (a := e) (b := (k, v))]
      exact or_congr_right ⟨fun h => ⟨h, hne e h⟩, And.left⟩
    next heq =>
      have hne : ∀ b ∈ d, order k b.1 ≠ .eq := by
        intro b hb
        simp [TransCmp.lt_of_eq_of_lt heq (hd.head_lt hb)]
      simp only [List.mem_cons]
      constructor
      · rintro (rfl | h)
        · exact .inl rfl
        · exact .inr ⟨.inr h, hne e h⟩
      · rintro (rfl | ⟨rfl | h, hk⟩)
        · exact .inl rfl
        · exact absurd heq hk
        · exact .inr h
    next hgt =>
      simp only [List.mem_cons, ih hd.tail]
      constructor
      · rintro (rfl | rfl | ⟨h, hk⟩)
        · exact .inr ⟨.inl rfl, by simp [hgt]⟩
        · exact .inl rfl
        · exact .inr ⟨.inr h, hk⟩
      · rintro (rfl | ⟨rfl | h, hk⟩)
        · exact .inr (.inl rfl)
        · exact .inl rfl
        · exact .inr (.inr ⟨h, hk⟩)

theorem Ascending.insert {d : List (κ × ν)} (hd : Ascending order d) (k : κ) (v : ν) :
    Ascending order (insert order k v d) := by
  induction d with
  | nil => exact List.pairwise_singleton ..
  | cons a d ih =>
    simp only [Dictionary.insert]
    split
    next hlt =>
      refine List.Pairwise.cons ?_ hd
      intro b hb
      rcases List.mem_cons.mp hb with rfl | hb
      · exact hlt
      · exact TransCmp.lt_trans hlt (hd.head_lt hb)
    next heq =>
      exact List.Pairwise.cons (fun b hb => TransCmp.lt_of_eq_of_lt heq (hd.head_lt hb)) hd.tail
    next hgt =>
      refine List.Pairwise.cons ?_ (ih hd.tail)
      intro b hb
      rcases (mem_insert hd.tail).mp hb with rfl | ⟨hb, _⟩
      · exact OrientedCmp.lt_of_gt hgt
      · exact hd.head_lt hb

theorem mem_erase {k : κ} {d : List (κ × ν)} (hd : Ascending order d) {e : κ × ν} :
    e ∈ erase order k d ↔ e ∈ d ∧ order k e.1 ≠ .eq := by
  induction d with
  | nil => simp [erase]
  | cons a d ih =>
    simp only [erase]
    split
    next hlt =>
      refine ⟨fun h => ⟨h, ?_⟩, And.left⟩
      rcases List.mem_cons.mp h with rfl | h
      · simp [hlt]
      · simp [TransCmp.lt_trans hlt (hd.head_lt h)]
    next heq =>
      simp only [List.mem_cons]
      constructor
      · intro h
        exact ⟨.inr h, by simp [TransCmp.lt_of_eq_of_lt heq (hd.head_lt h)]⟩
      · rintro ⟨rfl | h, hk⟩
        · exact absurd heq hk
        · exact h
    next hgt =>
      simp only [List.mem_cons, ih hd.tail]
      constructor
      · rintro (rfl | ⟨h, hk⟩)
        · exact ⟨.inl rfl, by simp [hgt]⟩
        · exact ⟨.inr h, hk⟩
      · rintro ⟨rfl | h, hk⟩
        · exact .inl rfl
        · exact .inr ⟨h, hk⟩

theorem erase_eq_filter {k : κ} {d : List (κ × ν)} (hd : Ascending order d) :
    erase order k d = d.filter fun e => order k e.1 ≠ .eq := by
  apply (hd.erase k).ext (List.Pairwise.filter _ hd)
  intro e
  rw [mem_erase hd, List.mem_filter, decide_eq_true_eq]

theorem find?_eq_of_perm {k : κ} {d l : List (κ × ν)} (hd : Ascending order d) (h : d.Perm l) :
    find? order k d = l.find? fun e => order k e.1 = .eq := by
  cases hl : l.find? fun e => order k e.1 = .eq with
  | none =>
    rw [find?_eq_none_iff hd]
    intro e he
    simpa using List.find?_eq_none.mp hl e (h.mem_iff.mp he)
  | some e =>
    rw [find?_eq_some_iff hd]
    exact ⟨h.mem_iff.mpr (List.mem_of_find?_eq_some hl), by simpa using List.find?_some hl⟩

theorem find?_insert {k j : κ} {v : ν} {d : List (κ × ν)} (hd : Ascending order d) :
    find? order j (insert order k v d) = if order j k = .eq then some (k, v) else find? order j d := by
  apply Option.ext
  intro e
  rw [find?_eq_some_iff (hd.insert k v), mem_insert hd]
  split
  next hjk =>
    constructor
    · rintro ⟨rfl | ⟨_, hk⟩, he⟩
      · rfl
      · exact absurd (TransCmp.eq_trans (OrientedCmp.eq_symm hjk) he) hk
    · rintro ⟨⟩
      exact ⟨.inl rfl, hjk⟩
  next hjk =>
    rw [find?_eq_some_iff hd]
    constructor
    · rintro ⟨rfl | ⟨hm, _⟩, he⟩
      · exact absurd he hjk
      · exact ⟨hm, he⟩
    · rintro ⟨hm, he⟩
      exact ⟨.inr ⟨hm, fun hk => hjk (TransCmp.eq_trans he (OrientedCmp.eq_symm hk))⟩, he⟩

theorem find?_erase {k j : κ} {d : List (κ × ν)} (hd : Ascending order d) :
    find? order j (erase order k d) = if order j k = .eq then none else find? order j d := by
  apply Option.ext
  intro e
  rw [find?_eq_some_iff (hd.erase k), mem_erase hd]
  split
  next hjk =>
    constructor
    · rintro ⟨⟨_, hk⟩, he⟩
      exact absurd (TransCmp.eq_trans (OrientedCmp.eq_symm hjk) he) hk
    · rintro ⟨⟩
  next hjk =>
    rw [find?_eq_some_iff hd]
    constructor
    · rintro ⟨⟨hm, _⟩, he⟩
      exact ⟨hm, he⟩
    · rintro ⟨hm, he⟩
      exact ⟨⟨hm, fun hk => hjk (TransCmp.eq_trans he (OrientedCmp.eq_symm hk))⟩, he⟩

section Lawful

variable [Std.LawfulEqCmp order] {d : List (κ × ν)}

theorem get?_insert [DecidableEq κ] (hd : Ascending order d) (k j : κ) (v : ν) :
    get? order j (insert order k v d) = if j = k then some v else get? order j d := by
  rw [get?, find?_insert hd]
  by_cases hjk : j = k
  · rw [if_pos hjk, if_pos (Std.LawfulEqCmp.compare_eq_iff_eq.mpr hjk)]
    rfl
  · rw [if_neg hjk, if_neg fun heq => hjk (Std.LawfulEqCmp.eq_of_compare heq), get?]

theorem get?_erase [DecidableEq κ] (hd : Ascending order d) (k j : κ) :
    get? order j (erase order k d) = if j = k then none else get? order j d := by
  rw [get?, find?_erase hd]
  by_cases hjk : j = k
  · rw [if_pos hjk, if_pos (Std.LawfulEqCmp.compare_eq_iff_eq.mpr hjk)]
    rfl
  · rw [if_neg hjk, if_neg fun heq => hjk (Std.LawfulEqCmp.eq_of_compare heq), get?]

theorem Ascending.ext_get? {d' : List (κ × ν)} (h : Ascending order d) (h' : Ascending order d')
    (hget : ∀ k, get? order k d = get? order k d') : d = d' := by
  apply h.ext h'
  rintro ⟨k, v⟩
  rw [← get?_eq_some_iff h, ← get?_eq_some_iff h', hget]

section Values

variable {id : ν → κ} (hd : Ascending order d) (hid : ∀ k v, get? order k d = some v → id v = k)

include hd hid

theorem mem_values {v : ν} : v ∈ d.map Prod.snd ↔ get? order (id v) d = some v := by
  rw [List.mem_map, get?_eq_some_iff hd]
  constructor
  · rintro ⟨⟨k, v⟩, hmem, rfl⟩
    rwa [hid k v ((get?_eq_some_iff hd).mpr hmem)]
  · intro hmem
    exact ⟨_, hmem, rfl⟩

theorem ascending_values : (d.map Prod.snd).Pairwise fun v w => order (id v) (id w) = .lt := by
  rw [List.pairwise_map]
  apply hd.imp_of_mem
  intro e a he ha hlt
  rwa [hid e.1 e.2 ((get?_eq_some_iff hd).mpr he), hid a.1 a.2 ((get?_eq_some_iff hd).mpr ha)]

end Values

end Lawful

theorem mem_startingAt {k : κ} {d : List (κ × ν)} (hd : Ascending order d) {e : κ × ν} :
    e ∈ startingAt order k d ↔ e ∈ d ∧ order k e.1 ≠ .gt := by
  induction d with
  | nil => simp [startingAt]
  | cons a d ih =>
    rw [startingAt, List.dropWhile_cons]
    by_cases hgt : order k a.1 = .gt
    · rw [if_pos (by simpa using hgt), ← startingAt, ih hd.tail, List.mem_cons]
      constructor
      · rintro ⟨h, hk⟩
        exact ⟨.inr h, hk⟩
      · rintro ⟨rfl | h, hk⟩
        · exact absurd hgt hk
        · exact ⟨h, hk⟩
    · rw [if_neg (by simpa using hgt)]
      refine ⟨fun h => ⟨h, ?_⟩, And.left⟩
      have hle : (order k a.1).isLE := Ordering.isLE_iff_ne_gt.mpr hgt
      rcases List.mem_cons.mp h with rfl | h
      · exact hgt
      · simp [TransCmp.lt_of_isLE_of_lt hle (hd.head_lt h)]

theorem startingAt_eq_filter {k : κ} {d : List (κ × ν)} (hd : Ascending order d) :
    startingAt order k d = d.filter fun e => order e.1 k ≠ .lt := by
  apply (hd.startingAt k).ext (List.Pairwise.filter _ hd)
  intro e
  rw [mem_startingAt hd, List.mem_filter, decide_eq_true_eq, ne_eq, ne_eq, OrientedCmp.gt_iff_lt]

theorem find?_startingAt {k j : κ} {d : List (κ × ν)} (hd : Ascending order d) :
    find? order j (startingAt order k d) = if order k j = .gt then none else find? order j d := by
  apply Option.ext
  intro e
  rw [find?_eq_some_iff (hd.startingAt k), mem_startingAt hd]
  split
  next hkj =>
    constructor
    · rintro ⟨⟨-, hk⟩, he⟩
      exact absurd (TransCmp.gt_of_gt_of_eq hkj he) hk
    · rintro ⟨⟩
  next hkj =>
    rw [find?_eq_some_iff hd]
    constructor
    · rintro ⟨⟨hm, -⟩, he⟩
      exact ⟨hm, he⟩
    · rintro ⟨hm, he⟩
      exact ⟨⟨hm, fun hk => hkj (TransCmp.gt_of_gt_of_eq hk (OrientedCmp.eq_symm he))⟩, he⟩

theorem mem_takeWhile_startingAt {k : κ} {d : List (κ × ν)} (hd : Ascending order d)
    {p : κ × ν → Bool} (hstart : ∀ e ∈ d, p e → order k e.1 ≠ .gt)
    (hconvex : ∀ a ∈ d, ∀ b ∈ d, order k a.1 ≠ .gt → order a.1 b.1 = .lt → p b → p a)
    {e : κ × ν} : e ∈ (startingAt order k d).takeWhile p ↔ e ∈ d ∧ p e := by
  have hfilter : ∀ l : List (κ × ν), Ascending order l →
      (∀ a ∈ l, a ∈ d ∧ order k a.1 ≠ .gt) → l.takeWhile p = l.filter p := by
    intro l hl hsub
    induction l with
    | nil => rfl
    | cons a l ih =>
      obtain ⟨had, hka⟩ := hsub a List.mem_cons_self
      by_cases hpa : p a
      · rw [List.takeWhile_cons_of_pos hpa, List.filter_cons_of_pos hpa,
          ih hl.tail fun b hb => hsub b (List.mem_cons_of_mem _ hb)]
      · rw [List.takeWhile_cons_of_neg hpa, List.filter_cons_of_neg hpa, eq_comm,
          List.filter_eq_nil_iff]
        intro b hb hpb
        have hbd := (hsub b (List.mem_cons_of_mem _ hb)).1
        exact hpa (hconvex a had b hbd hka (hl.head_lt hb) hpb)
  rw [hfilter _ (hd.startingAt k) fun a ha => (mem_startingAt hd).mp ha, List.mem_filter,
    mem_startingAt hd]
  constructor
  · rintro ⟨⟨he, -⟩, hp⟩
    exact ⟨he, hp⟩
  · rintro ⟨he, hp⟩
    exact ⟨⟨he, hstart e he hp⟩, hp⟩

end Trans

theorem length_insert {k : κ} {v : ν} {d : List (κ × ν)} :
    (insert order k v d).length =
      if (find? order k d).isSome then d.length else d.length + 1 := by
  induction d with
  | nil => simp [insert, find?]
  | cons a d ih =>
    cases h : order k a.1 with
    | lt => simp [insert, find?, h]
    | eq => simp [insert, find?, h]
    | gt =>
      simp only [insert, find?, h, List.length_cons, ih]
      split <;> rfl

theorem length_erase {k : κ} {d : List (κ × ν)} :
    (erase order k d).length =
      if (find? order k d).isSome then d.length - 1 else d.length := by
  induction d with
  | nil => simp [erase, find?]
  | cons a d ih =>
    cases h : order k a.1 with
    | lt => simp [erase, find?, h]
    | eq => simp [erase, find?, h]
    | gt =>
      simp only [erase, find?, h, List.length_cons, ih]
      cases d with
      | nil => simp [find?]
      | cons b d => split <;> simp

theorem insert_perm {k : κ} {v : ν} {d : List (κ × ν)} :
    (insert order k v d).Perm ((k, v) :: erase order k d) := by
  induction d with
  | nil => exact List.Perm.refl _
  | cons a d ih =>
    simp only [insert, erase]
    split
    · exact List.Perm.refl _
    · exact List.Perm.refl _
    · exact (ih.cons a).trans (List.Perm.swap ..)

theorem erase_of_find?_eq_none {k : κ} {d : List (κ × ν)} (h : find? order k d = none) :
    erase order k d = d := by
  induction d with
  | nil => rfl
  | cons a d ih =>
    simp only [find?] at h
    simp only [erase]
    split at h
    · rfl
    · contradiction
    · exact congrArg (a :: ·) (ih h)

theorem Ascending.append {d d' : List (κ × ν)} (h : Ascending order d) (h' : Ascending order d')
    (hlt : ∀ a ∈ d, ∀ b ∈ d', order a.1 b.1 = .lt) : Ascending order (d ++ d') :=
  List.pairwise_append.mpr ⟨h, h', hlt⟩

theorem find?_append_left {k : κ} {d d' : List (κ × ν)} (h : ∀ e ∈ d', order k e.1 = .lt) :
    find? order k (d ++ d') = find? order k d := by
  induction d with
  | nil =>
    cases d' with
    | nil => rfl
    | cons a d' => simp [find?, h a List.mem_cons_self]
  | cons a d ih => simp only [List.cons_append, find?, ih]

theorem find?_append_right {k : κ} {d d' : List (κ × ν)} (h : ∀ e ∈ d, order k e.1 = .gt) :
    find? order k (d ++ d') = find? order k d' := by
  induction d with
  | nil => rfl
  | cons a d ih =>
    rw [List.cons_append, find?, h a List.mem_cons_self]
    exact ih fun e he => h e (List.mem_cons_of_mem _ he)

theorem insert_append_left {k : κ} {v : ν} {d d' : List (κ × ν)}
    (h : ∀ e ∈ d', order k e.1 = .lt) :
    insert order k v (d ++ d') = insert order k v d ++ d' := by
  induction d with
  | nil =>
    cases d' with
    | nil => rfl
    | cons a d' => simp [insert, h a List.mem_cons_self]
  | cons a d ih =>
    simp only [List.cons_append, insert, ih]
    split <;> rfl

theorem insert_append_right {k : κ} {v : ν} {d d' : List (κ × ν)}
    (h : ∀ e ∈ d, order k e.1 = .gt) :
    insert order k v (d ++ d') = d ++ insert order k v d' := by
  induction d with
  | nil => rfl
  | cons a d ih =>
    rw [List.cons_append, insert, h a List.mem_cons_self]
    exact congrArg (a :: ·) (ih fun e he => h e (List.mem_cons_of_mem _ he))

theorem erase_append_left {k : κ} {d d' : List (κ × ν)} (h : ∀ e ∈ d', order k e.1 = .lt) :
    erase order k (d ++ d') = erase order k d ++ d' := by
  induction d with
  | nil =>
    cases d' with
    | nil => rfl
    | cons a d' => simp [erase, h a List.mem_cons_self]
  | cons a d ih =>
    simp only [List.cons_append, erase, ih]
    split <;> rfl

theorem erase_append_right {k : κ} {d d' : List (κ × ν)} (h : ∀ e ∈ d, order k e.1 = .gt) :
    erase order k (d ++ d') = d ++ erase order k d' := by
  induction d with
  | nil => rfl
  | cons a d ih =>
    rw [List.cons_append, erase, h a List.mem_cons_self]
    exact congrArg (a :: ·) (ih fun e he => h e (List.mem_cons_of_mem _ he))

theorem startingAt_append_left {k : κ} {d d' : List (κ × ν)} (h : ∀ e ∈ d', order k e.1 = .lt) :
    startingAt order k (d ++ d') = startingAt order k d ++ d' := by
  induction d with
  | nil =>
    cases d' with
    | nil => rfl
    | cons a d' => simp [startingAt, h a List.mem_cons_self]
  | cons a d ih =>
    simp only [startingAt, List.cons_append, List.dropWhile_cons] at ih ⊢
    split
    · exact ih
    · rfl

theorem startingAt_append_right {k : κ} {d d' : List (κ × ν)} (h : ∀ e ∈ d, order k e.1 = .gt) :
    startingAt order k (d ++ d') = startingAt order k d' := by
  induction d with
  | nil => rfl
  | cons a d ih =>
    rw [startingAt, List.cons_append, List.dropWhile_cons_of_pos (by simp [h a List.mem_cons_self])]
    exact ih fun e he => h e (List.mem_cons_of_mem _ he)

section Agreement

variable {order' : κ → κ → Ordering} {k : κ} {v : ν} {d : List (κ × ν)}

theorem insert_of_agree (h : ∀ e ∈ d, order k e.1 = order' k e.1) :
    insert order k v d = insert order' k v d := by
  induction d with
  | nil => rfl
  | cons a d ih =>
    simp only [insert, h a List.mem_cons_self, ih fun e he => h e (List.mem_cons_of_mem _ he)]

theorem erase_of_agree (h : ∀ e ∈ d, order k e.1 = order' k e.1) :
    erase order k d = erase order' k d := by
  induction d with
  | nil => rfl
  | cons a d ih =>
    simp only [erase, h a List.mem_cons_self, ih fun e he => h e (List.mem_cons_of_mem _ he)]

theorem startingAt_of_agree (h : ∀ e ∈ d, order k e.1 = order' k e.1) :
    startingAt order k d = startingAt order' k d := by
  induction d with
  | nil => rfl
  | cons a d ih =>
    simp only [startingAt, List.dropWhile_cons] at ih ⊢
    rw [h a List.mem_cons_self, ih fun e he => h e (List.mem_cons_of_mem _ he)]

theorem ascending_of_agree (h : ∀ a ∈ d, ∀ b ∈ d, order a.1 b.1 = order' a.1 b.1) :
    Ascending order d ↔ Ascending order' d := by
  refine List.Pairwise.iff_of_mem ?_
  intro a b ha hb
  rw [h a ha b hb]

end Agreement

end ObjectGraph.Dictionary
