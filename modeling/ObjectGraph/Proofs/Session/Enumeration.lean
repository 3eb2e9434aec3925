import ObjectGraph.Proofs.Key.Intervals
import ObjectGraph.Proofs.Session.Records

namespace ObjectGraph

open Dictionary (Ascending)

variable {d : List Entry}

theorem entryIsA_spec (schema : Schema) (type : Id) {k : Key} {v : Bytes}
    (htyped : ∀ a : Id, k = .object a → ∃ t : Id, v = t.bytes) :
    ∃ found, entryIsA schema type k.owner (k.bytes, v) = .ok found ∧
      ∀ a, (found = true ∧ a = k.owner) ↔
        ∃ t : Id, (a.bytes, t.bytes) = (k.bytes, v) ∧ schema.isA t type := by
  by_cases hlength : k.bytes.length = 16
  · obtain ⟨b, rfl⟩ : ∃ b : Id, k = .object b := ⟨⟨k.bytes, hlength⟩, Key.bytes_injective rfl⟩
    obtain ⟨t, rfl⟩ := htyped b rfl
    refine ⟨schema.isA t type, ?_, fun a => ?_⟩
    · rw [entryIsA, if_pos hlength, recordedType, Id.ofBytes?_bytes]
      rfl
    · constructor
      · rintro ⟨hisA, rfl⟩
        exact ⟨t, rfl, hisA⟩
      · rintro ⟨t', hentry, hisA⟩
        obtain ⟨ha, ht⟩ := Prod.mk.inj hentry
        rw [Id.bytes_injective ht] at hisA
        exact ⟨hisA, Id.bytes_injective ha⟩
  · refine ⟨false, by rw [entryIsA, if_neg hlength]; rfl, fun a => ?_⟩
    refine iff_of_false (fun h => Bool.false_ne_true h.1) ?_
    rintro ⟨t, hentry, -⟩
    exact hlength (by rw [← (Prod.mk.inj hentry).1, a.length_bytes])

theorem lt_of_mem_rest {k : Key} {v : Bytes} {rest : List Entry}
    (hd : Ascending KeyOrder.lexicographic ((k.bytes, v) :: rest)) {a : Id} {w : Bytes}
    (ha : (a.bytes, w) ∈ rest) : k.owner.toNat < a.toNat := Key.owner_lt_of_lt (hd.head_lt ha)

theorem mem_unskipped {k : Key} {v : Bytes} {rest : List Entry}
    (hd : Ascending KeyOrder.lexicographic ((k.bytes, v) :: rest)) {next : Bytes}
    (hnext : Key.afterOwner? k.owner = some next) {a : Id} {w : Bytes} :
    (a.bytes, w) ∈ rest.dropWhile (fun e => compare e.1 next = .lt) ↔ (a.bytes, w) ∈ rest := by
  have hskip : (fun e : Entry => decide (compare e.1 next = .lt)) =
      fun e => decide (KeyOrder.lexicographic next e.1 = .gt) := by
    funext e
    exact decide_eq_decide.mpr Std.OrientedCmp.gt_iff_lt.symm
  rw [hskip, ← Dictionary.startingAt, Dictionary.mem_startingAt hd.tail, and_iff_left_iff_imp]
  intro ha
  have hlt := lt_of_mem_rest hd ha
  obtain ⟨b, hb, rfl⟩ := Option.map_eq_some_iff.mp hnext
  rw [KeyOrder.lexicographic, ne_eq, Std.OrientedCmp.gt_iff_lt, Id.compare_bytes_eq_lt,
    Id.toNat_of_next? hb]
  exact Nat.not_lt.mpr hlt

theorem objectsAmong_cons {schema : Schema} {type owner : Id} {e : Entry} {rest : List Entry} {found : Bool}
    (howner : Key.owner? e.1 = some owner) (hfound : entryIsA schema type owner e = .ok found) :
    objectsAmong schema type (e :: rest) =
      match Key.afterOwner? owner with
      | none => .ok (if found then [owner] else [])
      | some next => (objectsAmong schema type (rest.dropWhile (compare ·.1 next = .lt))).map
          ((if found then [owner] else []) ++ ·) := by
  rw [objectsAmong, howner]
  dsimp only
  rw [hfound, Stateful.ok_bind]
  cases Key.afterOwner? owner with
  | none => rfl
  | some next =>
    dsimp only
    cases objectsAmong schema type (rest.dropWhile (compare ·.1 next = .lt)) <;> rfl

theorem objectsAmong_spec (schema : Schema) (type : Id) (hd : Ascending KeyOrder.lexicographic d)
    (hkeyed : Keyed d) (htyped : ∀ (a : Id) v, (a.bytes, v) ∈ d → ∃ t : Id, v = t.bytes) :
    ∃ ids, objectsAmong schema type d = .ok ids ∧ ids.Pairwise (compare · · = .lt) ∧
      ∀ a, a ∈ ids ↔ ∃ t : Id, (a.bytes, t.bytes) ∈ d ∧ schema.isA t type := by
  induction hlength : d.length using Nat.strongRecOn generalizing d with
  | _ n ih =>
    cases d with
    | nil => exact ⟨[], by rw [objectsAmong], .nil, by simp⟩
    | cons e rest =>
      obtain ⟨bytes, v⟩ := e
      obtain ⟨k, rfl⟩ := hkeyed _ List.mem_cons_self
      have htype : ∀ a : Id, k = .object a → ∃ t : Id, v = t.bytes := by
        rintro a rfl
        exact htyped a v List.mem_cons_self
      obtain ⟨found, hfound, hfirst⟩ := entryIsA_spec schema type htype
      have hlisted : ∀ a, a ∈ (if found = true then [k.owner] else []) ↔ found = true ∧ a = k.owner := by
        intro a
        cases found <;> simp
      have hmem : ∀ a, (∃ t : Id, (a.bytes, t.bytes) ∈ (k.bytes, v) :: rest ∧ schema.isA t type) ↔
          a ∈ (if found = true then [k.owner] else []) ∨
            ∃ t : Id, (a.bytes, t.bytes) ∈ rest ∧ schema.isA t type := by
        intro a
        simp only [hlisted, hfirst, List.mem_cons, or_and_right, exists_or]
      rw [objectsAmong_cons k.owner?_bytes hfound]
      cases hafter : Key.afterOwner? k.owner with
      | none =>
        -- No identifier is left for an object to follow.
        have hnone : ∀ a : Id, ¬ ∃ t : Id, (a.bytes, t.bytes) ∈ rest ∧ schema.isA t type := by
          rintro a ⟨t, ha, -⟩
          have hle := Id.le_of_next?_eq_none (Option.map_eq_none_iff.mp hafter) a
          exact Nat.not_le.mpr (lt_of_mem_rest hd ha) hle
        refine ⟨_, rfl, by cases found <;> simp, fun a => ?_⟩
        rw [hmem, or_iff_left (hnone a)]
      | some next =>
        have hsublist := List.dropWhile_sublist (l := rest) fun e => decide (compare e.1 next = .lt)
        have hsubset : rest.dropWhile (fun e => decide (compare e.1 next = .lt)) ⊆ (k.bytes, v) :: rest :=
          fun _ he => List.mem_cons_of_mem _ (hsublist.subset he)
        obtain ⟨ids, hids, hascending, hmem'⟩ := ih _ (hlength ▸ Nat.lt_succ_of_le hsublist.length_le)
          (hd.tail.sublist hsublist) (fun e he => hkeyed e (hsubset he))
          (fun (a : Id) w ha => htyped a w (hsubset ha)) rfl
        simp only [mem_unskipped hd hafter] at hmem'
        refine ⟨_, congrArg (Except.map _) hids, ?_, fun a => ?_⟩
        · refine List.pairwise_append.mpr ⟨by cases found <;> simp, hascending, ?_⟩
          intro a ha b hb
          obtain ⟨-, rfl⟩ := (hlisted a).mp ha
          obtain ⟨t, hb, -⟩ := (hmem' b).mp hb
          exact Id.compare_bytes_eq_lt.mpr (lt_of_mem_rest hd hb)
        · rw [hmem, List.mem_append, hmem']

end ObjectGraph
