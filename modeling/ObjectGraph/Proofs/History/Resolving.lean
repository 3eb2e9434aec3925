import ObjectGraph.Proofs.History.Recording
import ObjectGraph.Proofs.History.RoundTrip

namespace ObjectGraph

open Stateful (Ends)

namespace LinkedDraft

open Draft (lengthOf lengthOf_cons openBlock?)

variable {capacity pageSize : Nat} {l : LinkedDraft} {d : Draft} {σ : Type} {s : σ}

theorem ends_inside {α : Type} {m : Linking α} {r : Except Error α} {l' : LinkedDraft} (h : Ends m l r l') (s : σ) :
    Ends (inside m : Resolving σ α) (l, s) r (l', s) := by
  change (m.run.run l).map _ = _
  rw [h]
  rfl

theorem ends_outside {α : Type} {m : ExceptT Error (StateM σ) α} {r : Except Error α} {t : σ}
    (h : m.run s = (r, t)) (l : LinkedDraft) : Ends (outside m : Resolving σ α) (l, s) r (l, t) := by
  change some ((m.run s).1, l, (m.run s).2) = _
  rw [h]

theorem ends_reader_bind {τ α β : Type} {m : Reader α} {a : α} {f : α → ExceptT Error (StateT τ Option) β} {t u : τ}
    {r : Except Error β} (h : Reader.Comes m (.ok a)) (hf : Ends (f a) t r u) :
    Ends ((liftM m : ExceptT Error (StateT τ Option) α) >>= f) t r u := (ends_reader h t).bind hf

theorem Lays.bytes_eq (h : Lays capacity pageSize l d) : l.bytes = some d.bytes := by
  rw [bytes, h.carries.contents_eq, List.flatten_singleton]

theorem Lays.bytes_length_le (h : Lays capacity pageSize l d) : d.bytes.length ≤ Quota.maxCapacity := by
  rw [d.length_bytes]
  exact h.lengthOf_le.trans h.capacity_le

section Reads

variable {bs : Bytes} {offset n : Nat}

theorem comes_id {a : Id} (hbs : bs.length ≤ Quota.maxCapacity) (h : Bytes.HasAt bs offset a.bytes) :
    Reader.Comes (Reader.id bs offset) (.ok a) := by
  have hle := h.le_length (List.ne_nil_of_length_pos (by rw [a.length_bytes]; decide))
  have hmax : Quota.maxCapacity < 1 <<< 64 := by decide
  rw [a.length_bytes] at hle
  rw [← RecordBytes.id_eq h]
  exact Reader.comes_id (by omega)

theorem comes_number (hbs : bs.length ≤ Quota.maxCapacity) (h : Bytes.HasAt bs offset (Bytes.littleEndian 4 n))
    (hn : n < 1 <<< 32) : Reader.Comes (Reader.number bs offset) (.ok n) := by
  have hle := h.le_length (List.ne_nil_of_length_pos (by rw [Bytes.length_littleEndian]; decide))
  have hmax : Quota.maxCapacity < 1 <<< 64 := by decide
  rw [Bytes.length_littleEndian] at hle
  rw [← RecordBytes.number_eq h hn]
  exact Reader.comes_number (by omega)

end Reads

theorem openBlock?_congr {blocks blocks' : List Block} (h : blocks.map Block.contents = blocks'.map Block.contents) :
    openBlock? blocks = openBlock? blocks' := by
  cases blocks with
  | nil =>
    rw [List.map_nil, List.nil_eq, List.map_eq_nil_iff] at h
    rw [h]
  | cons b rest =>
    obtain _ | ⟨b', rest'⟩ := blocks'
    · contradiction
    obtain ⟨hb, hrest⟩ := List.cons.inj h
    obtain ⟨hobject, hitems⟩ := Prod.mk.inj hb
    rw [openBlock?, openBlock?, hobject, hitems, Draft.lengthOf_congr hrest]

theorem Lays.retype (h : Lays capacity pageSize l d) {blocks : List Block} {arena : Arena}
    (hcarries : arena.Carries capacity pageSize [{ d with blocks }.bytes])
    (hcontents : blocks.map Block.contents = d.blocks.map Block.contents) :
    Lays capacity pageSize { l with arena } { d with blocks } := by
  have hobjects : blocks.map Block.object = d.blocks.map Block.object := by
    have hmap := congrArg (List.map Prod.fst) hcontents
    rwa [List.map_map, List.map_map] at hmap
  have hcurrent : l.current = openBlock? blocks := by rw [h.current_eq, openBlock?_congr hcontents]
  have hlays := h.within hcarries hobjects hcurrent (by rw [h.current_eq])
  rw [Draft.lengthOf_congr hcontents, ← h.quota_eq] at hlays
  exact hlays

theorem sum_eq_of_hasAt {bs part : Bytes} {base n : Nat} (hbs : bs.length ≤ Quota.maxCapacity) (hpart : part ≠ [])
    (h : Bytes.HasAt bs (base + n) part) : Reader.sum base n = some (base + n) := by
  have hle := h.le_length hpart
  have hmax : Quota.maxCapacity < 1 <<< 64 := by decide
  exact Reader.sum_eq (by omega)

theorem resolveType_of_read (h : Lays capacity pageSize l d) {later rest : List Block} {b : Block}
    (hblocks : d.blocks = later ++ b :: rest) {lookup : TypeLookup σ} {r : Except Error Unit} {t : LinkedDraft × σ}
    (hread : Ends (if b.type = Id.nil then outside (lookup b.object) >>= fun type =>
      type.forM fun type => inside (put (lengthOf rest + 16) type.bytes) else pure ⟨⟩) (l, s) r t) :
    Ends (resolveType lookup d.bytes (lengthOf rest) b.object) (l, s) r t := by
  obtain ⟨quota, time, actor, blocks, deleted⟩ := d
  obtain rfl : blocks = later ++ b :: rest := hblocks
  have hbs := h.bytes_length_le
  have htype := (Draft.hasBlock ⟨quota, time, actor, [], deleted⟩ later b rest).type
  have hsum := sum_eq_of_hasAt hbs (List.ne_nil_of_length_pos (by rw [b.type.length_bytes]; decide)) htype
  exact ends_option_bind hsum (ends_reader_bind (comes_id hbs htype) hread)

theorem resolveType_ends (h : Lays capacity pageSize l d) {later rest : List Block} {b : Block}
    (hblocks : d.blocks = later ++ b :: rest) (lookup : TypeLookup σ) (s : σ) :
    match (b.resolve lookup).run s with
    | (.ok b', t) => ∃ l', Ends (resolveType lookup d.bytes (lengthOf rest) b.object) (l, s) (.ok ⟨⟩) (l', t) ∧
        Lays capacity pageSize l' { d with blocks := later ++ b' :: rest }
    | (.error e, t) => Ends (resolveType lookup d.bytes (lengthOf rest) b.object) (l, s) (.error e) (l, t) := by
  obtain ⟨quota, time, actor, blocks, deleted⟩ := d
  obtain rfl : blocks = later ++ b :: rest := hblocks
  let d : Draft := ⟨quota, time, actor, later ++ b :: rest, deleted⟩
  have hread {r : Except Error Unit} {t : LinkedDraft × σ} := @resolveType_of_read capacity pageSize l d σ s h
    later rest b rfl lookup r t
  rw [Block.resolve]
  by_cases hnil : b.type = Id.nil
  · simp only [if_pos hnil] at hread ⊢
    rcases hlookup : (lookup b.object).run s with ⟨e | type, t⟩
    · rw [Stateful.run_bind_of_error hlookup]
      exact hread (ends_outside hlookup l).bind_error
    · rw [Stateful.run_bind_of_ok hlookup]
      cases type with
      | none =>
        refine ⟨l, hread ((ends_outside hlookup l).bind (.pure _ _)), ?_⟩
        rw [Option.getD_none, ← hnil]
        exact h
      | some type =>
        obtain ⟨before, after, hbefore, hbytes⟩ := d.exists_type later rest b.object b.items
        obtain ⟨arena, hput, hcarries⟩ := @Writes.put capacity pageSize (lengthOf rest + 16) type.bytes l before _ after
          h.capacity_le (h.carries.regroup (List.flatten_singleton.trans (hbytes b.type))) hbefore
          (by rw [Id.length_bytes, Id.length_bytes])
        refine ⟨{ l with arena }, hread ((ends_outside hlookup l).bind (ends_inside hput t)), ?_⟩
        exact h.retype (hcarries.regroup ((hbytes type).symm.trans List.flatten_singleton.symm)) (by simp [Block.contents])
  · simp only [if_neg hnil] at hread ⊢
    exact ⟨l, hread (.pure _ _), h⟩

theorem Lays.lengthOf_lt (h : Lays capacity pageSize l d) {later rest : List Block}
    (hblocks : d.blocks = later ++ rest) : lengthOf rest < 1 <<< 32 := by
  have hle : lengthOf rest ≤ lengthOf d.blocks := by
    simp only [hblocks, lengthOf, List.map_append, List.sum_append]
    omega
  have hmax : Quota.maxCapacity < 1 <<< 32 := by decide
  exact Nat.lt_of_le_of_lt ((hle.trans h.lengthOf_le).trans h.capacity_le) hmax

theorem resolveFrom_of_read (h : Lays capacity pageSize l d) {todo rest : List Block} {b : Block}
    (hblocks : d.blocks = todo.reverse ++ b :: rest) {lookup : TypeLookup σ} {r : Except Error Unit}
    {t : LinkedDraft × σ} (hread : Ends (resolveType lookup d.bytes (lengthOf rest) b.object >>= fun _ =>
      lookup.resolveFrom (if todo.isEmpty then 0 else lengthOf (b :: rest))) (l, s) r t) :
    Ends (lookup.resolveFrom (lengthOf rest)) (l, s) r t := by
  have hlt := h.lengthOf_lt hblocks
  obtain ⟨quota, time, actor, blocks, deleted⟩ := d
  obtain rfl : blocks = todo.reverse ++ b :: rest := hblocks
  have hbs := h.bytes_length_le
  have hblock := Draft.hasBlock ⟨quota, time, actor, [], deleted⟩ todo.reverse b rest
  rw [List.isEmpty_reverse] at hblock
  have hsum := sum_eq_of_hasAt hbs (List.ne_nil_of_length_pos (by rw [Bytes.length_littleEndian]; decide)) hblock.next
  have hpos : lengthOf rest ≠ 0 := by
    rw [lengthOf, Draft.headLength]
    omega
  have hnext : (if todo.isEmpty then 0 else lengthOf (b :: rest)) < 1 <<< 32 := by
    split
    · decide
    · exact hlt
  rw [TypeLookup.resolveFrom, if_neg hpos]
  exact .get_bind (ends_option_bind h.bytes_eq (ends_reader_bind (comes_id hbs hblock.object)
    (ends_option_bind hsum (ends_reader_bind (comes_number hbs hblock.next hnext) hread))))

theorem resolveFrom_ends (lookup : TypeLookup σ) (todo rest : List Block) (h : Lays capacity pageSize l d)
    (hblocks : d.blocks = todo.reverse ++ rest) (s : σ) :
    ∃ l', Ends (lookup.resolveFrom (if todo.isEmpty then 0 else lengthOf rest)) (l, s)
        (Draft.resolveBlocks lookup todo s).1 (l', (Draft.resolveBlocks lookup todo s).2.2) ∧
      Lays capacity pageSize l' { d with blocks := (Draft.resolveBlocks lookup todo s).2.1.reverse ++ rest } := by
  induction todo generalizing rest l d s with
  | nil =>
    rw [List.reverse_nil, List.nil_append] at hblocks
    refine ⟨l, ?_, ?_⟩
    · rw [TypeLookup.resolveFrom]
      exact .pure _ _
    · subst hblocks
      exact h
  | cons b todo ih =>
    rw [List.reverse_cons, List.append_assoc, List.singleton_append] at hblocks
    have htype := resolveType_ends h hblocks lookup s
    obtain ⟨quota, time, actor, blocks, deleted⟩ := d
    obtain rfl : blocks = todo.reverse ++ b :: rest := hblocks
    rw [List.isEmpty_cons, if_neg Bool.false_ne_true, Draft.resolveBlocks]
    rcases hresolve : (b.resolve lookup).run s with ⟨e | b', t⟩
    · rw [hresolve] at htype
      refine ⟨l, resolveFrom_of_read h rfl htype.bind_error, ?_⟩
      simpa using h
    · rw [hresolve] at htype
      obtain ⟨l', htype, hlays⟩ := htype
      obtain ⟨type, rfl⟩ := Draft.resolve_eq_ok hresolve
      obtain ⟨l'', hrest, hlays⟩ := ih ({ b with type } :: rest) hlays rfl t
      refine ⟨l'', resolveFrom_of_read h rfl (htype.bind hrest), ?_⟩
      simpa using hlays

theorem resolve_ends (lookup : TypeLookup σ) (h : Lays capacity pageSize l d) (s : σ) :
    ∃ l', Ends (resolve lookup) (l, s) ((Draft.resolve lookup).run (d, s)).1
        (l', ((Draft.resolve lookup).run (d, s)).2.2) ∧
      Lays capacity pageSize l' ((Draft.resolve lookup).run (d, s)).2.1 := by
  have hfirst := comes_number h.bytes_length_le d.hasAt_firstBlock (by split <;> decide)
  obtain ⟨l', hends, hlays⟩ := resolveFrom_ends lookup d.blocks.reverse [] h (by simp) s
  refine ⟨l', .get_bind (ends_option_bind h.bytes_eq (ends_reader_bind hfirst ?_)), ?_⟩
  · rw [List.isEmpty_reverse] at hends
    exact hends
  · rw [List.append_nil] at hlays
    exact hlays

end LinkedDraft

end ObjectGraph
