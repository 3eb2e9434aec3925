import ObjectGraph.Proofs.Database.SingleWriter
import ObjectGraph.Proofs.Session.Enumeration
import ObjectGraph.Proofs.Workspace.ReadYourWrites

namespace ObjectGraph

open Dictionary (Ascending)

namespace Key

def IsValue : Key → Prop
  | field _ _ => True
  | _ => False

def IsEdge : Key → Prop
  | association _ => True
  | _ => False

instance : DecidablePred IsValue
  | object _ => .isFalse id
  | field _ _ => .isTrue trivial
  | association _ => .isFalse id

theorem compare_field_association {a f : Id} {h : Half} (howner : h.object = a) :
    compare (field a f).bytes (association h).bytes = .lt ↔ f.toNat ≤ h.field.toNat := by
  obtain ⟨b, g, other, otherField⟩ := h
  obtain rfl : b = a := howner
  have hrest : compare [] (other.bytes ++ otherField.bytes) = .lt := by
    cases hother : other.bytes with
    | nil => exact absurd (hother ▸ other.length_bytes) (by simp)
    | cons x xs => rfl
  have hfields : compare (field b f).bytes (association ⟨b, g, other, otherField⟩).bytes =
      (compare f.bytes g.bytes).then .lt := by
    rw [bytes, bytes, Half.bytes, List.append_assoc, List.append_assoc, KeyOrder.compare_append_left,
      ← List.append_nil f.bytes, Id.compare_append, hrest, List.append_nil]
  rw [hfields, ← Id.isLE_compare_iff]
  change _ ↔ (compare f.bytes g.bytes).isLE
  cases compare f.bytes g.bytes <;> simp

end Key

theorem Dictionary.startingAt_of_mem {κ ν : Type} {order : κ → κ → Ordering} [Std.TransCmp order]
    {d : List (κ × ν)} (hd : Ascending order d) {e : κ × ν} (he : e ∈ d) :
    ∃ rest, startingAt order e.1 d = e :: rest := by
  have hmem : e ∈ startingAt order e.1 d :=
    (mem_startingAt hd).mpr ⟨he, by simp [Std.ReflCmp.compare_self]⟩
  cases hahead : startingAt order e.1 d with
  | nil => simp [hahead] at hmem
  | cons first rest =>
    have hge := ((mem_startingAt hd).mp (hahead ▸ List.mem_cons_self)).2
    have hseek : Ascending order (first :: rest) := hahead ▸ hd.startingAt e.1
    rw [hahead] at hmem
    rcases List.mem_cons.mp hmem with rfl | hrest
    · exact ⟨rest, rfl⟩
    · exact absurd (Std.OrientedCmp.gt_of_lt (hseek.head_lt hrest)) hge

def ByKind (records : List (Key × Bytes)) : Prop :=
  ∃ values edges, records = values ++ edges ∧ (∀ r ∈ values, r.1.IsValue) ∧ ∀ r ∈ edges, r.1.IsEdge

def recordEntry (r : Key × Bytes) : Entry := (r.1.bytes, r.2)

theorem Keyed.exists_records {d : List Entry} (h : Keyed d) :
    ∃ records : List (Key × Bytes), records.map recordEntry = d := by
  induction d with
  | nil => exact ⟨[], rfl⟩
  | cons e d ih =>
    obtain ⟨k, hk⟩ := h e List.mem_cons_self
    obtain ⟨records, hrecords⟩ := ih fun e he => h e (List.mem_cons_of_mem _ he)
    exact ⟨(k, e.2) :: records, congrArg₂ List.cons (Prod.ext hk.symm rfl) hrecords⟩

theorem mem_map_recordEntry {records : List (Key × Bytes)} {k : Key} {v : Bytes} :
    (k.bytes, v) ∈ records.map recordEntry ↔ (k, v) ∈ records := by
  constructor
  · intro h
    obtain ⟨⟨k', v'⟩, hmem, heq⟩ := List.mem_map.mp h
    obtain ⟨hk, rfl⟩ := Prod.mk.inj heq
    rwa [← Key.bytes_injective hk]
  · exact fun h => List.mem_map_of_mem (f := recordEntry) h

section ByKind

variable {records : List (Key × Bytes)} {a : Id}

theorem byKind_iff (hsorted : Ascending KeyOrder.lexicographic (records.map recordEntry))
    (hkind : ∀ r ∈ records, r.1.IsValue ∨ r.1.IsEdge) :
    ByKind records ↔ ∀ r ∈ records, ∀ r' ∈ records, r.1.IsValue → r'.1.IsEdge →
      compare r.1.bytes r'.1.bytes = .lt := by
  have hpairwise : records.Pairwise fun r r' => compare r.1.bytes r'.1.bytes = .lt :=
    List.pairwise_map.mp hsorted
  constructor
  · rintro ⟨values, edges, rfl, hvalues, hedges⟩ r hr r' hr' hvalue hedge
    have hr : r ∈ values := by
      refine (List.mem_append.mp hr).resolve_right fun hr => ?_
      have hr := hedges r hr
      cases hk : r.1 <;> simp_all [Key.IsValue, Key.IsEdge]
    have hr' : r' ∈ edges := by
      refine (List.mem_append.mp hr').resolve_left fun hr' => ?_
      have hr' := hvalues r' hr'
      cases hk : r'.1 <;> simp_all [Key.IsValue, Key.IsEdge]
    exact (List.pairwise_append.mp hpairwise).2.2 r hr r' hr'
  · intro hbefore
    let values := records.filter fun r => r.1.IsValue
    let edges := records.filter fun r => ¬ r.1.IsValue
    have hvalues : ∀ r ∈ values, r ∈ records ∧ r.1.IsValue := by simp [values]
    have hedges : ∀ r ∈ edges, r ∈ records ∧ r.1.IsEdge := by
      intro r hr
      have hr := List.mem_filter.mp hr
      exact ⟨hr.1, (hkind r hr.1).resolve_left (by simpa using hr.2)⟩
    -- two ascending lists of the same records
    have hgrouped : (values ++ edges).Pairwise fun r r' => compare r.1.bytes r'.1.bytes = .lt :=
      List.pairwise_append.mpr ⟨hpairwise.filter _, hpairwise.filter _, fun r hr r' hr' =>
        hbefore r (hvalues r hr).1 r' (hedges r' hr').1 (hvalues r hr).2 (hedges r' hr').2⟩
    have hperm : (values ++ edges).Perm records := by
      simpa [values, edges] using List.filter_append_perm (fun r : Key × Bytes => decide r.1.IsValue) records
    have heq : values ++ edges = records := by
      refine hperm.eq_of_pairwise (fun r r' _ _ hlt hgt => ?_) hgrouped hpairwise
      rw [Std.OrientedCmp.gt_of_lt hlt] at hgt
      contradiction
    exact ⟨values, edges, heq.symm, fun r hr => (hvalues r hr).2, fun r hr => (hedges r hr).2⟩

end ByKind

namespace Workspace

/-- What a cursor sought at an identifier visits, wherever it has been before: the entry of an object, all
other records that the object owns, and then what others own. -/
structure Visits (w : Workspace) (a : Id) (type : Bytes) (records : List (Key × Bytes))
    (later : List Entry) : Prop where
  current? : ∀ (moves : List CursorMove) (n : Nat),
    (MergedCursor.advance^[n] ((w.cursorAfter moves).seek a.bytes)).current? =
      ((a.bytes, type) :: records.map recordEntry ++ later)[n]?
  mem_records : ∀ k v, (k, v) ∈ records ↔ k.owner = a ∧ k ≠ .object a ∧ w.get? k.bytes = some v
  later : ∀ e ∈ later, Key.owner? e.1 ≠ some a

variable {w : Workspace} {a : Id} {type : Bytes} {records : List (Key × Bytes)} {later : List Entry}

theorem Visits.startingAt_eq (h : w.Visits a type records later) (hw : w.Valid KeyOrder.lexicographic) :
    Dictionary.startingAt KeyOrder.lexicographic a.bytes w.view =
      (a.bytes, type) :: records.map recordEntry ++ later := by
  apply List.ext_getElem?
  intro n
  rw [← hw.reads.seek [] a.bytes n, h.current? [] n]

theorem Visits.ascending (h : w.Visits a type records later) (hw : w.Valid KeyOrder.lexicographic) :
    Ascending KeyOrder.lexicographic (records.map recordEntry) := by
  have hseek := hw.ascending_view.startingAt a.bytes
  rw [h.startingAt_eq hw] at hseek
  exact (hseek.sublist (List.sublist_append_left _ _)).tail

theorem Visits.byKind_iff (h : w.Visits a type records later) (hw : w.Valid KeyOrder.lexicographic) :
    ByKind records ↔ ∀ (f : Id) (e : Half), w.contains (Key.field a f).bytes →
      w.contains (Key.association e).bytes → e.object = a → f.toNat ≤ e.field.toNat := by
  have hkind : ∀ r ∈ records, r.1.IsValue ∨ r.1.IsEdge := by
    rintro ⟨k, v⟩ hr
    obtain ⟨howner, hne, -⟩ := (h.mem_records k v).mp hr
    cases k with
    | object b => exact absurd (congrArg Key.object howner) hne
    | field _ _ => exact .inl trivial
    | association _ => exact .inr trivial
  have hvisible (k : Key) (howner : k.owner = a) (hne : k ≠ .object a) :
      w.contains k.bytes = true ↔ ∃ v, (k, v) ∈ records := by
    simp only [h.mem_records, howner, true_and, hw.contains_eq, hw.get?_eq, ← Dictionary.isSome_get?,
      Option.isSome_iff_exists, hne, ne_eq, not_false_eq_true]
  rw [ObjectGraph.byKind_iff (h.ascending hw) hkind]
  constructor
  · intro hbefore f e hf he howner
    obtain ⟨v, hv⟩ := (hvisible (.field a f) rfl (by simp)).mp hf
    obtain ⟨x, hx⟩ := (hvisible (.association e) howner (by simp)).mp he
    exact (Key.compare_field_association howner).mp (hbefore _ hv _ hx trivial trivial)
  · rintro hfields ⟨k, v⟩ hr ⟨k', v'⟩ hr' hvalue hedge
    have hk := (h.mem_records k v).mp hr
    have hk' := (h.mem_records k' v').mp hr'
    cases k with
    | field b f =>
      cases k' with
      | association e =>
        obtain rfl : b = a := hk.1
        refine (Key.compare_field_association hk'.1).mpr (hfields f e ?_ ?_ hk'.1)
        · exact (hvisible _ rfl (by simp)).mpr ⟨v, hr⟩
        · exact (hvisible _ hk'.1 (by simp)).mpr ⟨v', hr'⟩
      | _ => exact hedge.elim
    | _ => exact hvalue.elim

theorem Valid.exists_visits (h : w.Valid KeyOrder.lexicographic) (hkeyed : Keyed w.view)
    (ha : w.contains (Key.object a).bytes) : ∃ type records later, w.Visits a type records later := by
  have hascending := h.ascending_view
  rw [h.contains_eq, ← Dictionary.isSome_get?, Option.isSome_iff_exists] at ha
  obtain ⟨type, htype⟩ := ha
  have hobject : (a.bytes, type) ∈ w.view := (Dictionary.get?_eq_some_iff hascending).mp htype
  obtain ⟨rest, hahead⟩ := Dictionary.startingAt_of_mem hascending hobject
  dsimp only at hahead
  have hseek : Ascending KeyOrder.lexicographic ((a.bytes, type) :: rest) :=
    hahead ▸ hascending.startingAt a.bytes
  have hsubset {e : Entry} (he : e ∈ rest) : e ∈ w.view :=
    ((Dictionary.mem_startingAt hascending).mp (hahead ▸ List.mem_cons_of_mem _ he)).1
  let owned := rest.takeWhile fun e => a.bytes.isPrefixOf e.1
  let later := rest.dropWhile fun e => a.bytes.isPrefixOf e.1
  have hsplit : owned ++ later = rest := List.takeWhile_append_dropWhile
  have howned (e : Entry) : e = (a.bytes, type) ∨ e ∈ owned ↔ e ∈ w.view ∧ a.bytes <+: e.1 := by
    have hmem := @Dictionary.mem_takeWhile_prefix _ hascending a.bytes e
    rwa [hahead, List.takeWhile_cons_of_pos (by simp), List.mem_cons] at hmem
  obtain ⟨records, hrecords⟩ : ∃ records : List (Key × Bytes), records.map recordEntry = owned :=
    Keyed.exists_records fun e he => hkeyed e (hsubset (List.takeWhile_subset _ he))
  refine ⟨type, records, later, fun moves n => ?_, fun k v => ?_, fun e he howner => ?_⟩
  · rw [h.reads.seek, hahead, hrecords, List.cons_append, hsplit]
  · rw [← mem_map_recordEntry, hrecords, h.get?_eq, Dictionary.get?_eq_some_iff hascending]
    have hk := howned (k.bytes, v)
    rw [← List.isPrefixOf_iff_prefix, Key.isPrefixOf_owner] at hk
    constructor
    · intro hmem
      obtain ⟨hview, howner⟩ := hk.mp (.inr hmem)
      refine ⟨howner, ?_, hview⟩
      rintro rfl
      have hlt := hseek.head_lt (List.takeWhile_subset _ hmem)
      exact Std.OrientedCmp.not_lt_of_lt hlt hlt
    · rintro ⟨howner, hne, hview⟩
      refine (hk.mpr ⟨hview, howner⟩).resolve_left fun heq => hne ?_
      exact Key.bytes_injective (Prod.mk.inj heq).1
  · obtain ⟨k, hk⟩ := hkeyed e (hsubset (List.dropWhile_subset _ he))
    have hprefix : a.bytes <+: e.1 := by
      rw [hk, Key.owner?_bytes, Option.some.injEq] at howner
      rw [hk, ← List.isPrefixOf_iff_prefix, Key.isPrefixOf_owner, howner]
    -- it would be among the records that are before it
    have hnodup := hseek.nodup
    rw [← hsplit, ← List.cons_append, List.nodup_append] at hnodup
    have hbefore : e ∈ (a.bytes, type) :: owned := by
      rw [List.mem_cons, howned]
      exact ⟨hsubset (List.dropWhile_subset _ he), hprefix⟩
    exact hnodup.2.2 e hbefore e he rfl

end Workspace

def Schema.tintedPeers : Schema :=
  peers.withField { id := Id.ofNat 0x1002, name := "tint", owner := Id.ofNat 0x1000, type := .enum }

namespace Session

def ScansByKind (s : Session) (a : Id) : Prop :=
  ∃ type records later, s.workspace.Visits a type records later ∧ ByKind records

def ValuesBelowEdges (s : Session) (a : Id) : Prop :=
  ∀ (f : Id) (e : Half), s.contains (.field a f) → s.contains (.association e) → e.object = a →
    f.toNat ≤ e.field.toNat

variable {s : Session} {a : Id}

theorem contains_iff (h : s.workspace.Valid KeyOrder.lexicographic) {k : Key} :
    s.contains k = true ↔ ∃ v, (k.bytes, v) ∈ s.workspace.view := by
  rw [contains, h.contains_eq, ← Dictionary.isSome_get?, Option.isSome_iff_exists]
  exact exists_congr fun v => Dictionary.get?_eq_some_iff h.ascending_view

theorem scansByKind_iff (h : s.workspace.Valid KeyOrder.lexicographic) (hkeyed : Keyed s.workspace.view)
    (ha : s.contains (.object a)) : s.ScansByKind a ↔ s.ValuesBelowEdges a := by
  constructor
  · rintro ⟨type, records, later, hvisits, hkind⟩
    exact (hvisits.byKind_iff h).mp hkind
  · intro hbelow
    obtain ⟨type, records, later, hvisits⟩ := h.exists_visits hkeyed ha
    exact ⟨type, records, later, hvisits, (hvisits.byKind_iff h).mpr hbelow⟩

/-- Whatever a session has staged over whatever is committed, a cursor that is sought at an object visits
it first, then all that it owns in the order of the keys, and then what others own. Its values come before
its edges exactly if no edge is under a field below that of a value. -/
theorem scan_visits_object {base : Table} (hbase : base.Valid KeyOrder.lexicographic)
    {capacity pageSize : Nat} {w : Workspace} (hcreate : Workspace.create base capacity pageSize = .ok w)
    {calls : List WorkspaceCall} (hrefresh : ∀ t, .refresh t ∈ calls → t.Valid KeyOrder.lexicographic)
    (hrun : w.run calls = .ok s.workspace)
    (hlength : ∀ e ∈ s.workspace.entries, e.1.length = 16 ∨ e.1.length = 32 ∨ e.1.length = 64)
    (ha : s.contains (.object a)) :
    (∃ type records later, s.workspace.Visits a type records later ∧
      Ascending KeyOrder.lexicographic (records.map recordEntry)) ∧
    (s.ScansByKind a ↔ s.ValuesBelowEdges a) := by
  have hvalid : s.workspace.Valid KeyOrder.lexicographic :=
    (Workspace.create_spec hbase hcreate).1.run hrefresh hrun
  rw [hvalid.entries_eq] at hlength
  have hkeyed : Keyed s.workspace.view := fun e he => Key.exists_bytes_eq (hlength e he)
  obtain ⟨type, records, later, hvisits⟩ := hvalid.exists_visits hkeyed ha
  exact ⟨⟨type, records, later, hvisits, hvisits.ascending hvalid⟩, scansByKind_iff hvalid hkeyed ha⟩

theorem scan_visits_crossed : ∃ (base : Table) (calls : List WorkspaceCall) (w : Workspace) (s : Session),
    base.Valid KeyOrder.lexicographic ∧ Workspace.create base 1000 100 = .ok w ∧
      w.run calls = .ok s.workspace ∧ s.workspace.entries.length = 6 ∧
      (∃ type records later, s.workspace.Visits (Id.ofNat 1) type records later ∧
        Ascending KeyOrder.lexicographic (records.map recordEntry)) ∧
      s.ScansByKind (Id.ofNat 1) ∧ ¬ s.ScansByKind (Id.ofNat 2) := by
  let one := Id.ofNat 1
  let two := Id.ofNat 2
  let low := Id.ofNat 0x1001
  let high := Id.ofNat 0x1002
  let node := (Id.ofNat 0x1000).bytes
  let base : Table := ⟨"objects", KeyOrder.lexicographic,
    [((Key.object one).bytes, node), ((Key.field one low).bytes, [3])]⟩
  let calls : List WorkspaceCall := [.write (.put (Key.association ⟨one, high, one, high⟩).bytes []),
    .write (.put (Key.association ⟨two, low, two, low⟩).bytes []),
    .write (.put (Key.object two).bytes node), .write (.put (Key.field two high).bytes [3])]
  have hbase : base.Valid KeyOrder.lexicographic := ⟨rfl, by decide +kernel⟩
  have hrefresh : ∀ t, .refresh t ∈ calls → t.Valid KeyOrder.lexicographic := by simp [calls]
  obtain ⟨w, v, hcreate, hrun, hview⟩ : ∃ w v, Workspace.create base 1000 100 = .ok w ∧
      w.run calls = .ok v ∧ v.view = [((Key.object one).bytes, node), ((Key.field one low).bytes, [3]),
        ((Key.association ⟨one, high, one, high⟩).bytes, []), ((Key.object two).bytes, node),
        ((Key.association ⟨two, low, two, low⟩).bytes, []), ((Key.field two high).bytes, [3])] :=
    ⟨_, _, rfl, rfl, by decide +kernel⟩
  let s : Session := ⟨⟨⟨0, 1, 2, 3⟩, .peers, {}⟩, true, Id.nil, .empty, v, ⟨none, none⟩⟩
  have hvalid : s.workspace.Valid KeyOrder.lexicographic :=
    (Workspace.create_spec hbase hcreate).1.run hrefresh hrun
  have hentries : s.workspace.entries = _ := hvalid.entries_eq.trans hview
  have hcontains {k : Key} : s.contains k ↔ ∃ v, (k.bytes, v) ∈ _ :=
    (contains_iff hvalid).trans (by rw [hview])
  have hdistinct : one ≠ two ∧ low.toNat < high.toNat := by decide +kernel
  have hlength : ∀ e ∈ s.workspace.entries, e.1.length = 16 ∨ e.1.length = 32 ∨ e.1.length = 64 := by
    rw [hentries]
    decide +kernel
  have hone := scan_visits_object hbase hcreate hrefresh (s := s) hrun hlength
    (a := one) (hcontains.mpr ⟨node, by simp⟩)
  have htwo := scan_visits_object hbase hcreate hrefresh (s := s) hrun hlength
    (a := two) (hcontains.mpr ⟨node, by simp⟩)
  refine ⟨base, calls, w, s, hbase, hcreate, hrun, by rw [hentries]; rfl, hone.1, hone.2.mpr ?_, ?_⟩
  · intro f e hf he howner
    simp only [hcontains, List.mem_cons, Prod.mk.injEq, Key.bytes_inj] at hf he
    have hf : f = low := by simpa [hdistinct.1] using hf
    have he : e = ⟨one, high, one, high⟩ := by
      obtain ⟨v, hv⟩ := he
      obtain ⟨he, -⟩ | ⟨rfl, -⟩ :
          e = ⟨one, high, one, high⟩ ∧ v = [] ∨ e = ⟨two, low, two, low⟩ ∧ v = [] := by simpa using hv
      · exact he
      · exact absurd howner.symm hdistinct.1
    rw [hf, he]
    exact Nat.le_of_lt hdistinct.2
  · intro hscan
    have hle := htwo.2.mp hscan high ⟨two, low, two, low⟩
      (hcontains.mpr ⟨[3], by simp⟩) (hcontains.mpr ⟨[], by simp⟩) rfl
    exact absurd hdistinct.2 (Nat.not_lt.mpr hle)

/-- An object has an edge to itself under its first field and a value under its second. -/
theorem scan_mixes_kinds : ∃ db s, SingleWriter Schema.tintedPeers db (some s) ∧
    s.contains (.object (Id.ofNat 1)) ∧ ¬ s.ScansByKind (Id.ofNat 1) := by
  let a := Id.ofNat 1
  let peer := Id.ofNat 0x1001
  let tint := Id.ofNat 0x1002
  let calls : List WriterCall := [.edit (.create (Id.ofNat 0x1000) a),
    .edit (.setValue a tint [7, 5, 0, 0, 0]), .edit (.link ⟨a, peer, a, peer⟩), .commit ⟨0, 0⟩]
  have hscript : (WriterCall.script Schema.tintedPeers 10000 calls).toOption.map (fun w =>
      [Key.object a, Key.field a tint, Key.association ⟨a, peer, a, peer⟩].map w.session.contains) =
      some [true, true, true] := by decide +kernel
  obtain ⟨w, hw, hcontains⟩ := Option.map_eq_some_iff.mp hscript
  have hwriter := SingleWriter.of_script (Stateful.ok_of_toOption hw)
  simp only [List.map_cons, List.map_nil, List.cons.injEq, and_true] at hcontains
  obtain ⟨hobject, hvalue, hedge⟩ := hcontains
  obtain ⟨base, -, hsound⟩ := hwriter.sound
  obtain ⟨g, hshows, -⟩ := hsound _ rfl
  refine ⟨_, _, hwriter, hobject, fun hscan => ?_⟩
  have hbelow := (scansByKind_iff hshows.valid hshows.keyed hobject).mp hscan
  have hle := hbelow tint ⟨a, peer, a, peer⟩ hvalue hedge rfl
  exact absurd hle (by decide +kernel)

end Session

end ObjectGraph
