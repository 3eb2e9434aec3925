import ObjectGraph.Proofs.Session.Publish

namespace ObjectGraph

open Stateful

namespace Store

def handle? (s : Store) (name : String) : Option TableId := s.committed.tables.findIdx? (·.name = name)

structure Opens (t : Tables) (s : Store) : Prop where
  objects : s.handle? "objects" = some t.objects
  history : s.handle? "history" = some t.history
  historyByObject : s.handle? "history_by_object" = some t.historyByObject
  search : s.handle? "search" = some t.search

variable {s s' : Store} {name : String} {order : KeyOrder} {u : TableId} {t : Tables} {added : List Table}

theorem handle?_congr (h : s'.committed.tables.map Table.name = s.committed.tables.map Table.name) (name : String) :
    s'.handle? name = s.handle? name := by
  have hnames (s : Store) : s.handle? name = (s.committed.tables.map Table.name).findIdx? (· = name) := by
    rw [List.findIdx?_map]
    rfl
  rw [hnames, hnames, h]

theorem handle?_append (h : s'.committed.tables = s.committed.tables ++ added) (hu : s.handle? name = some u) :
    s'.handle? name = some u := by
  rw [handle?, h, List.findIdx?_append, ← handle?, hu]
  rfl

theorem exists_of_handle? (h : s.handle? name = some u) :
    ∃ table, s.committed.tables[u]? = some table ∧ table.name = name := by
  obtain ⟨hlt, hname, -⟩ := List.findIdx?_eq_some_iff_getElem.mp h
  exact ⟨_, List.getElem?_eq_getElem hlt, of_decide_eq_true hname⟩

theorem openTable_eq (h : s.handle? name = some u) (order : KeyOrder) : s.openTable name order = .ok (u, s) := by
  rw [handle?] at h
  rw [openTable, h]

theorem openTable_eq_ok (h : s.openTable name order = .ok (u, s')) : s'.handle? name = some u ∧
    ∃ added, s'.committed.tables = s.committed.tables ++ added ∧ ∀ table ∈ added, table = ⟨name, order, []⟩ := by
  rw [openTable] at h
  split at h
  next found hfound =>
    cases h
    exact ⟨hfound, [], (List.append_nil _).symm, nofun⟩
  next hnone =>
    dsimp only at h
    split at h
    · contradiction
    · cases h
      refine ⟨?_, [⟨name, order, []⟩], rfl, fun table => List.mem_singleton.mp⟩
      rw [handle?, List.findIdx?_append, hnone]
      simp

theorem openTables_eq_ok (h : s.openTables = .ok (t, s')) : s'.Opens t ∧
    ∃ added, s'.committed.tables = s.committed.tables ++ added ∧
      ∀ table ∈ added, table.name = "objects" → table = ⟨"objects", KeyOrder.lexicographic, []⟩ := by
  obtain ⟨⟨objects, s₁⟩, hobjects, h⟩ := bind_eq_ok.mp h
  obtain ⟨⟨history, s₂⟩, hhistory, h⟩ := bind_eq_ok.mp h
  obtain ⟨⟨byObject, s₃⟩, hbyObject, h⟩ := bind_eq_ok.mp h
  obtain ⟨⟨search, s₄⟩, hsearch, h⟩ := bind_eq_ok.mp h
  cases h
  obtain ⟨hobjects, added₁, htables₁, hadded₁⟩ := openTable_eq_ok hobjects
  obtain ⟨hhistory, added₂, htables₂, hadded₂⟩ := openTable_eq_ok hhistory
  obtain ⟨hbyObject, added₃, htables₃, hadded₃⟩ := openTable_eq_ok hbyObject
  obtain ⟨hsearch, added₄, htables₄, hadded₄⟩ := openTable_eq_ok hsearch
  refine ⟨⟨?_, ?_, ?_, hsearch⟩, added₁ ++ added₂ ++ added₃ ++ added₄, ?_, ?_⟩
  · exact handle?_append htables₄ (handle?_append htables₃ (handle?_append htables₂ hobjects))
  · exact handle?_append htables₄ (handle?_append htables₃ hhistory)
  · exact handle?_append htables₄ hbyObject
  · rw [htables₄, htables₃, htables₂, htables₁]
    simp only [List.append_assoc]
  · intro table htable hname
    simp only [List.mem_append] at htable
    rcases htable with ((htable | htable) | htable) | htable
    · exact hadded₁ table htable
    · rw [hadded₂ table htable] at hname
      contradiction
    · rw [hadded₃ table htable] at hname
      contradiction
    · rw [hadded₄ table htable] at hname
      contradiction

namespace Opens

theorem openTables_eq (h : s.Opens t) : s.openTables = .ok (t, s) := by
  simp only [openTables, openTable_eq h.objects, openTable_eq h.history, openTable_eq h.historyByObject,
    openTable_eq h.search, ok_bind]
  rfl

theorem congr (h : s.Opens t) (hnames : s'.committed.tables.map Table.name = s.committed.tables.map Table.name) :
    s'.Opens t where
  objects := (handle?_congr hnames _).trans h.objects
  history := (handle?_congr hnames _).trans h.history
  historyByObject := (handle?_congr hnames _).trans h.historyByObject
  search := (handle?_congr hnames _).trans h.search

theorem distinct (h : s.Opens t) : t.Distinct := by
  have hne {name name' : String} {u u' : TableId} (hu : s.handle? name = some u) (hu' : s.handle? name' = some u')
      (hnames : name ≠ name') : u ≠ u' := by
    rintro rfl
    obtain ⟨table, htable, rfl⟩ := exists_of_handle? hu
    obtain ⟨table', htable', rfl⟩ := exists_of_handle? hu'
    exact hnames (congrArg Table.name (Option.some.inj (htable.symm.trans htable')))
  exact ⟨hne h.objects h.history (by decide), hne h.objects h.historyByObject (by decide),
    hne h.objects h.search (by decide), hne h.search h.history (by decide),
    hne h.search h.historyByObject (by decide), hne h.history h.historyByObject (by decide)⟩

end Opens

structure Houses (t : Tables) (s : Store) : Prop where
  opens : s.Opens t
  objects : ∃ table, s.committed.tables[t.objects]? = some table ∧ table.Valid KeyOrder.lexicographic

theorem houses_of_openTables (hs : ∀ table ∈ s.committed.tables, table.name = "objects" →
    table.Valid KeyOrder.lexicographic) (h : s.openTables = .ok (t, s')) : s'.Houses t := by
  obtain ⟨hopens, added, htables, hadded⟩ := openTables_eq_ok h
  obtain ⟨table, htable, hname⟩ := exists_of_handle? hopens.objects
  refine ⟨hopens, table, htable, ?_⟩
  have hmem := List.mem_of_getElem? htable
  rw [htables, List.mem_append] at hmem
  rcases hmem with hmem | hmem
  · exact hs table hmem hname
  · rw [hadded table hmem hname]
    exact ⟨rfl, .nil⟩

end Store

end ObjectGraph
