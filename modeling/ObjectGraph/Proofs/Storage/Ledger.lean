import Mathlib.Data.List.Forall2
import ObjectGraph.Proofs.KeyOrder
import ObjectGraph.Proofs.Lockstep
import ObjectGraph.Proofs.Storage.Reading
import ObjectGraph.Proofs.Storage.Writing
/-!
The books of a store. A ledger notes for every table the writes that still stand, the latest first,
without any order of keys. Whatever is called, a store answers as the ledger does, holds what the ledger
notes, and has counted its bytes.
-/

namespace ObjectGraph

structure Account where
  name : String
  order : KeyOrder
  entries : List Entry

namespace Account

def standing? (a : Account) (k : Bytes) : Option Entry :=
  a.entries.find? fun e => a.order k e.1 = .eq

def strike (a : Account) (k : Bytes) : Account :=
  { a with entries := a.entries.filter fun e => a.order k e.1 ≠ .eq }

def enter (a : Account) (k v : Bytes) : Account :=
  { a with entries := (k, v) :: (a.strike k).entries }

end Account

inductive WriteCall where
  | put (t : TableId) (k v : Bytes)
  | delete (t : TableId) (k : Bytes)

inductive WriteAnswer where
  | done
  | removed (found : Bool)
  | failed (e : Error)
deriving DecidableEq

inductive Ending where
  | commit
  | abort
  | drop

inductive StoreCall where
  | openTable (name : String) (order : KeyOrder)
  | write (calls : List WriteCall) (ending : Ending)

inductive StoreAnswer where
  | opened (t : TableId)
  | wrote (answers : List WriteAnswer)
  | failed (e : Error)
deriving DecidableEq

def attempt {α σ : Type} (failed : Error → α) (s : σ) : Except Error (α × σ) → α × σ
  | .ok (a, s') => (a, s')
  | .error e => (failed e, s)

def callAll {α γ σ : Type} (call : σ → γ → α × σ) (s : σ) : List γ → List α × σ
  | [] => ([], s)
  | c :: cs =>
    let (answers, last) := callAll call (call s c).2 cs
    ((call s c).1 :: answers, last)

abbrev Ledger := List Account

namespace Ledger

def Total (l : Ledger) : Prop := ∀ a ∈ l, Std.TransCmp a.order

def bytes (l : Ledger) : Nat := totalSize (l.flatMap Account.entries)

def account? (l : Ledger) (t : TableId) : Except Error Account :=
  match l[t]? with
  | some a => .ok a
  | none => .error (.store (.unknownTable t))

def get? (l : Ledger) (t : TableId) (k : Bytes) : Except Error (Option Bytes) :=
  return ((← l.account? t).standing? k).map Prod.snd

def openTable (l : Ledger) (name : String) (order : KeyOrder) : Except Error (TableId × Ledger) :=
  match (l.map Account.name).idxOf? name with
  | some t => .ok (t, l)
  | none =>
    if Store.maxTables ≤ l.length then .error (.store (.tooManyTables Store.maxTables))
    else .ok (l.length, l ++ [⟨name, order, []⟩])

def put (mapSize : Nat) (l : Ledger) (t : TableId) (k v : Bytes) : Except Error Ledger := do
  let a ← l.account? t
  let replaced := ((a.standing? k).map entrySize).getD 0
  if mapSize < l.bytes - replaced + entrySize (k, v) then
    throw (.store (.mapFull (l.bytes - replaced + entrySize (k, v)) mapSize))
  return l.set t (a.enter k v)

def delete (l : Ledger) (t : TableId) (k : Bytes) : Except Error (Bool × Ledger) := do
  let a ← l.account? t
  return ((a.standing? k).isSome, l.set t (a.strike k))

def write (mapSize : Nat) (l : Ledger) : WriteCall → WriteAnswer × Ledger
  | .put t k v => attempt .failed l ((l.put mapSize t k v).map (.done, ·))
  | .delete t k => attempt .failed l ((l.delete t k).map fun p => (.removed p.1, p.2))

def writes (mapSize : Nat) : Ledger → List WriteCall → List WriteAnswer × Ledger :=
  callAll (write mapSize)

def call (mapSize : Nat) (l : Ledger) : StoreCall → StoreAnswer × Ledger
  | .openTable name order => attempt .failed l ((l.openTable name order).map fun p => (.opened p.1, p.2))
  | .write cs ending =>
    (.wrote (l.writes mapSize cs).1,
      match ending with
      | .commit => (l.writes mapSize cs).2
      | .abort | .drop => l)

def calls (mapSize : Nat) : Ledger → List StoreCall → List StoreAnswer × Ledger :=
  callAll (call mapSize)

end Ledger

namespace WriteTxn

def write (w : WriteTxn) : WriteCall → WriteAnswer × WriteTxn
  | .put t k v => attempt .failed w ((w.put t k v).map (.done, ·))
  | .delete t k => attempt .failed w ((w.delete t k).map fun p => (.removed p.1, p.2))

def writes : WriteTxn → List WriteCall → List WriteAnswer × WriteTxn := callAll write

end WriteTxn

namespace Store

def finish (s : Store) (w : WriteTxn) : Ending → Store
  | .commit => s.publish w
  | .abort | .drop => s

def call (s : Store) : StoreCall → StoreAnswer × Store
  | .openTable name order => attempt .failed s ((s.openTable name order).map fun p => (.opened p.1, p.2))
  | .write cs ending =>
    (.wrote (s.beginWrite.writes cs).1, s.finish (s.beginWrite.writes cs).2 ending)

def calls : Store → List StoreCall → List StoreAnswer × Store := callAll call

end Store

open Dictionary (Ascending)
open Stateful (Both)
open Std (TransCmp)

def Table.cursorAfter (table : Table) (moves : List TableMove) : TableCursor :=
  moves.foldl TableCursor.move (.create table)

structure Table.Reads (table : Table) (a : Account) : Prop where
  name_eq : table.name = a.name
  order_eq : table.order = a.order
  ascending : Ascending a.order table.entries
  entries : table.entries.Perm a.entries
  get?_eq : ∀ k, table.get? k = (a.standing? k).map Prod.snd
  unmoved : ∀ n : Nat, (TableCursor.advance^[n] (.create table)).current? = none
  seekFirst : ∀ (moves : List TableMove) (n : Nat),
    (TableCursor.advance^[n] (table.cursorAfter moves).seekFirst).current? = table.entries[n]?
  seekLast : ∀ (moves : List TableMove) (n : Nat),
    (TableCursor.advance^[n] (table.cursorAfter moves).seekLast).current? =
      if n = 0 then table.entries.getLast? else none
  seek : ∀ (moves : List TableMove) (k : Bytes) (n : Nat),
    (TableCursor.advance^[n] ((table.cursorAfter moves).seek k)).current? =
      (table.entries.filter fun e => a.order e.1 k ≠ .lt)[n]?

structure Snapshot.Reads (mapSize : Nat) (s : Snapshot) (l : Ledger) : Prop where
  tables : List.Forall₂ Table.Reads s.tables l
  length_le : s.tables.length ≤ Store.maxTables
  get?_eq : ∀ t k, s.get? t k = l.get? t k
  cursor : ∀ t, Both (fun c a => ∃ table, c = .create table ∧ table.Reads a) (s.cursor t) (l.account? t)
  size_eq : s.size = totalSize (s.tables.flatMap Table.entries)
  size_le : s.size ≤ mapSize
  entrySize_le : ∀ e ∈ s.tables.flatMap Table.entries, entrySize e ≤ s.size

structure Table.Booked (table : Table) (a : Account) : Prop where
  name_eq : table.name = a.name
  total : TransCmp a.order
  valid : table.Valid a.order
  entries : table.entries.Perm a.entries

structure Snapshot.Booked (mapSize : Nat) (s : Snapshot) (l : Ledger) : Prop where
  tables : List.Forall₂ Table.Booked s.tables l
  length_le : s.tables.length ≤ Store.maxTables
  size_eq : s.size = l.bytes
  size_le : s.size ≤ mapSize

structure WriteTxn.Booked (mapSize : Nat) (w : WriteTxn) (l : Ledger) : Prop where
  mapSize_eq : w.mapSize = mapSize
  working : w.working.Booked mapSize l

structure Store.Booked (mapSize : Nat) (s : Store) (l : Ledger) : Prop where
  mapSize_eq : s.mapSize = mapSize
  committed : s.committed.Booked mapSize l

section Agreement

variable {α γ σ τ : Type} {R : σ → τ → Prop} {s : σ} {t : τ}

theorem attempt_agrees {failed : Error → α} {x : Except Error (α × σ)} {y : Except Error (α × τ)}
    (hst : R s t) (h : Both (fun p q => p.1 = q.1 ∧ R p.2 q.2) x y) :
    (attempt failed s x).1 = (attempt failed t y).1 ∧ R (attempt failed s x).2 (attempt failed t y).2 := by
  cases h with
  | ok hpq => exact hpq
  | error e => exact ⟨rfl, hst⟩

theorem of_callAll {g : τ → γ → α × τ} {P : τ → Prop} (hback : ∀ t c, P (g t c).2 → P t) {cs : List γ}
    (h : P (callAll g t cs).2) : P t := by
  induction cs generalizing t with
  | nil => exact h
  | cons c cs ih => exact hback t c (ih h)

theorem callAll_agrees {f : σ → γ → α × σ} {g : τ → γ → α × τ} {P : τ → Prop}
    (hstep : ∀ s t c, P (g t c).2 → R s t → (f s c).1 = (g t c).1 ∧ R (f s c).2 (g t c).2)
    (hback : ∀ t c, P (g t c).2 → P t) {cs : List γ} (hlast : P (callAll g t cs).2) (hst : R s t) :
    (callAll f s cs).1 = (callAll g t cs).1 ∧ R (callAll f s cs).2 (callAll g t cs).2 := by
  induction cs generalizing s t with
  | nil => exact ⟨rfl, hst⟩
  | cons c cs ih =>
    have hnext : P (g t c).2 := of_callAll hback hlast
    obtain ⟨hanswer, hagree⟩ := hstep s t c hnext hst
    obtain ⟨hanswers, hend⟩ := ih hlast hagree
    exact ⟨congrArg₂ _ hanswer hanswers, hend⟩

end Agreement

section Sizes

variable {order : KeyOrder} {k v : Bytes} {d d' : List Entry}

theorem totalSize_append : totalSize (d ++ d') = totalSize d + totalSize d' := by
  induction d with
  | nil => exact (Nat.zero_add _).symm
  | cons e d ih => rw [List.cons_append, totalSize, totalSize, ih, Nat.add_assoc]

theorem totalSize_perm (h : d.Perm d') : totalSize d = totalSize d' := by
  induction h with
  | nil => rfl
  | cons e _ ih => rw [totalSize, totalSize, ih]
  | swap e e' d =>
    simp only [totalSize]
    omega
  | trans _ _ ih ih' => exact ih.trans ih'

theorem totalSize_erase :
    totalSize (Dictionary.erase order k d) + ((Dictionary.find? order k d).map entrySize).getD 0 =
      totalSize d := by
  induction d with
  | nil => rfl
  | cons e d ih =>
    simp only [Dictionary.erase, Dictionary.find?]
    split
    · rfl
    · exact Nat.add_comm ..
    · rw [totalSize, totalSize, Nat.add_assoc, ih]

theorem totalSize_insert :
    totalSize (Dictionary.insert order k v d) +
        ((Dictionary.find? order k d).map entrySize).getD 0 =
      totalSize d + entrySize (k, v) := by
  have herase : totalSize (Dictionary.erase order k d) + _ = totalSize d := totalSize_erase
  rw [totalSize_perm Dictionary.insert_perm, totalSize, Nat.add_assoc, herase, Nat.add_comm]

theorem entrySize_le_totalSize {e : Entry} (he : e ∈ d) : entrySize e ≤ totalSize d := by
  induction d with
  | nil => contradiction
  | cons a d ih =>
    rw [totalSize]
    rcases List.mem_cons.mp he with rfl | he
    · exact Nat.le_add_right ..
    · exact Nat.le_trans (ih he) (Nat.le_add_left ..)

theorem Ledger.bytes_set {l : Ledger} {t : TableId} {a b : Account} (h : l[t]? = some a) :
    Ledger.bytes (l.set t b) + totalSize a.entries = l.bytes + totalSize b.entries := by
  induction l generalizing t with
  | nil => contradiction
  | cons c l ih =>
    cases t with
    | zero =>
      cases h
      simp only [Ledger.bytes, List.set_cons_zero, List.flatMap_cons, totalSize_append]
      omega
    | succ t =>
      have hrest := ih h
      simp only [Ledger.bytes, List.set_cons_succ, List.flatMap_cons, totalSize_append] at hrest ⊢
      omega

end Sizes

namespace Table.Booked

variable {table : Table} {a : Account} {k : Bytes}

theorem find?_eq (h : table.Booked a) (k : Bytes) : table.find? k = a.standing? k := by
  have := h.total
  rw [h.valid.find?_eq, Account.standing?, Dictionary.find?_eq_of_perm h.valid.ascending h.entries]

theorem insert (h : table.Booked a) (k v : Bytes) : (table.insert k v).Booked (a.enter k v) := by
  have := h.total
  refine ⟨h.name_eq, h.total, ⟨h.valid.order_eq, ?_⟩, ?_⟩
  · rw [Table.insert, h.valid.order_eq]
    exact h.valid.ascending.insert k v
  · rw [Table.insert, h.valid.order_eq]
    refine Dictionary.insert_perm.trans (List.Perm.cons _ ?_)
    rw [Dictionary.erase_eq_filter h.valid.ascending]
    exact h.entries.filter _

theorem erase (h : table.Booked a) (k : Bytes) : (table.erase k).Booked (a.strike k) := by
  have := h.total
  refine ⟨h.name_eq, h.total, ⟨h.valid.order_eq, ?_⟩, ?_⟩
  · rw [Table.erase, h.valid.order_eq]
    exact h.valid.ascending.erase k
  · rw [Table.erase, h.valid.order_eq, Dictionary.erase_eq_filter h.valid.ascending]
    exact h.entries.filter _

theorem totalSize_erase (h : table.Booked a) (k : Bytes) :
    totalSize (a.strike k).entries + ((a.standing? k).map entrySize).getD 0 = totalSize a.entries := by
  rw [← totalSize_perm (h.erase k).entries, ← totalSize_perm h.entries, ← h.find?_eq]
  exact ObjectGraph.totalSize_erase

theorem totalSize_insert (h : table.Booked a) (k v : Bytes) :
    totalSize (a.enter k v).entries + ((a.standing? k).map entrySize).getD 0 =
      totalSize a.entries + entrySize (k, v) := by
  rw [← totalSize_perm (h.insert k v).entries, ← totalSize_perm h.entries, ← h.find?_eq]
  exact ObjectGraph.totalSize_insert

theorem reads (h : table.Booked a) : table.Reads a := by
  have := h.total
  have htable (moves : List TableMove) : (table.cursorAfter moves).table = table :=
    TableCursor.table_moves moves
  have hvalid (moves : List TableMove) : (table.cursorAfter moves).table.Valid a.order :=
    (htable moves).symm ▸ h.valid
  constructor
  case name_eq => exact h.name_eq
  case order_eq => exact h.valid.order_eq
  case ascending => exact h.valid.ascending
  case entries => exact h.entries
  case get?_eq =>
    intro k
    rw [← h.find?_eq]
    rfl
  case unmoved =>
    intro n
    exact (TableCursor.before_create table).current?_iterate h.valid n
  case seekFirst =>
    intro moves n
    have hbefore := (table.cursorAfter moves).before_seekFirst
    rw [hbefore.current?_iterate (hvalid moves), htable]
  case seekLast =>
    intro moves n
    have hbefore := (table.cursorAfter moves).before_seekLast
    rw [hbefore.current?_iterate (hvalid moves), htable, Table.last]
    cases n <;> cases table.entries.getLast? <;> rfl
  case seek =>
    intro moves k n
    have hbefore := (table.cursorAfter moves).before_seek k
    rw [hbefore.current?_iterate (hvalid moves), htable, h.valid.startingAt_eq,
      Dictionary.startingAt_eq_filter h.valid.ascending]

end Table.Booked

namespace Snapshot.Booked

variable {mapSize : Nat} {s : Snapshot} {l : Ledger}

theorem cases (h : s.Booked mapSize l) (t : TableId) :
    s.tables[t]? = none ∧ l[t]? = none ∨
      ∃ table a, s.tables[t]? = some table ∧ l[t]? = some a ∧ table.Booked a := by
  have htables := forall₂_getElem? h.tables t
  generalize s.tables[t]? = x, l[t]? = y at htables
  cases htables with
  | none => exact .inl ⟨rfl, rfl⟩
  | some htable => exact .inr ⟨_, _, rfl, rfl, htable⟩

theorem table?_agrees (h : s.Booked mapSize l) (t : TableId) :
    Both Table.Booked (s.table? t) (l.account? t) := by
  rw [Snapshot.table?, Ledger.account?]
  rcases h.cases t with ⟨hnone, hnone'⟩ | ⟨table, a, ht, ha, htable⟩
  · rw [hnone, hnone']
    exact .error _
  · rw [ht, ha]
    exact .ok htable

theorem names_eq (h : s.Booked mapSize l) : s.tables.map Table.name = l.map Account.name := by
  rw [← List.forall₂_eq_eq_eq, List.forall₂_map_left_iff, List.forall₂_map_right_iff]
  exact h.tables.imp fun _ _ htable => htable.name_eq

theorem entries_perm (h : s.Booked mapSize l) :
    (s.tables.flatMap Table.entries).Perm (l.flatMap Account.entries) := by
  obtain ⟨htables, -, -, -⟩ := h
  generalize s.tables = tables at htables
  induction htables with
  | nil => exact List.Perm.refl _
  | cons htable _ ih => exact htable.entries.append ih

theorem reads (h : s.Booked mapSize l) : s.Reads mapSize l := by
  have hsize : s.size = totalSize (s.tables.flatMap Table.entries) :=
    h.size_eq.trans (totalSize_perm h.entries_perm).symm
  constructor
  case tables => exact h.tables.imp fun _ _ htable => htable.reads
  case length_le => exact h.length_le
  case get?_eq =>
    intro t k
    have hget : Both Eq (s.get? t k) (l.get? t k) :=
      (h.table?_agrees t).bind fun _ _ htable => .ok (htable.reads.get?_eq k)
    generalize s.get? t k = x, l.get? t k = y at hget
    cases hget with
    | ok heq => rw [heq]
    | error e => rfl
  case cursor =>
    intro t
    have hread : Both (fun c a => ∃ table, c = TableCursor.create table ∧ table.Reads a)
        (s.cursor t) (l.account? t >>= pure) :=
      (h.table?_agrees t).bind fun table _ htable => .ok ⟨table, rfl, htable.reads⟩
    rwa [bind_pure] at hread
  case size_eq => exact hsize
  case size_le => exact h.size_le
  case entrySize_le =>
    intro e he
    rw [hsize]
    exact entrySize_le_totalSize he

end Snapshot.Booked

namespace WriteTxn.Booked

variable {mapSize : Nat} {w : WriteTxn} {l : Ledger}

theorem put (h : w.Booked mapSize l) (t : TableId) (k v : Bytes) :
    Both (WriteTxn.Booked mapSize) (w.put t k v) (l.put mapSize t k v) := by
  rw [WriteTxn.put, Ledger.put, Snapshot.table?, Ledger.account?]
  rcases h.working.cases t with ⟨hnone, hnone'⟩ | ⟨table, a, ht, ha, htable⟩
  · rw [hnone, hnone']
    exact .error _
  have hbefore := Ledger.bytes_set (b := a.strike k) ha
  have herased := htable.totalSize_erase k
  have hafter := Ledger.bytes_set (b := a.enter k v) ha
  have hinserted := htable.totalSize_insert k v
  rw [ht, ha]
  simp only [Stateful.ok_bind]
  rw [h.mapSize_eq, h.working.size_eq, htable.find?_eq]
  split
  next => exact .error _
  next hroom =>
    refine .ok ⟨h.mapSize_eq, ?_⟩
    constructor
    case tables => exact forall₂_set h.working.tables t (htable.insert k v)
    case length_le => exact (List.length_set ..).symm ▸ h.working.length_le
    case size_eq =>
      change l.bytes - _ + _ = Ledger.bytes (l.set t (a.enter k v))
      omega
    case size_le => exact Nat.le_of_not_lt hroom

theorem delete (h : w.Booked mapSize l) (t : TableId) (k : Bytes) :
    Both (fun p q => p.1 = q.1 ∧ p.2.Booked mapSize q.2) (w.delete t k) (l.delete t k) := by
  rcases h.working.cases t with ⟨hnone, hnone'⟩ | ⟨table, a, ht, ha, htable⟩
  · rw [WriteTxn.delete, Ledger.delete, Snapshot.table?, Ledger.account?, hnone, hnone']
    exact .error _
  have hbytes := Ledger.bytes_set (b := a.strike k) ha
  have herased := htable.totalSize_erase k
  rw [delete_eq ht, Ledger.delete, Ledger.account?, ha, htable.find?_eq, h.working.size_eq]
  refine .ok ⟨rfl, h.mapSize_eq, ?_⟩
  constructor
  case tables => exact forall₂_set h.working.tables t (htable.erase k)
  case length_le => exact (List.length_set ..).symm ▸ h.working.length_le
  case size_eq =>
    change l.bytes - _ = Ledger.bytes (l.set t (a.strike k))
    omega
  case size_le => exact Nat.le_trans (Nat.sub_le ..) (h.working.size_eq ▸ h.working.size_le)

theorem write (h : w.Booked mapSize l) (c : WriteCall) :
    (w.write c).1 = (l.write mapSize c).1 ∧ (w.write c).2.Booked mapSize (l.write mapSize c).2 := by
  cases c with
  | put t k v => exact attempt_agrees h ((h.put t k v).map fun _ _ hbooked => ⟨rfl, hbooked⟩)
  | delete t k =>
    exact attempt_agrees h ((h.delete t k).map fun _ _ hbooked => ⟨congrArg _ hbooked.1, hbooked.2⟩)

theorem writes (h : w.Booked mapSize l) (cs : List WriteCall) :
    (w.writes cs).1 = (l.writes mapSize cs).1 ∧ (w.writes cs).2.Booked mapSize (l.writes mapSize cs).2 :=
  callAll_agrees (P := fun _ => True) (fun _ _ c _ h => h.write c) (fun _ _ h => h) trivial h

end WriteTxn.Booked

namespace Ledger

variable {mapSize : Nat} {l : Ledger} {t : TableId}

theorem account?_eq_ok {a : Account} (h : l.account? t = .ok a) : l[t]? = some a := by
  rw [account?] at h
  split at h
  next ha =>
    cases h
    exact ha
  next => cases h

theorem orders_set {a b : Account} (ha : l[t]? = some a) (hb : b.order = a.order) :
    (l.set t b).map Account.order = l.map Account.order := by
  have horder : (l.map Account.order)[t]? = some b.order := by
    rw [List.getElem?_map, ha, hb]
    rfl
  obtain ⟨hlt, horder⟩ := List.getElem?_eq_some_iff.mp horder
  rw [List.map_set, ← horder, List.set_getElem_self]

theorem orders_write (l : Ledger) (c : WriteCall) :
    (l.write mapSize c).2.map Account.order = l.map Account.order := by
  cases c with
  | put t k v =>
    rw [write]
    cases hput : l.put mapSize t k v with
    | error e => rfl
    | ok l' =>
      obtain ⟨a, ha, hput⟩ := Stateful.bind_eq_ok.mp hput
      dsimp only at hput
      split at hput
      · cases hput
      · cases hput
        exact orders_set (account?_eq_ok ha) rfl
  | delete t k =>
    rw [write]
    cases hdelete : l.delete t k with
    | error e => rfl
    | ok p =>
      obtain ⟨a, ha, hdelete⟩ := Stateful.bind_eq_ok.mp hdelete
      cases hdelete
      exact orders_set (account?_eq_ok ha) rfl

theorem orders_writes (l : Ledger) (cs : List WriteCall) :
    (l.writes mapSize cs).2.map Account.order = l.map Account.order := by
  induction cs generalizing l with
  | nil => rfl
  | cons c cs ih => exact (ih (l.write mapSize c).2).trans (l.orders_write c)

theorem total_iff : l.Total ↔ ∀ order ∈ l.map Account.order, TransCmp order := by
  rw [List.forall_mem_map]
  rfl

theorem Total.of_call {c : StoreCall} (h : (l.call mapSize c).2.Total) : l.Total := by
  cases c with
  | openTable name order =>
    rw [call] at h
    cases hopen : l.openTable name order with
    | error e =>
      rw [hopen] at h
      exact h
    | ok p =>
      rw [hopen] at h
      rw [openTable] at hopen
      split at hopen
      · cases hopen
        exact h
      · split at hopen
        · cases hopen
        · cases hopen
          exact fun a ha => h a (List.mem_append_left _ ha)
  | write cs ending =>
    cases ending with
    | commit =>
      rw [total_iff, ← l.orders_writes cs]
      exact total_iff.mp h
    | abort => exact h
    | drop => exact h

end Ledger

namespace Store

variable {mapSize : Nat} {s : Store} {l : Ledger}

theorem booked_empty (mapSize : Nat) : (empty mapSize).Booked mapSize [] :=
  ⟨rfl, .nil, Nat.zero_le _, rfl, Nat.zero_le _⟩

namespace Booked

theorem beginWrite (h : s.Booked mapSize l) : s.beginWrite.Booked mapSize l := ⟨h.mapSize_eq, h.committed⟩

theorem openTable (h : s.Booked mapSize l) {name : String} {order : KeyOrder}
    (htotal : ∀ t l', l.openTable name order = .ok (t, l') → Ledger.Total l') :
    Both (fun p q => p.1 = q.1 ∧ p.2.Booked mapSize q.2) (s.openTable name order)
      (l.openTable name order) := by
  have hnames : s.committed.tables.findIdx? (·.name = name) = (l.map Account.name).idxOf? name := by
    rw [← h.committed.names_eq, List.idxOf?, List.findIdx?_map]
    rfl
  have hlength : s.committed.tables.length = l.length := h.committed.tables.length_eq
  rw [Ledger.openTable] at htotal
  rw [Store.openTable, Ledger.openTable, hnames]
  cases hfound : (l.map Account.name).idxOf? name with
  | some t => exact .ok ⟨rfl, h⟩
  | none =>
    dsimp only
    rw [hlength]
    split
    next => exact .error _
    next hroom =>
      rw [hfound, if_neg hroom] at htotal
      have horder : TransCmp order := htotal _ _ rfl ⟨name, order, []⟩ List.mem_concat_self
      refine .ok ⟨rfl, h.mapSize_eq, ?_⟩
      constructor
      case tables =>
        exact List.rel_append h.committed.tables
          (.cons ⟨rfl, horder, ⟨rfl, .nil⟩, List.Perm.refl _⟩ .nil)
      case length_le =>
        rw [List.length_append, hlength]
        exact Nat.lt_of_not_le hroom
      case size_eq =>
        rw [Ledger.bytes, List.flatMap_append, totalSize_append]
        exact h.committed.size_eq
      case size_le => exact h.committed.size_le

theorem call (h : s.Booked mapSize l) {c : StoreCall} (hc : (l.call mapSize c).2.Total) :
    (s.call c).1 = (l.call mapSize c).1 ∧ (s.call c).2.Booked mapSize (l.call mapSize c).2 := by
  cases c with
  | openTable name order =>
    have htotal : ∀ t l', l.openTable name order = .ok (t, l') → Ledger.Total l' := by
      intro t l' hopen
      rw [Ledger.call, hopen] at hc
      exact hc
    exact attempt_agrees h
      ((h.openTable htotal).map fun _ _ hbooked => ⟨congrArg _ hbooked.1, hbooked.2⟩)
  | write cs ending =>
    obtain ⟨hanswers, hbooked⟩ := h.beginWrite.writes cs
    refine ⟨congrArg _ hanswers, ?_⟩
    cases ending with
    | commit => exact ⟨h.mapSize_eq, hbooked.working⟩
    | abort => exact h
    | drop => exact h

theorem calls (h : s.Booked mapSize l) {cs : List StoreCall} (hcs : (l.calls mapSize cs).2.Total) :
    (s.calls cs).1 = (l.calls mapSize cs).1 ∧ (s.calls cs).2.Booked mapSize (l.calls mapSize cs).2 :=
  callAll_agrees (fun _ _ _ hc h => h.call hc) (fun _ _ hc => hc.of_call) hcs h

end Booked

/-- After any calls, and then inside a transaction after any writes: the answers were those of the ledger,
and all that can be read is what it notes. -/
theorem keeps_books {mapSize : Nat} {past : List StoreCall}
    (htotal : (Ledger.calls mapSize [] past).2.Total) (cs : List WriteCall) :
    let (answers, s) := (empty mapSize).calls past
    let (answers', l) := Ledger.calls mapSize [] past
    let (written, w) := s.beginWrite.writes cs
    let (written', m) := l.writes mapSize cs
    (answers = answers' ∧ s.committed.Reads mapSize l) ∧
      (written = written' ∧ w.working.Reads mapSize m) := by
  obtain ⟨hanswers, hbooked⟩ := (booked_empty mapSize).calls htotal
  obtain ⟨hwritten, hworking⟩ := hbooked.beginWrite.writes cs
  exact ⟨⟨hanswers, hbooked.committed.reads⟩, hwritten, hworking.working.reads⟩

theorem keeps_books_ignoringLast :
    ∃ (s : Store) (l m : Ledger) (w : WriteTxn),
      (empty 12).calls [.openTable "a" KeyOrder.ignoringLast, .openTable "b" KeyOrder.lexicographic,
        .openTable "a" fun _ _ => .lt,
        .write [.put 0 [] [5], .put 0 [9] [6], .put 1 [7] [8, 9]] .commit,
        .write [.delete 1 [7]] .abort] =
          ([.opened 0, .opened 1, .opened 0, .wrote [.done, .done, .done], .wrote [.removed true]], s) ∧
      s.committed.Reads 12 l ∧ s.committed.size = 5 ∧
      s.committed.tables.map Table.entries = [[([9], [6])], [([7], [8, 9])]] ∧
      s.beginWrite.writes [.put 1 [7, 7] [1, 2, 3, 4, 5, 6], .put 2 [] [], .delete 0 [4],
        .put 1 [7] []] =
          ([.failed (.store (.mapFull 13 12)), .failed (.store (.unknownTable 2)), .removed true,
            .done], w) ∧
      w.working.Reads 12 m ∧ w.working.size = 1 ∧
      w.working.tables.map Table.entries = [[], [([7], [])]] := by
  let past : List StoreCall := [.openTable "a" KeyOrder.ignoringLast,
    .openTable "b" KeyOrder.lexicographic, .openTable "a" fun _ _ => .lt,
    .write [.put 0 [] [5], .put 0 [9] [6], .put 1 [7] [8, 9]] .commit, .write [.delete 1 [7]] .abort]
  have hledger : (Ledger.calls 12 [] past).2 = [⟨"a", KeyOrder.ignoringLast, [([9], [6])]⟩,
      ⟨"b", KeyOrder.lexicographic, [([7], [8, 9])]⟩] := rfl
  have htotal : (Ledger.calls 12 [] past).2.Total := by
    rw [hledger, Ledger.Total, List.forall_mem_cons, List.forall_mem_singleton]
    exact ⟨inferInstanceAs (TransCmp KeyOrder.ignoringLast),
      inferInstanceAs (TransCmp KeyOrder.lexicographic)⟩
  obtain ⟨⟨-, hcommitted⟩, -, hworking⟩ := @keeps_books 12 past htotal
    [.put 1 [7, 7] [1, 2, 3, 4, 5, 6], .put 2 [] [], .delete 0 [4], .put 1 [7] []]
  exact ⟨_, _, _, _, rfl, hcommitted, rfl, rfl, rfl, hworking, rfl, rfl⟩

end Store

end ObjectGraph
