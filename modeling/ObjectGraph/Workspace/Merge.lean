import ObjectGraph.Overlay.Basic
/-!
Staged values, and what is visible of a table under them. A merged cursor moves a cursor on the table
and one on the overlay side by side: the lower key is visited first, of equal keys only the staged
one, and a removal is passed over together with the entry that it hides.
-/

namespace ObjectGraph

namespace Staged

def upsert (v : Bytes) : Bytes := 1 :: v

def tombstone : Bytes := [0]

def payload? : Bytes → Option Bytes
  | 1 :: v => some v
  | _ => none

def IsRemoval (e : Entry) : Prop := e.2.head? ≠ some 1

instance : DecidablePred IsRemoval := fun e => inferInstanceAs (Decidable (e.2.head? ≠ some 1))

end Staged

inductive Source where
  | base
  | staged
  | both
  | exhausted
deriving DecidableEq

/-- The position of a merged cursor: what either cursor has yet to visit, and which one is on turn. -/
structure Position where
  base : List Entry
  staged : List Entry
  source : Source

namespace Position

def settle (order : KeyOrder) : (base staged : List Entry) → Position
  | [], [] => ⟨[], [], .exhausted⟩
  | b :: base, [] => ⟨b :: base, [], .base⟩
  | [], e :: staged =>
    if Staged.IsRemoval e then settle order [] staged else ⟨[], e :: staged, .staged⟩
  | b :: base, e :: staged =>
    match order b.1 e.1 with
    | .lt => ⟨b :: base, e :: staged, .base⟩
    | .gt =>
      if Staged.IsRemoval e then settle order (b :: base) staged
      else ⟨b :: base, e :: staged, .staged⟩
    | .eq =>
      if Staged.IsRemoval e then settle order base staged
      else ⟨b :: base, e :: staged, .both⟩

def current? (p : Position) : Option Entry :=
  match p.source with
  | .base => p.base.head?
  | .staged | .both => p.staged.head?.map fun e => (e.1, e.2.drop 1)
  | .exhausted => none

def advance (order : KeyOrder) (p : Position) : Position :=
  match p.source with
  | .base => settle order p.base.tail p.staged
  | .staged => settle order p.base p.staged.tail
  | .both => settle order p.base.tail p.staged.tail
  | .exhausted => p

def distance (p : Position) : Nat := p.base.length + p.staged.length

theorem distance_settle (order : KeyOrder) (base staged : List Entry) :
    (settle order base staged).distance ≤ base.length + staged.length := by
  fun_induction settle order base staged <;> simp_all [distance] <;> omega

theorem distance_advance (order : KeyOrder) {p : Position} {e : Entry} (h : p.current? = some e) :
    (p.advance order).distance < p.distance := by
  obtain ⟨base, staged, source⟩ := p
  cases source with
  | base =>
    obtain ⟨b, base, rfl⟩ : ∃ b rest, base = b :: rest := by
      cases base <;> simp_all [current?]
    have := distance_settle order base staged
    simp only [advance, distance, List.tail_cons, List.length_cons] at this ⊢
    omega
  | staged =>
    obtain ⟨s, staged, rfl⟩ : ∃ s rest, staged = s :: rest := by
      cases staged <;> simp_all [current?]
    have := distance_settle order base staged
    simp only [advance, distance, List.tail_cons, List.length_cons] at this ⊢
    omega
  | both =>
    obtain ⟨s, staged, rfl⟩ : ∃ s rest, staged = s :: rest := by
      cases staged <;> simp_all [current?]
    have := distance_settle order base.tail staged
    simp only [advance, distance, List.tail_cons, List.length_cons, List.length_tail] at this ⊢
    omega
  | exhausted => simp [current?] at h

def remaining (order : KeyOrder) (p : Position) : List Entry :=
  match _ : p.current? with
  | none => []
  | some e => e :: (p.advance order).remaining order
termination_by p.distance
decreasing_by exact distance_advance order ‹_›

end Position

structure MergedCursor where
  base : Table
  overlay : Overlay
  position : Position

namespace MergedCursor

def create (base : Table) (overlay : Overlay) : MergedCursor := ⟨base, overlay, [], [], .exhausted⟩

def seek (c : MergedCursor) (k : Bytes) : MergedCursor :=
  { c with position :=
      .settle c.overlay.order (c.base.startingAt k) (c.overlay.startingAt k) }

def seekFirst (c : MergedCursor) : MergedCursor :=
  { c with position := .settle c.overlay.order c.base.entries c.overlay.entries }

def current? (c : MergedCursor) : Option Entry := c.position.current?

def advance (c : MergedCursor) : MergedCursor :=
  { c with position := c.position.advance c.overlay.order }

def remaining (c : MergedCursor) : List Entry := c.position.remaining c.overlay.order

end MergedCursor

end ObjectGraph
