import ObjectGraph.Arena.Basic
/-!
An arena in machine words: offsets and lengths of spans have 32 bits, all other numbers have 64. Nothing at
all comes of a number that does not fit, and of bytes taken from where there are none.
-/

namespace ObjectGraph.Words

def fit (bits n : Nat) : Option Nat := if n < 1 <<< bits then some n else none

def take (q : Quota) (length : Nat) : Except Error Quota :=
  -- a sum that does not fit is no different from one beyond the capacity
  match (fit 64 (q.used + length)).filter (· ≤ q.capacity) with
  | some used => .ok { q with used }
  | none => .error (.arenaExhausted length q.used q.capacity)

def pagesFor (a : Arena) (length : Nat) : Option Nat := do
  if a.pageSize = 0 then none
  let count ← fit 64 (length / a.pageSize + if length % a.pageSize = 0 then 0 else 1)
  return min (← fit 64 (count * a.pageSize)) a.quota.capacity

def get (p : Pages) (s : Span) : Option Bytes := do
  p.bytes.slice? s.offset ((← fit 64 (s.offset + s.length)) - s.offset)

def set (p : Pages) (s : Span) (bs : Bytes) : Option Pages := do
  if (← get p s).length = bs.length then some (p.write s.offset bs) else none

def reach (a : Arena) (used : Nat) : ExceptT Error Option Pages := do
  if a.committed < used then ofExcept (a.pages.commit (← pagesFor a used)) else return a.pages

def allocZeroed (a : Arena) (length : Nat) : ExceptT Error Option (Span × Arena) := do
  let quota ← ofExcept (take a.quota length)
  let pages ← reach a quota.used
  let span : Span := ⟨← fit 32 a.quota.used, ← fit 32 length⟩
  return (span, { a with quota, pages := ← set pages span (List.replicate span.length 0) })

def alloc (a : Arena) (bs : Bytes) : ExceptT Error Option (Span × Arena) := do
  let (span, a) ← allocZeroed a bs.length
  return (span, { a with pages := ← set a.pages span bs })

def contents (a : Arena) : Option Bytes := a.pages.bytes.slice? 0 a.quota.used

def setContents (a : Arena) (bs : Bytes) : Option Arena := do
  if (← contents a).length = bs.length then some { a with pages := a.pages.write 0 bs } else none

def patch (a : Arena) (offset : Nat) (bs : Bytes) : Option Arena := do
  let stop ← fit 64 (offset + bs.length)
  if stop ≤ (← contents a).length then some { a with pages := a.pages.write offset bs } else none

end ObjectGraph.Words
