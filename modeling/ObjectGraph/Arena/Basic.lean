import ObjectGraph.Arena.Pages

namespace ObjectGraph

structure Span where
  offset : Nat
  length : Nat
deriving DecidableEq

structure Arena where
  quota : Quota
  pageSize : Nat
  pages : Pages

namespace Arena

def create (capacity pageSize : Nat) : Except Error Arena := do
  let quota ← Quota.create capacity pageSize
  return ⟨quota, pageSize, Pages.reserve quota.capacity⟩

def committed (a : Arena) : Nat := a.pages.bytes.length

def pagesFor (a : Arena) (length : Nat) : Nat :=
  min ((length + a.pageSize - 1) / a.pageSize * a.pageSize) a.quota.capacity

def get (a : Arena) (s : Span) : Bytes := (a.pages.bytes.drop s.offset).take s.length

def set (a : Arena) (s : Span) (bs : Bytes) : Arena := { a with pages := a.pages.write s.offset bs }

/-- A committed page may hold bytes from before a reset, so a new span is cleared. -/
def allocZeroed (a : Arena) (length : Nat) : Except Error (Span × Arena) := do
  let quota ← a.quota.take length
  let pages ←
    if a.committed < quota.used then a.pages.commit (a.pagesFor quota.used) else pure a.pages
  let span : Span := ⟨a.quota.used, length⟩
  return (span, { a with quota, pages := pages.write span.offset (List.replicate length 0) })

def alloc (a : Arena) (bs : Bytes) : Except Error (Span × Arena) := do
  let (span, a) ← a.allocZeroed bs.length
  return (span, a.set span bs)

def contents (a : Arena) : Bytes := a.pages.bytes.take a.quota.used

def setContents (a : Arena) (bs : Bytes) : Arena := { a with pages := a.pages.write 0 bs }

def reset (a : Arena) : Arena :=
  { a with
    quota := a.quota.reset
    pages := a.pages.decommit (min a.pageSize a.quota.capacity) }

end Arena

end ObjectGraph
