/-!
# Sorted lists

Sets of strings as strictly increasing lists, and a stable sort. Strings compare by code points, which
is also the order of their bytes in UTF-8.
-/

namespace Scribe.Text

/-- Adds a string to an increasing list, unless it is there. -/
def insertSorted (s : String) : List String → List String
  | [] => [s]
  | t :: ts => if s < t then s :: t :: ts else if s = t then t :: ts else t :: insertSorted s ts

/-- The strings of a list, increasing and each once. -/
def sortedSet (ss : List String) : List String :=
  ss.foldl (fun set s => insertSorted s set) []

section

variable {α : Type} (before : α → α → Bool)

/-- Inserts behind everything that `a` does not come before. -/
def insertStable (a : α) : List α → List α
  | [] => [a]
  | b :: bs => if before a b then a :: b :: bs else b :: insertStable a bs

/-- Sorts by a strict order; what the order does not tell apart keeps its order. -/
def stableSort (as : List α) : List α :=
  as.foldl (fun sorted a => insertStable before a sorted) []

end

/-- The order of pairs of strings, by the first and then by the second. -/
def pairBefore (a b : String × String) : Bool :=
  a.1 < b.1 || (a.1 == b.1 && a.2 < b.2)

end Scribe.Text
