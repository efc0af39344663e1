/-!
# Identities

Variables, labels, lambdas, methods, host objects and sets of variables are told apart by identity
and not by content: two nameless variables of one type are two variables. An identity is plain data,
so that handles are compared, looked up and renamed like any other key.

The entities that writing a script brings about get identities of their own, built from the ones
they stand for. Since every constructor is injective, a new identity never meets another one that
was made in a different way.
-/

namespace Scribe

/-- What tells one entity from another of the same sort. -/
inductive Ident where
  /-- An entity of the tree that was handed in. -/
  | given (key : String)
  /-- The named variable that stands in for a nameless one. -/
  | renamed (source : Ident)
  /-- The method that stands in for a lambda without outer variables. -/
  | promoted (source : Ident)
  /-- The lambda made by the `turn`-th writing of a lambda in place. -/
  | inlined (source : Ident) (turn : Nat)
  /-- The entry method that stands in for the outermost lambda. -/
  | entry (source : Ident)
deriving DecidableEq, Repr

end Scribe
