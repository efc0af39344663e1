import Scribe.Flow
import Scribe.Proofs.Tree.Map
import Scribe.Proofs.Tree.Scope
import Scribe.Tree.Placement

/-!
# Sites

The site of a statement is what is around it inside its function: the loops, the switches and the bodies with a fault
handler, the innermost first. `Node.sited` says at which site each child of a node is written. A child that is needed as
a value and is no expression becomes a closure, which is a function of its own; so is the body of a lambda in braces,
and that of a lambda that becomes a method.

`Site.Around` says that a tree stands inside all the bodies of a site, and that those are nested.
-/

namespace Scribe

/-- A construct around a statement. -/
inductive Enclosure where
  /-- The body of a try with a fault handler, and the name of its flag. -/
  | guarded (flag : String) (body : Tree)
  | loop (exit again : Option Label)
  | switch

/-- The constructs around a statement inside its function, the innermost first. -/
abbrev Site := List Enclosure

namespace Site

/-- The site of a tree that is written as a value: one that is no expression is a function of its own. -/
def ofValue (s : Site) (t : Tree) : Site := if t.isExpression then s else []

/-- The bodies with a fault handler that are around, with the names of their flags. -/
def guards (s : Site) : List (String × Tree) :=
  s.filterMap fun
    | .guarded flag body => some (flag, body)
    | _ => none

/-- The tree stands inside all the bodies with a fault handler, which stand inside each other. -/
def Around : Site → Tree → Prop
  | [], _ => True
  | .guarded _ body :: s, t => t ∈ body.subtrees ∧ Around s body
  | .loop _ _ :: s, t => Around s t
  | .switch :: s, t => Around s t

/-- The ways in which a statement may hand on its value: nothing is returned out of a body with a fault handler. -/
def Admits (s : Site) (tail : Tail) : Prop := tail = .result → s.guards = []

theorem admits_discard (s : Site) : s.Admits .discard := nofun

theorem admits_nil (tail : Tail) : Admits [] tail := fun _ => rfl

theorem admits_of_ne {s : Site} {tail : Tail} (h : tail ≠ .result) : s.Admits tail := fun hresult => absurd hresult h

variable {s : Site} {n : Node Tree} {c t : Tree}

theorem around_nil (t : Tree) : Around [] t := trivial

/-- What is around a tree is around its children. -/
theorem Around.child (h : s.Around (.mk n)) (hc : c ∈ n.children) : s.Around c := by
  induction s with
  | nil => exact trivial
  | cons enclosure s ih =>
    cases enclosure with
    | guarded flag body => exact ⟨Tree.mem_subtrees_child h.1 hc, h.2⟩
    | loop exit again | switch => exact ih h

theorem Around.ofValue (h : s.Around t) : (s.ofValue t).Around t := by
  unfold Site.ofValue
  split
  · exact h
  · exact trivial

theorem Around.guarded (h : s.Around t) (flag : String) : Around (.guarded flag t :: s) t :=
  ⟨Tree.mem_subtrees_self t, h⟩

end Site

/-! ## The sites of the children -/

section Sited

variable {α β : Type} (tree : α → Tree) (s : Site) (flag : String) (inPlace : Bool)

/-- A case whose body is at the site. -/
def Case.sited (k : Case α) : Case (α × Site) := ⟨k.tests.map fun c => (c, s.ofValue (tree c)), (k.body, s)⟩

/-- A handler whose body is at the site. -/
def Handler.sited (h : Handler α) : Handler (α × Site) :=
  ⟨h.test, h.caught, h.filter.map fun c => (c, s.ofValue (tree c)), (h.body, s)⟩

/-- Every child with the site at which it is written. The flag of a try is `flag`, and `inPlace` says whether a lambda
is written in place. -/
def Node.sited : Node α → Node (α × Site)
  | .lambda sig body => .lambda sig (body, if inPlace then s.ofValue (tree body) else [])
  | .conditional test ifTrue ifFalse ty => .conditional (test, s.ofValue (tree test)) (ifTrue, s) (ifFalse, s) ty
  | .block vars body ty => .block vars (body.map fun c => (c, s)) ty
  | .loop body exit again => .loop (body, .loop exit again :: s) exit again
  | .switch value cases fallback ty =>
    .switch (value, s.ofValue (tree value))
      (cases.map (Case.sited tree (.switch :: s))) (fallback.map fun c => (c, .switch :: s)) ty
  | .tryCatch body handlers final fault ty =>
    .tryCatch (body, if fault.isSome then .guarded flag (tree body) :: s else s)
      (handlers.map (Handler.sited tree s)) (final.map fun c => (c, s)) (fault.map fun c => (c, s)) ty
  | n => n.map fun c => (c, s.ofValue (tree c))

/-- Whether a lambda is written in place. -/
def Node.stays : Node α → Bool
  | .lambda sig body => sig.captures (tree body)
  | _ => true

theorem Node.map_sited (n : Node α) : (n.sited tree s flag inPlace).map Prod.fst = n := by
  cases n with
  | lambda sig body | conditional test ifTrue ifFalse ty | loop body exit again => rfl
  | block vars body ty => simp [sited, map, Function.comp_def]
  | switch value cases fallback ty => simp [sited, map, Case.map, Case.sited, Function.comp_def]
  | tryCatch body handlers final fault ty => simp [sited, map, Handler.map, Handler.sited, Function.comp_def]
  | _ =>
    simp only [sited, Node.map_map]
    exact Node.map_id _

/-- The sites of the children are a matter of their trees. -/
theorem Node.sited_map (f : β → α) (n : Node β) :
    (n.map f).sited tree s flag inPlace = (n.sited (tree ∘ f) s flag inPlace).map (Prod.map f id) := by
  cases n <;> simp [sited, map, Case.map, Case.sited, Handler.map, Handler.sited, Function.comp_def,
    Binding.mapAll_mapAll]

theorem Node.stays_map (f : β → α) (n : Node β) : (n.map f).stays tree = n.stays (tree ∘ f) := by
  cases n <;> rfl

end Sited

end Scribe
