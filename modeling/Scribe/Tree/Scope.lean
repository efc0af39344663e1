import Scribe.Tree.Typing

/-!
# Scopes

Which variables and labels a tree speaks of, and which of the variables it takes from outside.
-/

namespace Scribe

namespace Tree

/-- Whether the variable `v` occurs anywhere in the tree. -/
def mentions (t : Tree) (v : Ident) : Bool :=
  t.fold fun
    | .var w => w.id == v
    | .varSet set => set.members.any (·.id == v)
    | n => n.children.any (·.2)

/-- The labels that a jump can go to inside the tree: the labels themselves, and both labels of every
loop. -/
def labels (t : Tree) : List Ident :=
  t.fold fun n =>
    let own := match n with
      | .label target _ => [target.id]
      | .loop _ exit again => (exit.toList ++ again.toList).map (·.id)
      | _ => []
    own ++ n.children.flatMap (·.2)

end Tree

/-! ## Variables from outside -/

/-- A search that keeps the variables in scope on a stack. -/
abbrev Search := StateM (List Ident)

/-- Searches with more variables on the stack, which is cut back to its height afterwards. -/
def Search.under (vars : List Variable) (search : Search Bool) : Search Bool := do
  let height := (← get).length
  modify (· ++ vars.map (·.id))
  let found ← search
  modify (·.take height)
  return found

/-- Whether a layer uses a variable that is neither on the stack nor bound inside, given the searches of the children.
A block binds its variables, a lambda its parameters, and a handler its variable in both filter and body. The search
stops at the first such use. -/
def Node.usesUnbound {α : Type} (search : α → Search Bool) : Node α → Search Bool
  | .var v => return !(← get).contains v.id
  | .varSet set => do
    let bound ← get
    return set.members.any (!bound.contains ·.id)
  | .block vars body _ => .under vars (body.anyM search)
  | .lambda sig body => .under sig.params (search body)
  | .tryCatch body handlers final fault _ =>
    search body <||> final.toList.anyM search <||> fault.toList.anyM search <||>
      handlers.anyM fun h => .under h.caught.toList (search h.body <||> h.filter.toList.anyM search)
  | n => n.children.anyM search

/-- Whether the tree uses a variable that is neither on the stack nor bound inside the tree. -/
def Tree.usesUnbound (t : Tree) : Search Bool := t.fold (Node.usesUnbound Prod.snd)

/-- Whether a lambda with this signature and body uses a variable of its surroundings. -/
def Signature.captures (sig : Signature) (body : Tree) : Bool :=
  (body.usesUnbound.run (sig.params.map (·.id))).1

end Scribe
