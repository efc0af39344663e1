import Scribe.Proofs.Tree.Site
import Scribe.Script.Basic

/-!
# Records of what is written

While a tree is written, an *observer* looks at every node: where the writing of the node begins, and where it ends. At
both moments it may stop the whole run with an error, and nothing else is different. `Tree.Records` says of a list of
stints that it is the record of a run: every observer does to the run what the stints say, moment by moment, and also
when the run fails in the end. So a record lists the visits of all nodes, those inside a visit below it, in the order in
which they are made.

A node that is visited is known with its place. The place of a node tells the loops and switches around it inside its
function, and how many functions are around that one. A child that is needed as a value and is no expression becomes a
closure, which is a function of its own; so is the body of a lambda in braces, and that of a lambda that becomes a
method. The expression that is the body of a lambda in place belongs to the function around the lambda.
-/

namespace Scribe

open Writing
open Text (Page)

/-! ## Places -/

/-- A loop or a switch. -/
inductive Ring where
  | loop (exit again : Option Label)
  | switch

/-- Where a node is written. -/
structure Place where
  /-- The loops and switches around it inside its function, the innermost first. -/
  rings : List Ring := []
  /-- How many functions are around its function. -/
  depth : Nat := 0

namespace Place

/-- Inside a loop or a switch. -/
def inside (p : Place) (ring : Ring) : Place := { p with rings := ring :: p.rings }

/-- Inside another function. -/
def function (p : Place) : Place := ⟨[], p.depth + 1⟩

/-- Where a tree is written that is needed as a value. -/
def ofValue (p : Place) (t : Tree) : Place := if t.isExpression then p else p.function

end Place

section Located

variable {α β : Type} (tree : α → Tree) (p : Place) (inPlace : Bool)

/-- A case whose body is at the place. -/
def Case.located (k : Case α) : Case (α × Place) := ⟨k.tests.map fun c => (c, p.ofValue (tree c)), (k.body, p)⟩

/-- A handler whose body is at the place. -/
def Handler.located (h : Handler α) : Handler (α × Place) :=
  ⟨h.test, h.caught, h.filter.map fun c => (c, p.ofValue (tree c)), (h.body, p)⟩

/-- Every child with the place at which it is written; `inPlace` says whether a lambda is written in place. -/
def Node.located : Node α → Node (α × Place)
  | .lambda sig body => .lambda sig (body, if inPlace then p.ofValue (tree body) else p.function)
  | .conditional test ifTrue ifFalse ty => .conditional (test, p.ofValue (tree test)) (ifTrue, p) (ifFalse, p) ty
  | .block vars body ty => .block vars (body.map fun c => (c, p)) ty
  | .loop body exit again => .loop (body, p.inside (.loop exit again)) exit again
  | .switch value cases fallback ty =>
    .switch (value, p.ofValue (tree value))
      (cases.map (Case.located tree (p.inside .switch))) (fallback.map fun c => (c, p.inside .switch)) ty
  | .tryCatch body handlers final fault ty =>
    .tryCatch (body, p) (handlers.map (Handler.located tree p)) (final.map fun c => (c, p))
      (fault.map fun c => (c, p)) ty
  | n => n.map fun c => (c, p.ofValue (tree c))

theorem Node.map_located (n : Node α) : (n.located tree p inPlace).map Prod.fst = n := by
  cases n with
  | lambda sig body | conditional test ifTrue ifFalse ty | loop body exit again => rfl
  | block vars body ty => simp [located, map, Function.comp_def]
  | switch value cases fallback ty => simp [located, map, Case.map, Case.located, Function.comp_def]
  | tryCatch body handlers final fault ty => simp [located, map, Handler.map, Handler.located, Function.comp_def]
  | _ =>
    simp only [located, Node.map_map]
    exact Node.map_id _

/-- The places of the children are a matter of their trees. -/
theorem Node.located_map (f : β → α) (n : Node β) :
    (n.map f).located tree p inPlace = (n.located (tree ∘ f) p inPlace).map (Prod.map f id) := by
  cases n <;> simp [located, map, Case.map, Case.located, Handler.map, Handler.located, Function.comp_def,
    Binding.mapAll_mapAll]

end Located

/-! ## Observers -/

/-- The moment when the writing of a node begins. -/
structure Moment where
  place : Place
  node : Node Tree
  tail : Tail
  before : Draft

/-- Looks at every node that is written, and may stop the run where the writing begins and where it ends. -/
structure Observer where
  begins : Moment → Option ScriptError
  ends : Moment → Tree → Draft → Option ScriptError

/-- Goes on, unless there is an error. -/
def Writing.orStop {α : Type} (stop : Option ScriptError) (x : Writing α) : Writing α :=
  match stop with
  | some err => throw err
  | none => x

/-- Writes under the eyes of an observer. -/
def Writing.watched (o : Observer) (start : Draft → Moment) (x : Writing Tree) : Writing Tree := do
  let m := start (← get)
  orStop (o.begins m) do
    let t ← x
    let e ← get
    orStop (o.ends m t e) (pure t)

section Observed

variable (o : Observer)

/-- The pieces of the children at their places. -/
def Node.pieces (n : Node (Tree × (Place → Rendition))) (p : Place) (inPlace : Bool) : Node Piece :=
  (n.located Prod.fst p inPlace).map fun c => (c.1.1, c.1.2 c.2)

/-- The ways of writing a node under the eyes of an observer. -/
def Node.observed (n : Node (Tree × (Place → Rendition))) (p : Place) : Rendition where
  write tail := watched o (fun d => ⟨p, n.map Prod.fst, tail, d⟩)
    ((n.pieces p (n.stays Prod.fst)).rendition.write tail)
  branches := (n.pieces p true).rendition.branches
  quoted := (n.pieces p true).rendition.quoted

/-- The ways of writing a tree at a place under the eyes of an observer. -/
def Tree.observed (t : Tree) : Place → Rendition := t.fold (Node.observed o)

/-- Writes a tree as a whole under the eyes of an observer. -/
def Tree.observeRoot (t : Tree) : Writing Tree :=
  match t.node with
  | .lambda sig body => entryMethod sig (body, body.observed o {})
  | _ => (t.observed o {}).write .discard

end Observed

/-! ## Records -/

/-- The visit of a node: how it began, the visits inside it, and how it ended, unless it was broken off. -/
inductive Stint where
  | mk (start : Moment) (inner : List Stint) (finish : Option (Tree × Draft))

namespace Stint

/-- How the visit began. -/
def start : Stint → Moment
  | mk start _ _ => start

/-- The visits inside. -/
def inner : Stint → List Stint
  | mk _ inner _ => inner

/-- What stands for the node afterwards and the draft behind it, unless the visit was broken off. -/
def finish : Stint → Option (Tree × Draft)
  | mk _ _ finish => finish

mutual

/-- The visit and all visits inside it, in the order in which they begin. -/
def all : Stint → List Stint
  | mk start inner finish => mk start inner finish :: allOf inner

/-- The visits of a list and all visits inside them, in the order in which they begin. -/
def allOf : List Stint → List Stint
  | [] => []
  | s :: ss => s.all ++ allOf ss

end

mutual

/-- Where an observer stops the visit. -/
def stopped (o : Observer) : Stint → Option ScriptError
  | mk start inner finish =>
    o.begins start <|> stoppedOf o inner <|> finish.bind fun r => o.ends start r.1 r.2

/-- Where an observer stops the visits of a list. -/
def stoppedOf (o : Observer) : List Stint → Option ScriptError
  | [] => none
  | s :: ss => stopped o s <|> stoppedOf o ss

end

theorem all_mk (start : Moment) (inner : List Stint) (finish : Option (Tree × Draft)) :
    (mk start inner finish).all = mk start inner finish :: allOf inner := by
  rw [all]

@[simp] theorem allOf_nil : allOf [] = [] := by
  rw [allOf]

@[simp] theorem allOf_cons (s : Stint) (ss : List Stint) : allOf (s :: ss) = s.all ++ allOf ss := by
  rw [allOf]

@[simp] theorem allOf_append (ss ss' : List Stint) : allOf (ss ++ ss') = allOf ss ++ allOf ss' := by
  induction ss with
  | nil => simp
  | cons s ss ih => simp [ih, List.append_assoc]

theorem allOf_singleton (start : Moment) (inner : List Stint) (finish : Option (Tree × Draft)) :
    allOf [mk start inner finish] = mk start inner finish :: allOf inner := by
  rw [allOf_cons, allOf_nil, List.append_nil, all_mk]

@[simp] theorem stoppedOf_nil (o : Observer) : stoppedOf o [] = none := by
  rw [stoppedOf]

theorem stoppedOf_append (o : Observer) (ss ss' : List Stint) :
    stoppedOf o (ss ++ ss') = (stoppedOf o ss <|> stoppedOf o ss') := by
  induction ss with
  | nil => simp
  | cons s ss ih =>
    rw [List.cons_append, stoppedOf, stoppedOf, ih]
    cases stopped o s <;> rfl

end Stint

/-- What an observer makes of a run with the given visits. -/
def Observer.stops {α : Type} (o : Observer) (record : List Stint) (result : Except ScriptError α) :
    Except ScriptError α :=
  match Stint.stoppedOf o record with
  | some err => .error err
  | none => result

@[simp] theorem Observer.stops_nil {α : Type} (o : Observer) (result : Except ScriptError α) :
    o.stops [] result = result := by
  simp [stops]

/-- The stints are the record of the run that writes the tree. -/
def Tree.Records (t : Tree) (desk : Desk) (record : List Stint) : Prop :=
  ∀ o, t.observeRoot o desk { page := desk.firstPage } = o.stops record (t.draft desk)

end Scribe
