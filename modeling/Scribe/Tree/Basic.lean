import Scribe.Operator.LateBound
import Scribe.Entity
import Scribe.Value.Basic

/-!
# Trees

A `Node α` is one layer of an expression tree whose children are of type `α`; a `Tree` is a node whose
children are trees. What is said of one layer, such as its type or its kind, is said of `Node α` for
every `α`.

## Recursion

`Tree.fold` is the recursion that everything else is built from: it hands each layer to a function
together with what the fold made of the children. Each child comes with its own tree, so the function
may also ask about the child itself. `Tree.fold_mk` states this as an equation in `Node.map`, and
`Tree.induction` is the induction that goes with it.
-/

namespace Scribe

/-! ## One layer -/

/-- How a new array is described. -/
inductive ArrayForm where
  /-- The elements are listed. -/
  | elements
  /-- The lengths of the dimensions are given. -/
  | bounds
deriving DecidableEq, Repr

/-- What a jump is meant as. -/
inductive JumpKind where
  | goto | returnTo | breakTo | continueTo
deriving DecidableEq, Repr

/-- What a test asks of a value's type. -/
inductive TypeTest where
  /-- Whether the value is of the type or of a type derived from it. -/
  | is
  /-- Whether the value is of exactly the type. -/
  | equal
deriving DecidableEq, Repr

/-- A range of text; the end is not part of it. -/
structure Span where
  startLine : Nat
  startColumn : Nat
  endLine : Nat
  endColumn : Nat
deriving DecidableEq, Repr

/-- A case of a switch. -/
structure Case (α : Type) where
  tests : List α
  body : α

/-- A handler of a try. -/
structure Handler (α : Type) where
  /-- The type of the exceptions that are handled. -/
  test : Ty
  /-- The variable that the handler binds the exception to. -/
  caught : Option Variable
  filter : Option α
  body : α

/-- How an initializer sets a member of the object it has made. -/
inductive Binding (α : Type) where
  | assign (member : Member) (value : α)
  /-- Adds elements; each is added with a list of arguments. -/
  | elements (member : Member) (inits : List (List α))
  | nested (member : Member) (bindings : List (Binding α))

/-- One layer of a tree, with children of type `α`. -/
inductive Node (α : Type) where
  | binary (op : BinaryOp) (left right : α) (ty : Ty)
  /-- Only a `throw` goes without an operand. -/
  | unary (op : UnaryOp) (operand : Option α) (ty : Ty)
  | constant (value : Value) (ty : Ty)
  | defaultOf (ty : Ty)
  | var (v : Variable)
  | lambda (sig : Signature) (body : α)
  | invoke (target : α) (args : List α) (ty : Ty)
  /-- A call; a static method has no receiver. -/
  | call (receiver : Option α) (method : Method) (args : List α)
  | new (ty : Ty) (args : List α)
  | newArray (form : ArrayForm) (ty : Ty) (items : List α)
  | member (receiver : Option α) (member : Member)
  | memberInit (ty : Ty) (args : List α) (bindings : List (Binding α))
  | listInit (ty : Ty) (args : List α) (inits : List (List α))
  /-- An access through brackets; an array has no indexer. -/
  | index (receiver : α) (indexer : Option Member) (args : List α) (ty : Ty)
  | conditional (test ifTrue ifFalse : α) (ty : Ty)
  | block (vars : List Variable) (body : List α) (ty : Ty)
  | loop (body : α) (exit again : Option Label)
  | jump (kind : JumpKind) (target : Label) (value : Option α) (ty : Ty)
  | label (target : Label) (value : Option α)
  | switch (value : α) (cases : List (Case α)) (fallback : Option α) (ty : Ty)
  | tryCatch (body : α) (handlers : List (Handler α)) (final fault : Option α) (ty : Ty)
  | typeTest (test : TypeTest) (operand : α) (ty : Ty)
  /-- Marks the range of text of the statement that follows. -/
  | sequencePoint (document : String) (span : Span)
  | varSet (set : VariableSet)
  | dynamic (op : LateBound) (args : List α) (ty : Ty)
  /-- A node that another library defines, and that has to be reduced by it first. -/
  | extension (name : String) (ty : Ty)

/-! ## The same layer over other children -/

section Map

variable {α β γ : Type}

/-- The same case with every child replaced by its image. -/
def Case.map (f : α → β) (c : Case α) : Case β :=
  ⟨c.tests.map f, f c.body⟩

/-- The same handler with every child replaced by its image. -/
def Handler.map (f : α → β) (h : Handler α) : Handler β :=
  ⟨h.test, h.caught, h.filter.map f, f h.body⟩

mutual

/-- The same binding with every child replaced by its image. -/
def Binding.map (f : α → β) : Binding α → Binding β
  | .assign m e => .assign m (f e)
  | .elements m inits => .elements m (inits.map (List.map f))
  | .nested m bs => .nested m (mapAll f bs)

/-- `Binding.map` on every binding of a list. -/
def Binding.mapAll (f : α → β) : List (Binding α) → List (Binding β)
  | [] => []
  | b :: bs => b.map f :: mapAll f bs

end

/-- The same layer with every child replaced by its image. -/
def Node.map (f : α → β) : Node α → Node β
  | .binary op l r ty => .binary op (f l) (f r) ty
  | .unary op e ty => .unary op (e.map f) ty
  | .constant v ty => .constant v ty
  | .defaultOf ty => .defaultOf ty
  | .var v => .var v
  | .lambda sig body => .lambda sig (f body)
  | .invoke t args ty => .invoke (f t) (args.map f) ty
  | .call r m args => .call (r.map f) m (args.map f)
  | .new ty args => .new ty (args.map f)
  | .newArray form ty items => .newArray form ty (items.map f)
  | .member r m => .member (r.map f) m
  | .memberInit ty args bs => .memberInit ty (args.map f) (Binding.mapAll f bs)
  | .listInit ty args inits => .listInit ty (args.map f) (inits.map (List.map f))
  | .index r m args ty => .index (f r) m (args.map f) ty
  | .conditional t a b ty => .conditional (f t) (f a) (f b) ty
  | .block vs body ty => .block vs (body.map f) ty
  | .loop body exit again => .loop (f body) exit again
  | .jump k l v ty => .jump k l (v.map f) ty
  | .label l v => .label l (v.map f)
  | .switch v cs d ty => .switch (f v) (cs.map (Case.map f)) (d.map f) ty
  | .tryCatch b hs fin flt ty =>
    .tryCatch (f b) (hs.map (Handler.map f)) (fin.map f) (flt.map f) ty
  | .typeTest t e ty => .typeTest t (f e) ty
  | .sequencePoint doc span => .sequencePoint doc span
  | .varSet set => .varSet set
  | .dynamic op args ty => .dynamic op (args.map f) ty
  | .extension name ty => .extension name ty

mutual

/-- The children of a binding, from left to right. -/
def Binding.children : Binding α → List α
  | .assign _ e => [e]
  | .elements _ inits => inits.flatten
  | .nested _ bs => childrenAll bs

/-- The children of a list of bindings, from left to right. -/
def Binding.childrenAll : List (Binding α) → List α
  | [] => []
  | b :: bs => b.children ++ childrenAll bs

end

/-- The children of a layer, from left to right. -/
def Node.children : Node α → List α
  | .binary _ l r _ => [l, r]
  | .unary _ e _ => e.toList
  | .lambda _ body => [body]
  | .invoke t args _ => t :: args
  | .call r _ args => r.toList ++ args
  | .new _ args => args
  | .newArray _ _ items => items
  | .member r _ => r.toList
  | .memberInit _ args bs => args ++ Binding.childrenAll bs
  | .listInit _ args inits => args ++ inits.flatten
  | .index r _ args _ => r :: args
  | .conditional t a b _ => [t, a, b]
  | .block _ body _ => body
  | .loop body _ _ => [body]
  | .jump _ _ v _ => v.toList
  | .label _ v => v.toList
  | .switch v cs d _ => v :: cs.flatMap (fun c => c.tests ++ [c.body]) ++ d.toList
  | .tryCatch b hs fin flt _ =>
    b :: hs.flatMap (fun h => h.filter.toList ++ [h.body]) ++ fin.toList ++ flt.toList
  | .typeTest _ e _ => [e]
  | .dynamic _ args _ => args
  | .constant _ _ | .defaultOf _ | .var _ | .sequencePoint _ _ | .varSet _
  | .extension _ _ => []

theorem Binding.mapAll_eq (f : α → β) (bs : List (Binding α)) : mapAll f bs = bs.map (Binding.map f) := by
  induction bs with
  | nil => rfl
  | cons b bs ih => rw [mapAll, ih, List.map_cons]

theorem Binding.childrenAll_eq (bs : List (Binding α)) : childrenAll bs = bs.flatMap children := by
  induction bs with
  | nil => rfl
  | cons b bs ih => rw [childrenAll, ih, List.flatMap_cons]

mutual

theorem Binding.children_map (f : α → β) : ∀ b : Binding α, (b.map f).children = b.children.map f
  | .assign _ _ => rfl
  | .elements _ _ => by simp [Binding.map, Binding.children, List.map_flatten]
  | .nested _ bs => by simp only [Binding.map, Binding.children, childrenAll_mapAll f bs]

theorem Binding.childrenAll_mapAll (f : α → β) :
    ∀ bs : List (Binding α), childrenAll (mapAll f bs) = (childrenAll bs).map f
  | [] => rfl
  | b :: bs => by
    simp only [mapAll, childrenAll, children_map f b, childrenAll_mapAll f bs, List.map_append]

end

/-- The children of an image are the images of the children. -/
theorem Node.children_map (f : α → β) (n : Node α) : (n.map f).children = n.children.map f := by
  cases n <;>
    simp [Node.map, Node.children, Binding.childrenAll_mapAll, List.map_flatten, Option.toList_map,
      List.flatMap_map, List.map_flatMap, Case.map, Handler.map]

end Map

/-! ## Trees -/

/-- An expression tree. -/
inductive Tree where
  | mk (node : Node Tree)

/-- The outermost layer of a tree. -/
def Tree.node : Tree → Node Tree
  | .mk node => node

/-- The direct subtrees, from left to right. -/
def Tree.children (t : Tree) : List Tree := t.node.children

/-! ## The fold -/

section Fold

variable {β : Type}

mutual

/-- Computes a result for a tree, layer by layer: `f` gets each layer with every child and the result
for that child. -/
def Tree.fold (f : Node (Tree × β) → β) : Tree → β
  | .mk n => f (foldNode f n)

/-- The layer, each child with its result. -/
def Tree.foldNode (f : Node (Tree × β) → β) : Node Tree → Node (Tree × β)
  | .binary op l r ty => .binary op (l, l.fold f) (r, r.fold f) ty
  | .unary op e ty => .unary op (foldOption f e) ty
  | .constant v ty => .constant v ty
  | .defaultOf ty => .defaultOf ty
  | .var v => .var v
  | .lambda sig body => .lambda sig (body, body.fold f)
  | .invoke t args ty => .invoke (t, t.fold f) (foldList f args) ty
  | .call r m args => .call (foldOption f r) m (foldList f args)
  | .new ty args => .new ty (foldList f args)
  | .newArray form ty items => .newArray form ty (foldList f items)
  | .member r m => .member (foldOption f r) m
  | .memberInit ty args bs => .memberInit ty (foldList f args) (foldBindings f bs)
  | .listInit ty args inits => .listInit ty (foldList f args) (foldLists f inits)
  | .index r m args ty => .index (r, r.fold f) m (foldList f args) ty
  | .conditional t a b ty => .conditional (t, t.fold f) (a, a.fold f) (b, b.fold f) ty
  | .block vs body ty => .block vs (foldList f body) ty
  | .loop body exit again => .loop (body, body.fold f) exit again
  | .jump k l v ty => .jump k l (foldOption f v) ty
  | .label l v => .label l (foldOption f v)
  | .switch v cs d ty => .switch (v, v.fold f) (foldCases f cs) (foldOption f d) ty
  | .tryCatch b hs fin flt ty =>
    .tryCatch (b, b.fold f) (foldHandlers f hs) (foldOption f fin) (foldOption f flt) ty
  | .typeTest t e ty => .typeTest t (e, e.fold f) ty
  | .sequencePoint doc span => .sequencePoint doc span
  | .varSet set => .varSet set
  | .dynamic op args ty => .dynamic op (foldList f args) ty
  | .extension name ty => .extension name ty

def Tree.foldOption (f : Node (Tree × β) → β) : Option Tree → Option (Tree × β)
  | none => none
  | some t => some (t, t.fold f)

def Tree.foldList (f : Node (Tree × β) → β) : List Tree → List (Tree × β)
  | [] => []
  | t :: ts => (t, t.fold f) :: foldList f ts

def Tree.foldLists (f : Node (Tree × β) → β) : List (List Tree) → List (List (Tree × β))
  | [] => []
  | ts :: tss => foldList f ts :: foldLists f tss

def Tree.foldCase (f : Node (Tree × β) → β) : Case Tree → Case (Tree × β)
  | ⟨tests, body⟩ => ⟨foldList f tests, (body, body.fold f)⟩

def Tree.foldCases (f : Node (Tree × β) → β) : List (Case Tree) → List (Case (Tree × β))
  | [] => []
  | c :: cs => foldCase f c :: foldCases f cs

def Tree.foldHandler (f : Node (Tree × β) → β) : Handler Tree → Handler (Tree × β)
  | ⟨test, v, filter, body⟩ => ⟨test, v, foldOption f filter, (body, body.fold f)⟩

def Tree.foldHandlers (f : Node (Tree × β) → β) : List (Handler Tree) → List (Handler (Tree × β))
  | [] => []
  | h :: hs => foldHandler f h :: foldHandlers f hs

def Tree.foldBinding (f : Node (Tree × β) → β) : Binding Tree → Binding (Tree × β)
  | .assign m e => .assign m (e, e.fold f)
  | .elements m inits => .elements m (foldLists f inits)
  | .nested m bs => .nested m (foldBindings f bs)

def Tree.foldBindings (f : Node (Tree × β) → β) : List (Binding Tree) → List (Binding (Tree × β))
  | [] => []
  | b :: bs => foldBinding f b :: foldBindings f bs

end

variable (f : Node (Tree × β) → β)

/-- A tree together with what the fold makes of it. -/
def Tree.withFold (t : Tree) : Tree × β := (t, t.fold f)

theorem Tree.foldOption_eq (e : Option Tree) : foldOption f e = e.map (withFold f) := by
  cases e <;> rfl

theorem Tree.foldList_eq (ts : List Tree) : foldList f ts = ts.map (withFold f) := by
  induction ts with
  | nil => rfl
  | cons t ts ih => simp [foldList, ih, withFold]

theorem Tree.foldLists_eq (tss : List (List Tree)) :
    foldLists f tss = tss.map (List.map (withFold f)) := by
  induction tss with
  | nil => rfl
  | cons ts tss ih => simp [foldLists, ih, foldList_eq]

theorem Tree.foldCases_eq (cs : List (Case Tree)) :
    foldCases f cs = cs.map (Case.map (withFold f)) := by
  induction cs with
  | nil => rfl
  | cons c cs ih => cases c; simp [foldCases, foldCase, ih, foldList_eq, Case.map, withFold]

theorem Tree.foldHandlers_eq (hs : List (Handler Tree)) :
    foldHandlers f hs = hs.map (Handler.map (withFold f)) := by
  induction hs with
  | nil => rfl
  | cons h hs ih =>
    cases h; simp [foldHandlers, foldHandler, ih, foldOption_eq, Handler.map, withFold]

mutual

theorem Tree.foldBinding_eq : ∀ b : Binding Tree, foldBinding f b = b.map (withFold f)
  | .assign _ _ => rfl
  | .elements _ _ => by simp [foldBinding, Binding.map, foldLists_eq]
  | .nested _ bs => by simp [foldBinding, Binding.map, foldBindings_eq bs]

theorem Tree.foldBindings_eq :
    ∀ bs : List (Binding Tree), foldBindings f bs = Binding.mapAll (withFold f) bs
  | [] => rfl
  | b :: bs => by simp [foldBindings, Binding.mapAll, foldBinding_eq b, foldBindings_eq bs]

end

/-- Folding the children of a layer is `Node.map`. -/
theorem Tree.foldNode_eq (n : Node Tree) : foldNode f n = n.map (withFold f) := by
  cases n <;>
    simp [foldNode, Node.map, foldOption_eq, foldList_eq, foldLists_eq, foldCases_eq,
      foldHandlers_eq, foldBindings_eq, withFold]

/-- The fold of a layer is `f` of the layer, each child with its own fold. -/
theorem Tree.fold_mk (n : Node Tree) : (Tree.mk n).fold f = f (n.map (withFold f)) := by
  rw [Tree.fold, foldNode_eq]

end Fold

/-! ## Induction -/

/-- To show `P` of every tree, show it of a layer under the assumption that it holds of the
children. -/
theorem Tree.induction {P : Tree → Prop}
    (step : ∀ n : Node Tree, (∀ c ∈ n.children, P c) → P (.mk n)) (t : Tree) : P t := by
  refine @Tree.rec P (fun n => ∀ c ∈ n.children, P c) (fun e => ∀ c ∈ e.toList, P c)
    (fun ts => ∀ c ∈ ts, P c) (fun bs => ∀ c ∈ Binding.childrenAll bs, P c)
    (fun tss => ∀ c ∈ tss.flatten, P c)
    (fun cs => ∀ c ∈ cs.flatMap (fun k => k.tests ++ [k.body]), P c)
    (fun hs => ∀ c ∈ hs.flatMap (fun h => h.filter.toList ++ [h.body]), P c)
    (fun b => ∀ c ∈ b.children, P c) (fun k => ∀ c ∈ k.tests ++ [k.body], P c)
    (fun h => ∀ c ∈ h.filter.toList ++ [h.body], P c) step
    ?_ ?_ ?_ ?_ ?_ ?_ ?_ ?_ ?_ ?_ ?_ ?_ ?_ ?_ ?_ ?_ ?_ ?_ ?_ ?_ ?_ ?_ ?_ ?_ ?_ ?_
    ?_ ?_ ?_ ?_ ?_ ?_ ?_ ?_ ?_ ?_ ?_ ?_ ?_ ?_ ?_ ?_ ?_ t <;>
    grind [Node.children, Binding.children, Binding.childrenAll]

end Scribe
