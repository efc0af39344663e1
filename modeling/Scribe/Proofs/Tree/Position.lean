import Scribe.Proofs.Tree.Map
import Scribe.Proofs.Tree.Scope

/-!
# Positions in a tree

Writing a layer writes most of its children, and most of them once. What stays unwritten is the value of a label that
hands nothing on, the value of a jump that nothing takes over and that has no effect, and the arguments that a
late-bound operation does not read. The target of a power assignment is written twice.

A position in a tree is a path of child numbers, counted below the root or below the body of a lambda. Paths do not
lead into lambdas, because a lambda may be met in several places and is one lambda there.
-/

namespace Scribe

variable {α β : Type} {t : Tree} {i : Nat} {path : List Nat} {a : Address}

/-- Whether nothing in the tree is ever written for its effect: a default value, a sequence point, a label, or a
jump without a value. -/
def Tree.isIdle (t : Tree) : Bool :=
  match t.node with
  | .defaultOf _ | .sequencePoint _ _ | .label _ _ | .jump _ _ none _ => true
  | _ => false

namespace Tree

theorem isIdle_of_isEmpty (h : t.isEmpty = true) : t.isIdle = true := by
  obtain ⟨n⟩ := t
  cases n
  case defaultOf ty => rfl
  all_goals cases h

theorem isIdle_of_isOmitted {isDiscarded : Bool} (h : t.isOmitted isDiscarded = true) : t.isIdle = true := by
  obtain ⟨n⟩ := t
  cases n
  case defaultOf ty => rfl
  all_goals cases h

end Tree

/-- The children that writing a layer writes at most, each as often as it may be written. -/
def Node.writings : Node α → List α
  | .binary .powerAssign left right _ => [left, left, right]
  | n => n.children

theorem Node.writings_binary {op : BinaryOp} (hop : op ≠ .powerAssign) (left right : α) (ty : Ty) :
    (Node.binary op left right ty).writings = [left, right] := by
  cases op <;> trivial

theorem Node.writings_subset (n : Node α) : n.writings ⊆ n.children := by
  cases n
  case binary op l r ty =>
    by_cases hop : op = .powerAssign
    · subst hop
      intro c hc
      simpa [writings, children] using hc
    · rw [writings_binary hop]
      exact List.Subset.refl _
  all_goals exact List.Subset.refl _

theorem Node.writings_map (f : α → β) (n : Node α) : (n.map f).writings = n.writings.map f := by
  have hchildren := n.children_map f
  cases n
  case binary op left right ty =>
    by_cases hop : op = .powerAssign
    · subst hop
      rfl
    · rw [Node.map, writings_binary hop, writings_binary hop]
      rfl
  all_goals exact hchildren

/-- The arguments that a late-bound operation writes. -/
def LateBound.read (op : LateBound) (args : List α) : List α :=
  match op with
  | .convert _ | .getMember _ | .deleteMember _ | .unaryOperation _ => args.take 1
  | .setMember _ | .binaryOperation _ => args.take 2
  | _ => args

/-- The values that a jump writes for certain: that of a `return`, and one that has an effect. -/
def JumpKind.kept (kind : JumpKind) (tree : α → Tree) (value : Option α) : List α :=
  if kind = .returnTo then value.toList else value.toList.filter fun c => (tree c).node.isEffect

theorem JumpKind.kept_subset (kind : JumpKind) (tree : α → Tree) (value : Option α) :
    kind.kept tree value ⊆ value.toList := by
  unfold kept
  split
  · exact List.Subset.refl _
  · exact fun c hc => (List.mem_filter.mp hc).1

/-- The children that writing a layer writes for certain. -/
def Node.kept (tree : α → Tree) : Node α → List α
  | .label _ _ => []
  | .jump kind _ value _ => kind.kept tree value
  | .dynamic op args _ => op.read args
  | n => n.children

theorem LateBound.read_map (op : LateBound) (f : α → β) (args : List α) :
    op.read (args.map f) = (op.read args).map f := by
  cases op <;> simp [read, List.map_take]

theorem JumpKind.kept_map (kind : JumpKind) (tree : β → Tree) (f : α → β) (value : Option α) :
    kind.kept tree (value.map f) = (kind.kept (tree ∘ f) value).map f := by
  unfold kept
  rw [Option.toList_map]
  split
  · rfl
  · rw [List.filter_map]
    rfl

theorem Node.kept_map (tree : β → Tree) (f : α → β) (n : Node α) : (n.map f).kept tree = (n.kept (tree ∘ f)).map f := by
  have hchildren := n.children_map f
  cases n
  case label => rfl
  case jump kind target value ty => exact kind.kept_map tree f value
  case dynamic op args ty => exact op.read_map f args
  all_goals exact hchildren

/-! ## Numbering the children -/

/-- Numbers the children of items one after the other, from `k` on. -/
def numberAll (size : α → Nat) (number : Nat → α → β) (k : Nat) : List α → List β
  | [] => []
  | a :: as => number k a :: numberAll size number (k + size a) as

theorem map_numberAll {size : α → Nat} {number : Nat → α → β} {forget : β → α} (h : ∀ k a, forget (number k a) = a)
    (k : Nat) (as : List α) : (numberAll size number k as).map forget = as := by
  induction as generalizing k with
  | nil => rfl
  | cons a as ih => rw [numberAll, List.map_cons, h, ih]

theorem flatMap_numberAll {γ : Type} {number : Nat → α → β} {children : α → List γ} {children' : β → List (γ × Nat)}
    (h : ∀ k a, children' (number k a) = (children a).zipIdx k) (k : Nat) (as : List α) :
    (numberAll (fun a => (children a).length) number k as).flatMap children' = (as.flatMap children).zipIdx k := by
  induction as generalizing k with
  | nil => rfl
  | cons a as ih => rw [numberAll, List.flatMap_cons, h, ih, List.flatMap_cons, List.zipIdx_append]

theorem flatten_numberAll (k : Nat) (ass : List (List α)) :
    (numberAll List.length (fun k as => as.zipIdx k) k ass).flatten = ass.flatten.zipIdx k := by
  induction ass generalizing k with
  | nil => rfl
  | cons as ass ih => rw [numberAll, List.flatten_cons, ih, List.flatten_cons, List.zipIdx_append]

/-- The case with numbered children. -/
def Case.number (k : Nat) (c : Case α) : Case (α × Nat) := ⟨c.tests.zipIdx k, (c.body, k + c.tests.length)⟩

/-- The handler with numbered children. -/
def Handler.number (k : Nat) (h : Handler α) : Handler (α × Nat) :=
  ⟨h.test, h.caught, h.filter.map (·, k), (h.body, k + h.filter.toList.length)⟩

mutual

/-- The binding with numbered children. -/
def Binding.number (k : Nat) : Binding α → Binding (α × Nat)
  | .assign m e => .assign m (e, k)
  | .elements m inits => .elements m (numberAll List.length (fun k args => args.zipIdx k) k inits)
  | .nested m bs => .nested m (numberEach k bs)

/-- The bindings with numbered children. -/
def Binding.numberEach (k : Nat) : List (Binding α) → List (Binding (α × Nat))
  | [] => []
  | b :: bs => b.number k :: numberEach (k + b.children.length) bs

end

/-- The layer with numbered children. -/
def Node.number : Node α → Node (α × Nat)
  | .binary op l r ty => .binary op (l, 0) (r, 1) ty
  | .unary op e ty => .unary op (e.map (·, 0)) ty
  | .constant value ty => .constant value ty
  | .defaultOf ty => .defaultOf ty
  | .var v => .var v
  | .lambda sig body => .lambda sig (body, 0)
  | .invoke target args ty => .invoke (target, 0) (args.zipIdx 1) ty
  | .call receiver m args => .call (receiver.map (·, 0)) m (args.zipIdx receiver.toList.length)
  | .new ty args => .new ty args.zipIdx
  | .newArray form ty items => .newArray form ty items.zipIdx
  | .member receiver m => .member (receiver.map (·, 0)) m
  | .memberInit ty args bs => .memberInit ty args.zipIdx (Binding.numberEach args.length bs)
  | .listInit ty args inits =>
    .listInit ty args.zipIdx (numberAll List.length (fun k args => args.zipIdx k) args.length inits)
  | .index receiver indexer args ty => .index (receiver, 0) indexer (args.zipIdx 1) ty
  | .conditional test ifTrue ifFalse ty => .conditional (test, 0) (ifTrue, 1) (ifFalse, 2) ty
  | .block vars body ty => .block vars body.zipIdx ty
  | .loop body exit again => .loop (body, 0) exit again
  | .jump kind target value ty => .jump kind target (value.map (·, 0)) ty
  | .label target value => .label target (value.map (·, 0))
  | .switch value cases fallback ty =>
    let behind := 1 + (cases.flatMap fun c => c.tests ++ [c.body]).length
    .switch (value, 0) (numberAll (fun c => (c.tests ++ [c.body]).length) Case.number 1 cases)
      (fallback.map (·, behind)) ty
  | .tryCatch body handlers final fault ty =>
    let behind := 1 + (handlers.flatMap fun h => h.filter.toList ++ [h.body]).length
    .tryCatch (body, 0) (numberAll (fun h => (h.filter.toList ++ [h.body]).length) Handler.number 1 handlers)
      (final.map (·, behind)) (fault.map (·, behind + final.toList.length)) ty
  | .typeTest test operand ty => .typeTest test (operand, 0) ty
  | .sequencePoint document span => .sequencePoint document span
  | .varSet set => .varSet set
  | .dynamic op args ty => .dynamic op args.zipIdx ty
  | .extension name ty => .extension name ty

theorem mapFst_numbered (k : Nat) (o : Option α) : (o.map (·, k)).map Prod.fst = o := by
  cases o <;> rfl

theorem toList_numbered (k : Nat) (o : Option α) : (o.map (·, k)).toList = o.toList.zipIdx k := by
  cases o <;> rfl

mutual

theorem Binding.map_number (k : Nat) : ∀ b : Binding α, (b.number k).map Prod.fst = b
  | .assign m e => by rw [number, Binding.map]
  | .elements m inits => by rw [number, Binding.map, map_numberAll List.zipIdx_map_fst]
  | .nested m bs => by rw [number, Binding.map, mapAll_numberEach k bs]

theorem Binding.mapAll_numberEach (k : Nat) : ∀ bs : List (Binding α), mapAll Prod.fst (numberEach k bs) = bs
  | [] => rfl
  | b :: bs => by rw [numberEach, mapAll, Binding.map_number k b, mapAll_numberEach _ bs]

end

mutual

theorem Binding.children_number (k : Nat) : ∀ b : Binding α, (b.number k).children = b.children.zipIdx k
  | .assign m e => by rw [number, children, children, List.zipIdx_singleton]
  | .elements m inits => by rw [number, children, children, flatten_numberAll]
  | .nested m bs => by rw [number, children, children, childrenAll_numberEach k bs]

theorem Binding.childrenAll_numberEach (k : Nat) :
    ∀ bs : List (Binding α), childrenAll (numberEach k bs) = (childrenAll bs).zipIdx k
  | [] => rfl
  | b :: bs => by
    rw [numberEach, childrenAll, childrenAll, Binding.children_number k b, childrenAll_numberEach _ bs,
      List.zipIdx_append]

end

theorem Case.map_number (k : Nat) (c : Case α) : (c.number k).map Prod.fst = c := by
  rw [number, Case.map, List.zipIdx_map_fst]

theorem Case.children_number (k : Nat) (c : Case α) :
    (c.number k).tests ++ [(c.number k).body] = (c.tests ++ [c.body]).zipIdx k := by
  rw [List.zipIdx_append, List.zipIdx_singleton]
  rfl

theorem Handler.map_number (k : Nat) (h : Handler α) : (h.number k).map Prod.fst = h := by
  rw [number, Handler.map, mapFst_numbered]

theorem Handler.children_number (k : Nat) (h : Handler α) :
    (h.number k).filter.toList ++ [(h.number k).body] = (h.filter.toList ++ [h.body]).zipIdx k := by
  rw [List.zipIdx_append, List.zipIdx_singleton, ← toList_numbered]
  rfl

theorem Node.map_number (n : Node α) : n.number.map Prod.fst = n := by
  cases n <;>
    simp only [number, Node.map, List.zipIdx_map_fst, mapFst_numbered, Binding.mapAll_numberEach,
      map_numberAll List.zipIdx_map_fst, map_numberAll Case.map_number, map_numberAll Handler.map_number]

theorem Node.children_number (n : Node α) : n.number.children = n.children.zipIdx := by
  cases n
  case switch value cases fallback ty =>
    have hcases : (numberAll (fun c => (c.tests ++ [c.body]).length) Case.number 1 cases).flatMap
        (fun c => c.tests ++ [c.body]) = (cases.flatMap fun c => c.tests ++ [c.body]).zipIdx 1 :=
      flatMap_numberAll Case.children_number 1 cases
    simp only [number, children, hcases, toList_numbered]
    rw [List.zipIdx_append, List.zipIdx_cons, List.length_cons, Nat.zero_add, Nat.zero_add, Nat.add_comm 1]
  case tryCatch body handlers final fault ty =>
    have hhandlers : (numberAll (fun h => (h.filter.toList ++ [h.body]).length) Handler.number 1 handlers).flatMap
        (fun h => h.filter.toList ++ [h.body]) = (handlers.flatMap fun h => h.filter.toList ++ [h.body]).zipIdx 1 :=
      flatMap_numberAll Handler.children_number 1 handlers
    simp only [number, children, hhandlers, toList_numbered]
    rw [List.zipIdx_append, List.zipIdx_append, List.zipIdx_cons, List.length_append, List.length_cons, Nat.zero_add,
      Nat.zero_add, Nat.zero_add, Nat.add_comm 1]
  all_goals
    simp [number, children, toList_numbered, List.zipIdx_append, Binding.childrenAll_numberEach, flatten_numberAll]

/-! ### Numbers of images -/

theorem numberAll_map {γ δ : Type} {size : α → Nat} {size' : β → Nat} {number : Nat → α → γ} {number' : Nat → β → δ}
    {f : α → β} {g : γ → δ} (hsize : ∀ a, size' (f a) = size a) (h : ∀ k a, number' k (f a) = g (number k a))
    (k : Nat) (as : List α) : numberAll size' number' k (as.map f) = (numberAll size number k as).map g := by
  induction as generalizing k with
  | nil => rfl
  | cons a as ih => rw [List.map_cons, numberAll, numberAll, List.map_cons, h, hsize, ih]

section

variable (f : α → β)

theorem numbered_map (k : Nat) (o : Option α) : (o.map f).map (·, k) = (o.map (·, k)).map (Prod.map f id) := by
  cases o <;> rfl

theorem Case.number_map (k : Nat) (c : Case α) : (c.map f).number k = (c.number k).map (Prod.map f id) := by
  simp [number, Case.map, List.zipIdx_map]

theorem Handler.number_map (k : Nat) (h : Handler α) : (h.map f).number k = (h.number k).map (Prod.map f id) := by
  obtain ⟨test, caught, filter, body⟩ := h
  cases filter <;> rfl

mutual

theorem Binding.number_map (k : Nat) : ∀ b : Binding α, (b.map f).number k = (b.number k).map (Prod.map f id)
  | .assign m e => by rw [Binding.map, number, number, Binding.map]; rfl
  | .elements m inits => by
    rw [Binding.map, number, number, Binding.map,
      numberAll_map (fun _ => List.length_map ..) fun _ _ => List.zipIdx_map]
  | .nested m bs => by rw [Binding.map, number, number, Binding.map, numberEach_mapAll k bs]

theorem Binding.numberEach_mapAll (k : Nat) :
    ∀ bs : List (Binding α), numberEach k (mapAll f bs) = mapAll (Prod.map f id) (numberEach k bs)
  | [] => rfl
  | b :: bs => by
    rw [mapAll, numberEach, numberEach, mapAll, Binding.number_map k b, Binding.children_map, List.length_map,
      numberEach_mapAll _ bs]

end

theorem Node.number_map (n : Node α) : (n.map f).number = n.number.map (Prod.map f id) := by
  have hoption : ∀ o : Option α, (o.map f).toList.length = o.toList.length := fun o => by cases o <;> rfl
  cases n
  case switch value cases fallback ty =>
    have hcases : numberAll (fun c => (c.tests ++ [c.body]).length) Case.number 1 (cases.map (Case.map f)) =
        (numberAll (fun c => (c.tests ++ [c.body]).length) Case.number 1 cases).map (Case.map (Prod.map f id)) :=
      numberAll_map (fun c => by simp [Case.map]) (Case.number_map f) 1 cases
    have hlength : ((cases.map (Case.map f)).flatMap fun c => c.tests ++ [c.body]).length =
        (cases.flatMap fun c => c.tests ++ [c.body]).length := by
      simp [Case.map, List.flatMap_map]
    simp only [Node.map, number, hcases, hlength, numbered_map]
    rfl
  case tryCatch body handlers final fault ty =>
    have hhandlers : numberAll (fun h => (h.filter.toList ++ [h.body]).length) Handler.number 1
          (handlers.map (Handler.map f)) =
        (numberAll (fun h => (h.filter.toList ++ [h.body]).length) Handler.number 1 handlers).map
          (Handler.map (Prod.map f id)) :=
      numberAll_map (fun h => by simp [Handler.map, hoption]) (Handler.number_map f) 1 handlers
    have hlength : ((handlers.map (Handler.map f)).flatMap fun h => h.filter.toList ++ [h.body]).length =
        (handlers.flatMap fun h => h.filter.toList ++ [h.body]).length := by
      simp [Handler.map, List.flatMap_map, hoption]
    simp only [Node.map, number, hhandlers, hlength, hoption, numbered_map]
    rfl
  case listInit ty args inits =>
    have hinits : numberAll List.length (fun k args => args.zipIdx k) args.length (inits.map (List.map f)) =
        (numberAll List.length (fun k args => args.zipIdx k) args.length inits).map (List.map (Prod.map f id)) :=
      numberAll_map (fun _ => List.length_map ..) (fun _ _ => List.zipIdx_map) args.length inits
    simp only [Node.map, number, List.length_map, hinits, List.zipIdx_map]
  all_goals
    simp only [Node.map, number, List.zipIdx_map, numbered_map, Binding.numberEach_mapAll, List.length_map, hoption,
      Prod.map, id]

end

/-! ## Addresses -/

/-- A position in a tree: a path below the body of a lambda, or below the root. -/
structure Address where
  lambda : Option Ident := none
  path : List Nat := []
deriving DecidableEq

/-- What is left of a path at the child of number `i`, if it leads there. -/
def pathAt (i : Nat) : Option (List Nat) → Option (List Nat)
  | some (j :: path) => if i = j then some path else none
  | _ => none

/-- The path of an address where it starts. -/
def Address.enter (a : Address) (lambda : Option Ident) : Option (List Nat) :=
  if a.lambda = lambda then some a.path else none

/-- What is left of the path of an address at the child of number `i`, if it leads there. In a lambda it starts
anew. -/
def Address.next (a : Address) (n : Node α) (left : Option (List Nat)) (i : Nat) : Option (List Nat) :=
  match n with
  | .lambda sig _ => a.enter (some sig.id)
  | _ => pathAt i left

theorem Address.next_map (a : Address) (f : α → β) (n : Node α) (left : Option (List Nat)) (i : Nat) :
    a.next (n.map f) left i = a.next n left i := by
  cases n <;> rfl

/-- Whether the node is a call, the call of a delegate, or an assignment. -/
def Node.isAction : Node α → Bool
  | .call _ _ _ | .invoke _ _ _ => true
  | .binary op _ _ _ => op.isAssignment
  | .unary op _ _ => op.isAssignment
  | _ => false

theorem Node.isAction_map (f : α → β) (n : Node α) : (n.map f).isAction = n.isAction := by
  cases n <;> rfl

/-- Actions are written for their effect. -/
theorem Tree.isIdle_of_isAction (h : t.node.isAction = true) : t.isIdle = false := by
  obtain ⟨n⟩ := t
  cases n
  case binary | unary | call | invoke => rfl
  all_goals cases h

theorem pathAt_self (i : Nat) (path : List Nat) : pathAt i (some (i :: path)) = some path := if_pos rfl

theorem pathAt_of_ne {j : Nat} (h : i ≠ j) (path : List Nat) : pathAt i (some (j :: path)) = none := if_neg h

theorem mem_pathAt {left : Option (List Nat)} : path ∈ pathAt i left ↔ left = some (i :: path) := by
  cases left with
  | none => simp [pathAt]
  | some steps =>
    cases steps with
    | nil => simp [pathAt]
    | cons j steps =>
      rw [pathAt, Option.mem_def, Option.some.injEq, List.cons.injEq]
      by_cases hij : i = j
      · rw [if_pos hij, Option.some.injEq]
        exact (and_iff_right hij.symm).symm
      · rw [if_neg hij]
        exact ⟨nofun, fun h => absurd h.1.symm hij⟩

theorem Address.mem_enter {lambda : Option Ident} : path ∈ a.enter lambda ↔ a.lambda = lambda ∧ a.path = path := by
  unfold enter
  split
  · next h => simp [h]
  · next h => simp [h]

theorem Address.next_of_ne_lambda {n : Node α} (h : ∀ sig body, n ≠ .lambda sig body) (a : Address)
    (left : Option (List Nat)) (i : Nat) : a.next n left i = pathAt i left := by
  unfold next
  split
  · exact absurd rfl (h _ _)
  · rfl

theorem Address.of_mem_next {n : Node α} {left : Option (List Nat)} (h : path ∈ a.next n left i) :
    (∃ sig body, n = .lambda sig body ∧ a.lambda = some sig.id ∧ a.path = path) ∨ left = some (i :: path) := by
  cases n
  case lambda sig body => exact Or.inl ⟨sig, body, rfl, mem_enter.mp h⟩
  all_goals exact Or.inr (mem_pathAt.mp h)

/-- The tree that a path leads to. -/
def Tree.follow : Tree → List Nat → Option Tree
  | t, [] => some t
  | t, i :: path =>
    match t.node.children[i]? with
    | some c => c.follow path
    | none => none

theorem Tree.follow_cons {n : Node Tree} {c : Tree} (h : n.children[i]? = some c) (path : List Nat) :
    (Tree.mk n).follow (i :: path) = c.follow path := by
  rw [follow, show (Tree.mk n).node.children[i]? = some c from h]

/-- In `t`, the address leads to the tree `s`. -/
def Tree.Finds (t : Tree) (a : Address) (s : Tree) : Prop :=
  (a.lambda = none ∧ t.follow a.path = some s) ∨
    ∃ sig body, Tree.mk (.lambda sig body) ∈ t.subtrees ∧ a.lambda = some sig.id ∧ body.follow a.path = some s

/-- A lambda is known by its identity: two with the same one have the same body. -/
def Tree.LambdasCoherent (t : Tree) : Prop :=
  ∀ sig body sig' body', Tree.mk (.lambda sig body) ∈ t.subtrees → Tree.mk (.lambda sig' body') ∈ t.subtrees →
    sig.id = sig'.id → body = body'

theorem Tree.Finds.unique {s s' : Tree} (h : t.Finds a s) (h' : t.Finds a s')
    (hcoherent : t.LambdasCoherent) : s = s' := by
  obtain ⟨hlambda, hs⟩ | ⟨sig, body, hmem, hlambda, hs⟩ := h
  · obtain ⟨-, hs'⟩ | ⟨_, _, -, hlambda', -⟩ := h'
    · exact Option.some.inj (hs.symm.trans hs')
    · cases hlambda.symm.trans hlambda'
  · obtain ⟨hlambda', -⟩ | ⟨sig', body', hmem', hlambda', hs'⟩ := h'
    · cases hlambda.symm.trans hlambda'
    · have hid : sig.id = sig'.id := Option.some.inj (hlambda.symm.trans hlambda')
      rw [hcoherent sig body sig' body' hmem hmem' hid] at hs
      exact Option.some.inj (hs.symm.trans hs')

/-! ## Children that are written for certain -/

/-- In `t`, the address leads to the tree `s`, and on the way there is no child that may stay unwritten. -/
inductive Tree.Keeps (t : Tree) : Address → Tree → Prop
  | root : t.Keeps {} t
  | child {a : Address} {n : Node Tree} {c : Tree} {i : Nat} : t.Keeps a (.mk n) →
      (∀ sig body, n ≠ .lambda sig body) → (c, i) ∈ n.number.kept Prod.fst →
      t.Keeps { a with path := a.path ++ [i] } c
  | body {a : Address} {sig : Signature} {body : Tree} : t.Keeps a (.mk (.lambda sig body)) →
      t.Keeps ⟨some sig.id, []⟩ body

/-! ## Children that are written twice -/

/-- Whether the child of number `i` is written twice: it is the target of a power assignment. -/
def Node.isDoubled (n : Node α) (i : Nat) : Bool :=
  match n with
  | .binary .powerAssign _ _ _ => i == 0
  | _ => false

theorem Node.writings_number (n : Node α) : (∃ l r ty, n = .binary .powerAssign l r ty) ∨
    n.number.writings = n.children.zipIdx ∧ ∀ i, n.isDoubled i = false := by
  have hchildren := n.children_number
  cases n
  case binary op l r ty =>
    cases op
    case powerAssign => exact Or.inl ⟨l, r, ty, rfl⟩
    all_goals exact Or.inr ⟨hchildren, fun _ => rfl⟩
  all_goals exact Or.inr ⟨hchildren, fun _ => rfl⟩

/-- How many targets of power assignments a path leads through. -/
def Tree.doublings : Tree → List Nat → Nat
  | _, [] => 0
  | t, i :: path =>
    match t.node.children[i]? with
    | some c => c.doublings path + (t.node.isDoubled i).toNat
    | none => 0

theorem Tree.doublings_cons {n : Node Tree} {c : Tree} (h : n.children[i]? = some c) (path : List Nat) :
    (Tree.mk n).doublings (i :: path) = c.doublings path + (n.isDoubled i).toNat := by
  rw [doublings, show (Tree.mk n).node.children[i]? = some c from h]
  rfl

end Scribe
