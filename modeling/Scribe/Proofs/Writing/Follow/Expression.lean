import Scribe.Proofs.Tree.Position
import Scribe.Proofs.Writing.Follow.Primitive
import Scribe.Writing.Access
import Scribe.Writing.Constant
import Scribe.Writing.LateBound

/-!
# Following the writing of expressions

When the second run follows the first on the children of a node, it follows it on the node. Each statement says
which children are written. Nearly all of them are written once, whatever the run; the target of a power
assignment is written twice.
-/

namespace Scribe

open Writing

variable {α : Type} {c : Comparison} {p : Couple}

/-- The parts of a conditional in the two runs. The conditional as a whole is `p`, its test `test`, and its first
branch `ifTrue`. -/
structure Branches.Follow (c : Comparison) (p test ifTrue : Couple) (b b' : Branches) : Prop where
  test : Copies c [test] c.onTree b.test b'.test
  whenTrue (tail : Tail) : Copies c [ifTrue] c.onTree (b.whenTrue tail) (b'.whenTrue tail)
  elseIf (tail : Tail) : Copies c [p] c.onTree (b.elseIf tail) (b'.elseIf tail)

/-- Both runs see the parts of a conditional, or none does. -/
def Couple.BranchesFollow (c : Comparison) (p : Couple) : Option Branches → Option Branches → Prop
  | none, none => True
  | some b, some b' => ∃ test ifTrue ifFalse : Couple, ∃ ty,
      p.tree.node = .conditional test.tree ifTrue.tree ifFalse.tree ty ∧
        (p.must → test.must ∨ ifTrue.must ∨ ifFalse.must) ∧ (ifFalse.must → ifFalse.tree.isIdle = false) ∧
        test.most + ifTrue.most ≤ p.most ∧ b.Follow c p test ifTrue b'
  | _, _ => False

/-- Both runs see a lambda that can be quoted, or none does. -/
def Couple.QuotedFollow (c : Comparison) (p : Couple) : Option (Writing Tree) → Option (Writing Tree) → Prop
  | none, none => True
  | some x, some x' => Copies c [p] c.onTree x x'
  | _, _ => False

/-- However a piece is written, the second run follows the first. -/
structure Couple.Sound (c : Comparison) (p : Couple) : Prop where
  idle : p.must → p.tree.isIdle = false
  write (tail : Tail) :
    Copies c [p] c.onTree (p.left.write tail) ((p.right c.keys).write tail)
  branches : p.BranchesFollow c p.first.branches p.second.branches
  quoted : p.QuotedFollow c p.first.quoted p.second.quoted

namespace Couple

variable {ρ : Renaming}

theorem tree_right : (p.right ρ).tree = p.left.tree.rename ρ := rfl

theorem ty_right : (p.right ρ).tree.ty = p.left.tree.ty := p.tree.ty_rename

theorem isExpression_right : (p.right ρ).tree.isExpression = p.left.tree.isExpression :=
  p.tree.isExpression_rename

theorem precedence_right : (p.right ρ).tree.precedence = p.left.tree.precedence := p.tree.precedence_rename

theorem node_right : (p.right ρ).tree.node = (p.left.tree.node.map (Tree.rename ρ)).relabel ρ :=
  p.tree.node_rename

/-! ## Operands -/

theorem closure_follows (h : p.Sound c) : Copies c [p] c.onTree p.left.closure (p.right c.keys).closure := by
  unfold Piece.closure
  rw [ty_right]
  exact .put_bind <| .putType_bind <| .put_bind <|
    .then openBraceHere_follows fun _ => .piece (inFunction_follows (h.write _)) fun _ =>
    .then closeBrace_follows fun _ => .put_bind <| .pure rfl

theorem value_follows (h : p.Sound c) : Copies c [p] c.onTree p.left.value (p.right c.keys).value :=
  .ite (by rw [isExpression_right]) (fun _ => h.write _) fun _ => closure_follows h

theorem inParens_follows (h : p.Sound c) : Copies c [p] c.onTree p.left.inParens (p.right c.keys).inParens :=
  .put_bind <| .piece (value_follows h) fun _ => .put_bind <| .pure rfl

theorem operand_follows (h : p.Sound c) (parent : Kind) (isRight : Bool) :
    Copies c [p] c.onTree (p.left.operand parent isRight)
      ((p.right c.keys).operand parent isRight) :=
  .ite (by rw [isExpression_right, precedence_right]) (fun _ => inParens_follows h) fun _ => value_follows h

end Couple

open Couple

namespace Writing

variable {l r : Couple} {args : List Couple}

/-- The renamed layer is what the second run gives. -/
theorem layer_follows (n : Node Tree) : Copies c [] c.onTree (pure (.mk n))
    (pure (.mk ((n.map c.onTree).relabel c.keys))) :=
  .pure (Tree.rename_mk n).symm

theorem flatMap_pieces (ps : List Couple) : (ps.flatMap fun p => [p]) = ps := by
  rw [List.flatMap_singleton']

theorem values_follow (h : ∀ p ∈ args, p.Sound c) : ∀ p ∈ args,
    Copies c [p] c.onTree p.left.value (p.right c.keys).value :=
  fun p hp => value_follows (h p hp)

theorem arguments_follows (left right : String) (h : ∀ p ∈ args, p.Sound c) :
    Copies c args (List.map c.onTree) (arguments left right (args.map Couple.left))
      (arguments left right (args.map (Couple.right c.keys))) := by
  have hvalues := bracketed_follows left right (values_follow h)
  rw [flatMap_pieces] at hvalues
  unfold arguments
  rw [List.map_map, List.map_map]
  exact hvalues

/-! ## Operators -/

theorem tokenOf_follows (kind : Kind) : Copies c [] id (tokenOf kind) (tokenOf kind) := by
  unfold tokenOf
  split
  · exact .pure rfl
  · exact .throw _

theorem infixed_follows (kind : Kind) (hl : l.Sound c) (hr : r.Sound c) :
    Copies c [l, r] (Prod.map c.onTree c.onTree) (infixed kind l.left r.left)
      (infixed kind (l.right c.keys) (r.right c.keys)) :=
  .then (tokenOf_follows kind) fun _ => .piece (operand_follows hl _ _) fun _ => .put_bind <|
    .piece (operand_follows hr _ _) fun _ => .pure rfl

theorem powerCall_follows (hl : l.Sound c) (hr : r.Sound c) :
    Copies c [l, r] (Prod.map c.onTree c.onTree) (powerCall l.left r.left)
      (powerCall (l.right c.keys) (r.right c.keys)) :=
  .putType_bind <| .put_bind <| .piece (value_follows hl) fun _ =>
    .put_bind <| .piece (value_follows hr) fun _ => .put_bind <| .pure rfl

theorem binaryOperation_follows (op : BinaryOp) (hl : l.Sound c) (hr : r.Sound c) (ty : Ty) :
    Follows c [l, r] (Node.binary op l r ty).writings c.onTree
      (binaryOperation op l.left r.left ty) (binaryOperation op (l.right c.keys) (r.right c.keys) ty) := by
  have hwhole : ∀ a : Tree × Tree, Copies c [] c.onTree (pure (.mk (.binary op a.1 a.2 ty)))
      (pure (.mk (.binary op (a.1.rename c.keys) (a.2.rename c.keys) ty))) :=
    fun a => layer_follows (.binary op a.1 a.2 ty)
  unfold binaryOperation
  extract_lets whole
  split
  · refine .piece (operand_follows hl _ _) fun l' => .put_bind ?_
    exact .piece (value_follows hr) fun r' => .put_bind <| hwhole (l', r')
  · exact .last (powerCall_follows hl hr) hwhole
  · apply Follows.weaken
    · exact .piece (operand_follows hl _ _) fun _ => .put_bind <| .last (powerCall_follows hl hr) hwhole
    · exact fun ⟨p, hp, hmust⟩ => ⟨p, List.mem_cons_of_mem _ hp, hmust⟩
    · exact Nat.le_refl _
  · next hop =>
    rw [Node.writings_binary hop]
    exact .last (infixed_follows _ hl hr) hwhole

theorem affixed_follows (kind : Kind) (h : p.Sound c) :
    Copies c [p] c.onTree (affixed kind p.left) (affixed kind (p.right c.keys)) := by
  unfold affixed
  rw [ty_right]
  exact .put_bind <| .piece (operand_follows h _ _) fun _ => .put_bind <| .pure rfl

theorem putOpening_follows (op : UnaryOp) (ty : Ty) : Copies c [] id (putOpening op ty) (putOpening op ty) := by
  have hcast : Copies c [] id (do put "("; putType ty; put ")") (do put "("; putType ty; put ")") :=
    .put_bind <| .putType_bind <| put_follows _
  unfold putOpening
  split
  · exact hcast
  · exact hcast
  · exact hcast
  · exact put_follows _
  · exact .pure rfl

theorem quoted_follows {q q' : Option (Writing Tree)} (hq : p.QuotedFollow c q q') {x x' : Writing Tree}
    (hx : Copies c [p] c.onTree x x') : Copies c [p] c.onTree (q.getD x) (q'.getD x') := by
  cases q <;> cases q'
  · exact hx
  · exact hq.elim
  · exact hq.elim
  · exact hq

theorem unaryOperation_follows (op : UnaryOp) {operand : Option Couple} (h : ∀ p ∈ operand, p.Sound c)
    (ty : Ty) : Follows c operand.toList operand.toList c.onTree
      (unaryOperation op (operand.map left) ty) (unaryOperation op (operand.map (right c.keys)) ty) := by
  cases operand with
  | none =>
    cases op
    case throw => exact .put_bind <| layer_follows (.unary .throw none ty)
    all_goals exact .throw _
  | some p =>
    have hp := h p rfl
    have haffixed := affixed_follows (.unary op) hp
    rw [Option.map_some, Option.map_some, unaryOperation_some, unaryOperation_some]
    refine .then (putOpening_follows op ty) fun _ => ?_
    extract_lets rest
    have hrest : ∀ t, Copies c [] c.onTree (rest t) (rest (t.rename c.keys)) := by
      intro t
      have hwhole := layer_follows (c := c) (.unary op (some t) ty)
      exact .ite Iff.rfl (fun _ => .put_bind <| .putType_bind <| hwhole)
        fun _ => hwhole
    refine .ite Iff.rfl (fun _ => ?_) fun _ => .piece haffixed hrest
    exact .piece (quoted_follows hp.quoted haffixed) hrest

theorem typeTest_follows (test : TypeTest) (h : p.Sound c) (ty : Ty) :
    Copies c [p] c.onTree (typeTest test p.left ty) (typeTest test (p.right c.keys) ty) := by
  unfold typeTest
  rw [ty_right]
  cases test
  · exact .piece (operand_follows h _ _) fun t => .put_bind <| .putType_bind <| layer_follows (.typeTest .is t ty)
  · exact .piece (operand_follows h _ _) fun t => .put_bind <| .putType_bind <|
      .put_bind <| layer_follows (.typeTest .equal t ty)

/-! ## Constants -/

theorem text_follows (v : Value) : Copies c [] id v.text (v.rename c.keys).text := by
  cases v
  case enum ty member raw => exact .then (spell_follows ty) fun _ => .pure rfl
  case type ty => exact .then (spell_follows ty) fun _ => .pure rfl
  case object o => exact field_follows (.object o) o.ty o.ty.runtimeName
  all_goals exact .pure rfl

theorem putValue_follows (v : Value) : Copies c [] id (putValue v) (putValue (v.rename c.keys)) :=
  .then (text_follows v) fun _ => put_follows _

/-! ## Members and calls -/

theorem memberAccess_follows {receiver : Option Couple} (h : ∀ p ∈ receiver, p.Sound c) (owner : Ty)
    (name : String) : Follows c receiver.toList receiver.toList (Option.map c.onTree)
      (memberAccess (receiver.map left) owner name) (memberAccess (receiver.map (right c.keys)) owner name) := by
  cases receiver with
  | none =>
    exact .putType_bind <| .pure_bind <| .put_bind <| .put_bind <| .pure rfl
  | some p =>
    exact .piece (operand_follows (h p rfl) _ _) fun _ => .pure_bind <| .put_bind <| .put_bind <| .pure rfl

theorem indexAccess_follows (h : p.Sound c) (indexer : Option Member) (hargs : ∀ p ∈ args, p.Sound c) (ty : Ty) :
    Copies c (p :: args) c.onTree (indexAccess p.left indexer (args.map left) ty)
      (indexAccess (p.right c.keys) indexer (args.map (right c.keys)) ty) := by
  unfold indexAccess
  extract_lets rest rest'
  have hrest : ∀ t, Copies c args c.onTree (rest t) (rest' (t.rename c.keys)) :=
    fun t => .last (arguments_follows _ _ hargs) fun ts => layer_follows (.index t indexer ts ty)
  split
  · exact .piece (operand_follows h _ _) fun t => .put_bind <| .put_bind <| hrest t
  · exact .piece (operand_follows h _ _) hrest

theorem invocation_follows (h : p.Sound c) (hargs : ∀ p ∈ args, p.Sound c) (ty : Ty) :
    Copies c (p :: args) c.onTree (invocation p.left (args.map left) ty)
      (invocation (p.right c.keys) (args.map (right c.keys)) ty) := by
  unfold invocation
  extract_lets isMade rest isMade' rest'
  have hmade : isMade' = isMade := by
    simp only [isMade, isMade', node_right]
    cases p.left.tree.node
    case lambda sig body => exact Signature.captures_rename c.injective sig body
    all_goals rfl
  have hrest : ∀ t, Copies c args c.onTree (rest t) (rest' (t.rename c.keys)) :=
    fun t => .last (arguments_follows _ _ hargs) fun ts => layer_follows (.invoke t ts ty)
  exact .ite (by rw [hmade]) (fun _ => .piece (inParens_follows h) hrest) fun _ => .piece (operand_follows h _ _) hrest

theorem methodField_follows (m : Method) : Copies c [] id (methodField m) (methodField (m.rename c.keys)) :=
  .ite Iff.rfl (fun _ => .throw _) fun _ => .ite Iff.rfl (fun _ => .throw _) fun _ =>
    field_follows (.method m) m.delegate m.name

theorem putGenerics_follows (tys : List Ty) : Copies c [] id (putGenerics tys) (putGenerics tys) := by
  have hspell : Copies c [] (List.map id) (tys.mapM spell) (tys.mapM spell) :=
    mapM_steps_follow fun ty _ => spell_follows ty
  rw [List.map_id_fun] at hspell
  exact .ite Iff.rfl (fun _ => .pure rfl) fun _ => .then hspell fun _ => put_follows _

/-- Arguments with their parameters, as far as there are any. -/
def withParams : List α → List MethodParam → List (α × Option MethodParam)
  | [], _ => []
  | arg :: args, [] => (arg, none) :: withParams args []
  | arg :: args, p :: ps => (arg, some p) :: withParams args ps

/-- Writes an argument behind the modifier of its parameter. -/
def modified (arg : Piece) : Option MethodParam → Writing Tree
  | none => arg.value
  | some p => do put p.modifier; arg.value

theorem modifiedArguments_map (g : α → Piece) (args : List α) (params : List MethodParam) :
    modifiedArguments (args.map g) params = (withParams args params).map fun i => modified (g i.1) i.2 := by
  fun_induction withParams args params with
  | case1 => rfl
  | case2 arg args ih | case3 arg args p ps ih => rw [List.map_cons, modifiedArguments, ih, List.map_cons, modified]

theorem flatMap_withParams (args : List α) (params : List MethodParam) :
    ((withParams args params).flatMap fun i => [i.1]) = args := by
  fun_induction withParams args params with
  | case1 => rfl
  | case2 arg args ih | case3 arg args p ps ih => rw [List.flatMap_cons, ih, List.singleton_append]

theorem modified_follows (h : p.Sound c) (param : Option MethodParam) :
    Copies c [p] c.onTree (modified p.left param) (modified (p.right c.keys) param) := by
  cases param with
  | none => exact value_follows h
  | some q => exact .put_bind <| value_follows h

theorem modifiedArguments_follows (h : ∀ p ∈ args, p.Sound c) (params : List MethodParam) :
    Copies c args (List.map c.onTree)
      (bracketed "(" ")" (modifiedArguments (args.map left) params))
      (bracketed "(" ")" (modifiedArguments (args.map (right c.keys)) params)) := by
  have hmem : ∀ i ∈ withParams args params, i.1 ∈ args := by
    intro i hi
    rw [← flatMap_withParams args params]
    exact List.mem_flatMap.mpr ⟨i, hi, List.mem_singleton_self _⟩
  have hitems := bracketed_follows "(" ")" fun i hi => modified_follows (h i.1 (hmem i hi)) i.2
  rw [flatMap_withParams] at hitems
  rw [modifiedArguments_map, modifiedArguments_map]
  exact hitems

theorem finishCall_follows (m : Method) (receiver : Option Tree) (first : List Tree) (params : List MethodParam)
    (unnamed : Bool) (h : ∀ p ∈ args, p.Sound c) : Copies c args c.onTree
      (finishCall m ⟨receiver, first, args.map left, params, unnamed⟩)
      (finishCall (m.rename c.keys) ⟨receiver.map c.onTree, first.map c.onTree,
        args.map (right c.keys), params, unnamed⟩) := by
  have hwhole : ∀ ts, Copies c [] c.onTree (pure (.mk (.call receiver m (first ++ ts))))
      (pure (.mk (.call (receiver.map c.onTree) (m.rename c.keys)
        (first.map c.onTree ++ ts.map c.onTree)))) := by
    intro ts
    rw [← List.map_append]
    exact layer_follows (.call receiver m (first ++ ts))
  have hlast : Copies c args c.onTree
      (do
        let as ← bracketed "(" ")" (modifiedArguments (args.map left) params)
        return .mk (.call receiver m (first ++ as)))
      (do
        let as ← bracketed "(" ")" (modifiedArguments (args.map (right c.keys)) params)
        return .mk (.call (receiver.map c.onTree) (m.rename c.keys)
          (first.map c.onTree ++ as))) :=
    .last (modifiedArguments_follows h params) hwhole
  refine .ite Iff.rfl (fun _ => .last (arguments_follows _ _ h) hwhole) fun _ => ?_
  refine .ite Iff.rfl (fun _ => ?_) fun _ => hlast
  exact .put_bind <| .put_bind <| .then (putGenerics_follows _) fun _ => hlast

theorem callStart_of_not_nameable {m : Method} (h : m.isNameable = false) (args : List Piece) :
    callStart none m args = (do
      let name ← methodField m
      put name
      put ".Invoke"
      return { args, params := m.params, unnamed := false }) := by
  simp [callStart, h]

theorem callStart_extension {m : Method} (h : m.isNameable = true) (hext : m.isExtension = true) (arg : Piece)
    (args : List Piece) :
    callStart none m (arg :: args) = (do
      let _ ← spell m.owner
      let t ← arg.operand (.shape .call)
      return { first := [t], args, params := m.params.drop 1 }) := by
  simp [callStart, h, hext]

theorem callStart_static {m : Method} (h : m.isNameable = true) {args : List Piece}
    (hext : m.isExtension = false ∨ args = []) :
    callStart none m args = (do putType m.owner; return { args, params := m.params }) := by
  rcases hext with hext | rfl <;> simp_all [callStart]

theorem call_follows {receiver : Option Couple} (hr : ∀ p ∈ receiver, p.Sound c) (m : Method)
    (h : ∀ p ∈ args, p.Sound c) :
    Copies c (receiver.toList ++ args) c.onTree
      (call (receiver.map left) m (args.map left))
      (call (receiver.map (right c.keys)) (m.rename c.keys) (args.map (right c.keys))) := by
  change Follows c _ _ _ (callStart _ m _ >>= finishCall m)
    (callStart _ (m.rename c.keys) _ >>= finishCall (m.rename c.keys))
  cases receiver with
  | some p =>
    change Copies c (p :: args) _ (_ >>= finishCall m) _
    rw [Option.map_some, Option.map_some, callStart, callStart, bind_assoc, bind_assoc]
    exact .piece (operand_follows (hr p rfl) _ _) fun t => .pure_bind (finishCall_follows m (some t) [] m.params true h)
  | none =>
    change Copies c args _ _ _
    rw [Option.map_none, Option.map_none]
    cases hname : m.isNameable with
    | false =>
      rw [callStart_of_not_nameable hname, callStart_of_not_nameable (m := m.rename c.keys) hname]
      simp only [bind_assoc]
      exact .then (methodField_follows m) fun _ => .put_bind <| .put_bind <|
        .pure_bind (finishCall_follows m none [] m.params false h)
    | true =>
      have hstatic : m.isExtension = false ∨ args = [] → Copies c args c.onTree
          (callStart none m (args.map left) >>= finishCall m)
          (callStart none (m.rename c.keys) (args.map (right c.keys)) >>= finishCall (m.rename c.keys)) := by
        intro hext
        rw [callStart_static hname (hext.imp_right (by simp [·])),
          callStart_static (m := m.rename c.keys) hname (hext.imp_right (by simp [·])), bind_assoc, bind_assoc]
        exact .putType_bind <| .pure_bind (finishCall_follows m none [] m.params true h)
      -- the first argument of an extension stands in front of the name
      cases hext : m.isExtension with
      | false => exact hstatic (.inl hext)
      | true =>
        cases args with
        | nil => exact hstatic (.inr rfl)
        | cons arg args =>
          rw [List.forall_mem_cons] at h
          rw [List.map_cons, List.map_cons, callStart_extension hname hext,
            callStart_extension (m := m.rename c.keys) hname hext]
          simp only [bind_assoc]
          exact .then (spell_follows _) fun _ => .piece (operand_follows h.1 _ _) fun t =>
            .pure_bind (finishCall_follows m none [t] (m.params.drop 1) true h.2)

/-! ## New objects -/

theorem creation_follows (ty : Ty) (h : ∀ p ∈ args, p.Sound c) :
    Copies c args (List.map c.onTree) (creation ty (args.map left))
      (creation ty (args.map (right c.keys))) :=
  .put_bind <| .putType_bind <| arguments_follows _ _ h

theorem arrayCreation_follows (form : ArrayForm) (ty : Ty) (h : ∀ p ∈ args, p.Sound c) :
    Copies c args c.onTree (arrayCreation form ty (args.map left))
      (arrayCreation form ty (args.map (right c.keys))) := by
  have hwhole : ∀ ts, Copies c [] c.onTree (pure (.mk (.newArray form ty ts)))
      (pure (.mk (.newArray form ty (ts.map c.onTree)))) := fun ts => layer_follows (.newArray form ty ts)
  refine .put_bind ?_
  cases form with
  | bounds =>
    exact .putType_bind <| .last (arguments_follows _ _ h) fun ts => .put_bind <| .pure_bind (hwhole ts)
  | elements =>
    have hitems := braced_follows 4 (values_follow h)
    rw [flatMap_pieces] at hitems
    dsimp only
    rw [List.map_map, List.map_map]
    exact .putType_bind <| .last hitems hwhole

theorem element_follows (h : ∀ p ∈ args, p.Sound c) :
    Copies c args (List.map c.onTree) (element (args.map left))
      (element (args.map (right c.keys))) := by
  match args with
  | [] => exact arguments_follows _ _ h
  | [arg] => exact .piece (value_follows (h arg (List.mem_singleton_self _))) fun _ => .pure rfl
  | _ :: _ :: _ => exact arguments_follows _ _ h

theorem elements_follows {inits : List (List Couple)} (h : ∀ p ∈ inits.flatten, p.Sound c) (limit : Nat) :
    Follows c inits.flatten inits.flatten (List.map (List.map c.onTree))
      (braced limit ((inits.map (List.map left)).map element))
      (braced limit ((inits.map (List.map (right c.keys))).map element)) := by
  have hitems := braced_follows limit fun (args : List Couple) hargs =>
    element_follows fun p hp => h p (List.mem_flatten.mpr ⟨args, hargs, hp⟩)
  rw [List.flatMap_id'] at hitems
  rw [List.map_map, List.map_map]
  exact hitems

theorem bindings_mapAll (g : α → Piece) (bs : List (Binding α)) :
    bindings (Binding.mapAll g bs) = bs.map fun b => binding (b.map g) := by
  induction bs with
  | nil => rfl
  | cons b bs ih => rw [Binding.mapAll, bindings, ih, List.map_cons]

theorem bracedBindings_follows {bs : List (Binding Couple)}
    (h : ∀ b ∈ bs, Follows c b.children b.children (Binding.map c.onTree) (binding (b.map left))
      (binding (b.map (right c.keys)))) :
    Copies c (Binding.childrenAll bs) (Binding.mapAll c.onTree)
      (braced 1 (bindings (Binding.mapAll left bs))) (braced 1 (bindings (Binding.mapAll (right c.keys) bs))) := by
  have hitems := braced_follows 1 h
  rw [bindings_mapAll, bindings_mapAll, Binding.childrenAll_eq,
    show Binding.mapAll c.onTree = List.map (Binding.map c.onTree) from
      funext (Binding.mapAll_eq _)]
  exact hitems

mutual

theorem binding_follows : ∀ b : Binding Couple, (∀ p ∈ b.children, p.Sound c) →
    Follows c b.children b.children (Binding.map c.onTree) (binding (b.map left))
      (binding (b.map (right c.keys)))
  | .assign m p, h => by
    rw [Binding.map, Binding.map, binding, binding]
    exact .put_bind <| .put_bind <|
      .piece (value_follows (h p (by simp [Binding.children]))) fun _ => .pure (by rw [Binding.map])
  | .elements m inits, h => by
    rw [Binding.children] at h ⊢
    rw [Binding.map, Binding.map, binding, binding]
    exact .put_bind <| .put_bind <| .last (elements_follows h 4) fun _ => .pure (by rw [Binding.map])
  | .nested m bs, h => by
    rw [Binding.children] at h ⊢
    rw [Binding.map, Binding.map, binding, binding]
    exact .put_bind <| .put_bind <|
      .last (bracedBindings_follows (bindings_follow bs h)) fun _ => .pure (by rw [Binding.map])

theorem bindings_follow : ∀ bs : List (Binding Couple), (∀ p ∈ Binding.childrenAll bs, p.Sound c) →
    ∀ b ∈ bs, Follows c b.children b.children (Binding.map c.onTree) (binding (b.map left))
      (binding (b.map (right c.keys)))
  | [], _ => by simp
  | b :: bs, h => by
    rw [Binding.childrenAll, List.forall_mem_append] at h
    rw [List.forall_mem_cons]
    exact ⟨binding_follows b h.1, bindings_follow bs h.2⟩

end

theorem memberInit_follows (ty : Ty) {bs : List (Binding Couple)} (h : ∀ p ∈ args, p.Sound c)
    (hbs : ∀ p ∈ Binding.childrenAll bs, p.Sound c) :
    Copies c (args ++ Binding.childrenAll bs) c.onTree
      (memberInit ty (args.map left) (Binding.mapAll left bs))
      (memberInit ty (args.map (right c.keys)) (Binding.mapAll (right c.keys) bs)) :=
  .bind (creation_follows ty h) fun ts => .last (bracedBindings_follows (bindings_follow bs hbs)) fun us =>
    layer_follows (.memberInit ty ts us)

theorem listInit_follows (ty : Ty) {inits : List (List Couple)} (h : ∀ p ∈ args, p.Sound c)
    (hinits : ∀ p ∈ inits.flatten, p.Sound c) :
    Copies c (args ++ inits.flatten) c.onTree
      (listInit ty (args.map left) (inits.map (List.map left)))
      (listInit ty (args.map (right c.keys)) (inits.map (List.map (right c.keys)))) :=
  .bind (creation_follows ty h) fun ts => .last (elements_follows hinits 4) fun us =>
    layer_follows (.listInit ty ts us)

/-! ## Late-bound operations -/

theorem dynamicArguments_follows (op : LateBound) (hr : p.Sound c) {rest : List Couple} (h : ∀ q ∈ rest, q.Sound c) :
    Follows c (op.read (p :: rest)) (p :: rest) (List.map c.onTree)
      (dynamicArguments op p.left (rest.map left))
      (dynamicArguments op (p.right c.keys) (rest.map (right c.keys))) := by
  have ho := fun kind => operand_follows hr kind false
  have hasIs : ∀ t : Tree, Copies c [] (List.map c.onTree)
      (pure (t :: (rest.map left).map (·.tree)))
      (pure (t.rename c.keys :: (rest.map (right c.keys)).map (·.tree))) :=
    fun t => .pure (by simp [tree_right])
  have hfirst : ∀ {x y : Writing (List Tree)}, Copies c [p] (List.map c.onTree) x y →
      Follows c [p] (p :: rest) (List.map c.onTree) x y := fun h => h.more rest
  unfold dynamicArguments
  -- arguments that the operation does not read are counted all the same
  cases op with
  | convert ty =>
    exact hfirst (.put_bind <| .putType_bind <| .put_bind <| .piece (ho _) hasIs)
  | getMember name => exact hfirst (.piece (ho _) fun t => .put_bind <| hasIs t)
  | setMember name =>
    cases rest with
    | nil => exact .piece (ho _) fun _ => .put_bind <| .throw _
    | cons value unread =>
      change Follows c [p, value] ([p, value] ++ unread) _ _ _
      refine .more ?_ unread
      exact .piece (ho _) fun t => .put_bind <|
        .piece (operand_follows (h value (by simp)) _ _) fun v => .pure (by simp [tree_right])
  | deleteMember name => exact hfirst (.piece (ho _) fun t => .put_bind <| hasIs t)
  | getIndex => exact .piece (ho _) fun _ => .last (arguments_follows _ _ h) fun _ => .pure rfl
  | setIndex =>
    rcases List.eq_nil_or_concat rest with rfl | ⟨init, value, hrest⟩
    · exact .piece (ho _) fun _ => .throw _
    · rw [List.concat_eq_append] at hrest
      subst hrest
      rw [List.forall_mem_append, List.forall_mem_singleton] at h
      simp only [List.map_append, List.map_cons, List.map_nil, List.getLast?_concat, List.dropLast_concat]
      exact .piece (ho _) fun _ => .bind (arguments_follows _ _ h.1) fun _ => .put_bind <|
        .piece (operand_follows h.2 _ _) fun _ => .pure (by simp)
  | deleteIndex =>
    exact .piece (ho _) fun _ => .last (arguments_follows _ _ h) fun _ => .put_bind <| .pure rfl
  | invokeMember name =>
    exact .piece (ho _) fun _ => .put_bind <| .last (arguments_follows _ _ h) fun _ => .pure rfl
  | invoke => exact .piece (ho _) fun _ => .last (arguments_follows _ _ h) fun _ => .pure rfl
  | createInstance =>
    exact .put_bind <| .piece (ho _) fun _ => .last (arguments_follows _ _ h) fun _ => .pure rfl
  | unaryOperation kind => exact hfirst (.piece (affixed_follows kind hr) hasIs)
  | binaryOperation kind =>
    cases rest with
    | nil => exact .throw _
    | cons value unread =>
      change Follows c [p, value] ([p, value] ++ unread) _ _ _
      refine .more ?_ unread
      exact .last (infixed_follows kind hr (h value (by simp))) fun a => .pure (by simp [tree_right])
  | custom name => exact .throw _

theorem dynamic_follows (op : LateBound) (h : ∀ p ∈ args, p.Sound c) (ty : Ty) :
    Follows c (op.read args) args c.onTree (dynamic op (args.map left) ty)
      (dynamic op (args.map (right c.keys)) ty) := by
  cases args with
  | nil => exact .throw _
  | cons receiver rest =>
    rw [List.forall_mem_cons] at h
    refine .ite (by simp) (fun _ => ?_) fun _ => ?_
    · rw [List.length_map, List.length_map]
      exact .throw _
    · exact .then markDynamic_follows fun _ => .last (dynamicArguments_follows op h.1 h.2) fun ts =>
        layer_follows (.dynamic op ts ty)

end Writing

end Scribe
