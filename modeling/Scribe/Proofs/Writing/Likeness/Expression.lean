import Scribe.Proofs.Writing.Likeness
import Scribe.Writing.Node

/-!
# Expressions that are written alike

When the ways of writing the pieces of an expression are alike, so are those of writing the expression. Nothing is known
of the pieces but that they are written alike as values, and, for a quoted lambda, in place. Most layers do nothing but
write their children as values, and they are treated as one (`Likeness.Lined.layer`).
-/

namespace Scribe

open Writing

variable {β : Type} {m : Method} {op : LateBound}

/-- Whether a layer does nothing but write its children as values. -/
def Node.writesValues {α : Type} : Node α → Bool
  | .var _ | .lambda _ _ | .conditional _ _ _ _ | .block _ _ _ | .loop _ _ _ | .jump _ _ _ _ | .switch _ _ _ _
  | .tryCatch _ _ _ _ _ => false
  | _ => true

theorem Node.writesValues_map {α : Type} (f : α → β) (n : Node α) : (n.map f).writesValues = n.writesValues := by
  cases n <;> rfl

variable {ι : Type} {R : Likeness ι} {E : Allowance} {p l r : Variants ι} {ty : Ty} (hR : R.Lined E)

include hR

/-! ## Operands -/

namespace Variants

theorem Alike.inParens (h : p.Alike R) : R Tree p.left.inParens fun i => (p.right i).inParens :=
  hR.put_bind <| hR.bind h.value fun _ => hR.put_bind <| hR.pure _

theorem Alike.operand (h : p.Alike R) (parent : Kind) (isRight : Bool) :
    R Tree (p.left.operand parent isRight) fun i => (p.right i).operand parent isRight :=
  Likeness.ite (fun _ => h.inParens hR) fun _ => h.value

end Variants

open Variants (left right)

namespace Likeness.Lined

open Writing

variable {args : List (Variants ι)}

protected theorem arguments (opening closing : String) (h : ∀ p ∈ args, p.Alike R) :
    R _ (arguments opening closing (args.map left)) fun i => arguments opening closing (args.map (right i)) := by
  unfold arguments
  simp only [List.map_map]
  exact hR.bracketed (.of_map fun p hp => (h p hp).value) _ _

/-! ## Operators -/

protected theorem infixed {kind : Kind} (hkind : kind.token? = none → E.error (.unsupportedOperator kind))
    (hl : l.Alike R) (hr : r.Alike R) : R _ (infixed kind l.left r.left) fun i => infixed kind (l.right i) (r.right i) := by
  have htoken : R _ (tokenOf kind) fun _ => tokenOf kind := by
    unfold tokenOf
    cases htoken : kind.token? with
    | none => exact hR.throw (hkind htoken)
    | some token => exact hR.pure _
  exact hR.bind htoken fun _ => hR.bind (hl.operand hR kind _) fun _ => hR.put_bind <| hR.map (hr.operand hR kind _)

protected theorem powerCall (hl : l.Alike R) (hr : r.Alike R) :
    R _ (powerCall l.left r.left) fun i => powerCall (l.right i) (r.right i) :=
  hR.bind (hR.putType fun _ => by decide) fun _ => hR.put_bind <| hR.bind hl.value fun _ => hR.put_bind <|
    hR.bind hr.value fun _ => hR.put_bind <| hR.pure _

omit hR in
/-- Only a power and the element of an array are written without a token between the operands. -/
theorem token?_isSome_of_ne {op : BinaryOp} (h₁ : op ≠ .arrayIndex) (h₂ : op ≠ .power)
    (h₃ : op ≠ .powerAssign) : (Kind.binary op).token?.isSome = true := by
  revert h₁ h₂ h₃
  cases op <;> decide

protected theorem binaryOperation (op : BinaryOp) (hl : l.Alike R) (hr : r.Alike R) (ty : Ty) :
    R _ (binaryOperation op l.left r.left ty) fun i => binaryOperation op (l.right i) (r.right i) ty := by
  unfold binaryOperation
  split
  · exact hR.bind (hl.operand hR _ _) fun _ => hR.put_bind <| hR.bind hr.value fun _ => hR.put_bind <| hR.pure _
  · exact hR.map (hR.powerCall hl hr)
  · exact hR.bind (hl.operand hR _ _) fun _ => hR.put_bind <| hR.map (hR.powerCall hl hr)
  · next h₁ h₂ h₃ =>
    refine hR.map (hR.infixed (fun hnone => ?_) hl hr)
    have hsome := token?_isSome_of_ne h₁ h₂ h₃
    rw [hnone] at hsome
    cases hsome

protected theorem affixed (kind : Kind) (h : p.Alike R) : R _ (affixed kind p.left) fun i => affixed kind (p.right i) :=
  hR.put_bind <| hR.bind (h.operand hR kind _) fun _ => hR.put_bind <| hR.pure _

protected theorem putOpening (op : UnaryOp) (hty : E.Admits ty) : R _ (putOpening op ty) fun _ => putOpening op ty := by
  have hcast : R _ (do put "("; putType ty; put ")") (fun _ => do put "("; putType ty; put ")") :=
    hR.put_bind <| hR.bind (hR.putType hty) fun _ => hR.put _
  unfold putOpening
  split
  · exact hcast
  · exact hcast
  · exact hcast
  · exact hR.put _
  · exact hR.pure _

omit hR in
theorem getD_quoted (h : p.Alike R) {x : Writing Tree} {y : ι → Writing Tree} (hxy : R Tree x y) :
    R _ (p.left.2.quoted.getD x) fun i => (p.right i).2.quoted.getD (y i) := by
  rcases h.quoted with ⟨hnone, hnone'⟩ | ⟨q, q', hsome, hsome', hq⟩
  · simpa only [left, right, hnone, hnone', Option.getD_none] using hxy
  · simpa only [left, right, hsome, hsome', Option.getD_some] using hq

protected theorem unaryOperation {op : UnaryOp} {operand : Option (Variants ι)}
    (herr : ∀ err ∈ (Node.unary op operand ty).defect?, E.error err) (h : ∀ p ∈ operand, p.Alike R) (hty : E.Admits ty) :
    R _ (unaryOperation op (operand.map left) ty) fun i => unaryOperation op (operand.map (right i)) ty := by
  cases operand with
  | none =>
    cases op with
    | throw => exact hR.put_bind <| hR.pure _
    | _ => exact hR.throw (herr _ rfl)
  | some p =>
    simp only [Option.map_some, unaryOperation_some]
    have haffixed := hR.affixed (.unary op) (h p rfl)
    refine hR.bind (hR.putOpening op hty) fun _ => ?_
    have hrest : ∀ t, R _ (do
          if op = .typeAs then
            put " as "
            putType ty
          return Tree.mk (.unary op (some t) ty)) (fun _ => do
          if op = .typeAs then
            put " as "
            putType ty
          return Tree.mk (.unary op (some t) ty)) := fun _ =>
      Likeness.ite (fun _ => hR.put_bind <| hR.map (hR.putType hty))
        fun _ => hR.pure _
    exact Likeness.ite (fun _ => hR.bind (getD_quoted (h p rfl) haffixed) hrest) fun _ => hR.bind haffixed hrest

protected theorem typeTest (test : TypeTest) (h : p.Alike R) (hty : E.Admits ty) :
    R _ (typeTest test p.left ty) fun i => typeTest test (p.right i) ty := by
  unfold typeTest
  cases test with
  | is =>
    exact hR.bind (h.operand hR _ _) fun _ => hR.put_bind <| hR.map (hR.putType hty)
  | equal =>
    exact hR.bind (h.operand hR _ _) fun _ => hR.put_bind <| hR.bind (hR.putType hty) fun _ =>
      hR.put_bind <| hR.pure _

/-! ## Members and calls -/

protected theorem memberAccess {receiver : Option (Variants ι)} (h : ∀ p ∈ receiver, p.Alike R) {owner : Ty}
    (hty : E.Admits owner) (name : String) :
    R _ (memberAccess (receiver.map left) owner name) fun i => memberAccess (receiver.map (right i)) owner name := by
  cases receiver with
  | none =>
    exact hR.bind (hR.putType hty) fun _ => hR.bind (hR.pure _) fun _ => hR.put_bind <| hR.put_bind <| hR.pure _
  | some p =>
    exact hR.bind ((h p rfl).operand hR _ _) fun _ => hR.bind (hR.pure _) fun _ => hR.put_bind <|
      hR.put_bind <| hR.pure _

protected theorem indexAccess (hp : p.Alike R) (indexer : Option Member) (h : ∀ p ∈ args, p.Alike R) (ty : Ty) :
    R _ (indexAccess p.left indexer (args.map left) ty)
      fun i => indexAccess (p.right i) indexer (args.map (right i)) ty := by
  unfold indexAccess
  split
  · exact hR.bind (hp.operand hR _ _) fun _ => hR.put_bind <| hR.put_bind <|
      hR.bind (hR.pure _) fun _ => hR.map (hR.arguments _ _ h)
  · exact hR.bind (hp.operand hR _ _) fun _ => hR.map (hR.arguments _ _ h)

protected theorem invocation (hp : p.Alike R) (h : ∀ p ∈ args, p.Alike R) (ty : Ty) :
    R _ (invocation p.left (args.map left) ty) fun i => invocation (p.right i) (args.map (right i)) ty := by
  unfold invocation
  refine Likeness.ite (fun _ => hR.bind (hp.inParens hR) fun _ => ?_) fun _ => hR.bind (hp.operand hR _ _) fun _ => ?_
  all_goals exact hR.map (hR.arguments _ _ h)

protected theorem modifiedArguments (params : List MethodParam) (h : ∀ p ∈ args, p.Alike R) :
    Likeness.All R (modifiedArguments (args.map left) params) fun i => modifiedArguments (args.map (right i)) params := by
  induction args generalizing params with
  | nil =>
    simp only [List.map_nil, modifiedArguments]
    exact .nil
  | cons p args ih =>
    rw [List.forall_mem_cons] at h
    cases params with
    | nil => exact .cons h.1.value (ih [] h.2)
    | cons param params => exact .cons (hR.put_bind <| h.1.value) (ih params h.2)

/-- A method that cannot be named has a field, unless no delegate fits it. -/
protected theorem methodField (herr : ∀ o ∈ m.obstacle?, E.error (.hiddenMethod m.name o))
    (hty : ∀ ty ∈ m.types, E.Admits ty) : R _ (methodField m) fun _ => methodField m := by
  have hdelegate : E.Admits m.delegate :=
    .delegate (fun ty h => hty ty (by simp [Method.types, h])) (hty _ (by simp [Method.types]))
  have hfield : R _ (field (.method m) m.delegate m.name) fun _ => field (.method m) m.delegate m.name :=
    hR.field (.method m) hdelegate
  refine Likeness.ite (fun hany => hR.throw (herr _ ?_)) fun hany => ?_
  · rw [Method.obstacle?, if_pos hany]
    rfl
  · refine Likeness.ite (fun hmany => hR.throw (herr _ ?_)) fun _ => hfield
    rw [Method.obstacle?, if_neg hany, if_pos hmany]
    rfl

protected theorem putGenerics {tys : List Ty} (h : ∀ ty ∈ tys, E.Admits ty) :
    R _ (putGenerics tys) fun _ => putGenerics tys :=
  Likeness.ite (fun _ => hR.pure _) fun _ => hR.bind (hR.mapM fun ty hty => hR.spell (h ty hty)) fun _ => hR.put _

variable {args : List (Variants ι)}

protected theorem finishCall (hty : ∀ ty ∈ m.types, E.Admits ty) (receiver : Option Tree)
    (first : List Tree) (params : List MethodParam) (unnamed : Bool) (h : ∀ p ∈ args, p.Alike R) :
    R _ (finishCall m { receiver, first, args := args.map left, params, unnamed })
      fun i => finishCall m { receiver, first, args := args.map (right i), params, unnamed } := by
  unfold finishCall
  refine Likeness.ite (fun _ => hR.map (hR.arguments _ _ h)) fun _ => ?_
  have hlast : R _ (do
        let as ← bracketed "(" ")" (modifiedArguments (args.map left) params)
        return Tree.mk (.call receiver m (first ++ as))) (fun i => do
        let as ← bracketed "(" ")" (modifiedArguments (args.map (right i)) params)
        return Tree.mk (.call receiver m (first ++ as))) :=
    hR.map (hR.bracketed (hR.modifiedArguments params h) _ _)
  refine Likeness.ite (fun _ => hR.put_bind <| hR.put_bind ?_) fun _ => hlast
  exact hR.bind (hR.putGenerics fun ty h => hty ty (by simp [Method.types, h])) fun _ => hlast

protected theorem call {receiver : Option (Variants ι)}
    (herr : ∀ err ∈ (Node.call receiver m args).defect?, E.error err) (hr : ∀ p ∈ receiver, p.Alike R)
    (h : ∀ p ∈ args, p.Alike R) (hty : ∀ ty ∈ m.types, E.Admits ty) :
    R _ (call (receiver.map left) m (args.map left)) fun i => call (receiver.map (right i)) m (args.map (right i)) := by
  show R _ (callStart _ m _ >>= finishCall m) fun i => callStart _ m _ >>= finishCall m
  have howner : E.Admits m.owner := hty m.owner (by simp [Method.types])
  unfold callStart
  cases receiver with
  | some p =>
    simp only [Option.map_some, bind_assoc, pure_bind]
    exact hR.bind ((hr p rfl).operand hR _ _) fun t => hR.finishCall hty _ _ _ _ h
  | none =>
    simp only [Option.map_none]
    by_cases hname : (!m.isNameable) = true
    · simp only [if_pos hname, bind_assoc, pure_bind]
      have hname : m.isNameable = false := by simpa using hname
      have hobstacle : ∀ o ∈ m.obstacle?, E.error (.hiddenMethod m.name o) :=
        fun o ho => herr _ (by simpa [Node.defect?, hname] using ho)
      exact hR.bind (hR.methodField hobstacle hty) fun _ => hR.put_bind <| hR.put_bind <| hR.finishCall hty _ _ _ _ h
    · simp only [if_neg hname]
      have htype : R _ (do putType m.owner; finishCall m { args := args.map left, params := m.params })
          (fun i => do putType m.owner; finishCall m { args := args.map (right i), params := m.params }) :=
        hR.bind (hR.putType howner) fun _ => hR.finishCall hty _ _ _ _ h
      -- only an extension method with an argument takes the place of a receiver
      cases hm : m.isExtension with
      | false =>
        simp only [bind_assoc, pure_bind]
        exact htype
      | true =>
        cases args with
        | nil =>
          simp only [List.map_nil, bind_assoc, pure_bind]
          exact htype
        | cons p args =>
          rw [List.forall_mem_cons] at h
          simp only [List.map_cons, bind_assoc, pure_bind]
          exact hR.bind (hR.spell howner) fun _ => hR.bind (h.1.operand hR _ _) fun _ => hR.finishCall hty _ _ _ _ h.2

/-! ## New objects -/

end Likeness.Lined

section Types

omit hR

theorem Allowance.Admits.unnest (h : E.Admits ty) : E.Admits ty.unnest.1 := by
  intro hE
  have hranked := h hE
  clear h
  fun_induction Ty.unnest ty with
  | case1 element rank inner depth hunnest ih =>
    simp only [Ty.isRanked, Bool.and_eq_true] at hranked
    rw [hunnest] at ih
    exact ih hranked.2
  | case2 => exact hranked

theorem Allowance.Admits.element (h : E.Admits ty) : E.Admits (ty.element?.getD .object) := by
  intro hE
  have hranked := h hE
  cases ty
  case array element rank =>
    simp only [Ty.isRanked, Bool.and_eq_true] at hranked
    exact hranked.2
  case byRef inner => exact hranked
  all_goals rfl

end Types

namespace Likeness.Lined

variable {args : List (Variants ι)}

protected theorem creation (hty : E.Admits ty) (h : ∀ p ∈ args, p.Alike R) :
    R _ (creation ty (args.map left)) fun i => creation ty (args.map (right i)) :=
  hR.put_bind <| hR.bind (hR.putType hty) fun _ => hR.arguments _ _ h

/-- A creation begins with a keyword, so that what follows it may go on new lines. -/
protected theorem creation_braced {γ : Type} (hty : E.Admits ty) (h : ∀ p ∈ args, p.Alike R) (limit : Nat)
    {xs : List (Writing β)} {ys : ι → List (Writing β)} (hxs : Likeness.All R xs ys)
    {f : List Tree → List β → Writing γ} (hf : ∀ as bs, R γ (f as bs) fun _ => f as bs) :
    R γ (do let as ← creation ty (args.map left); let bs ← braced limit xs; f as bs)
      fun i => (do let as ← creation ty (args.map (right i)); let bs ← braced limit (ys i); f as bs) := by
  have hrest := hR.bind (hR.putType hty) fun _ => hR.arguments "(" ")" h
  have h := hR.braced_bind (show "new " ≠ "" by decide) limit hrest hxs hf
  simpa only [creation, bind_assoc] using h

protected theorem arrayCreation (form : ArrayForm) (hty : E.Admits ty) (h : ∀ p ∈ args, p.Alike R) :
    R _ (arrayCreation form ty (args.map left)) fun i => arrayCreation form ty (args.map (right i)) := by
  unfold arrayCreation
  cases form with
  | bounds =>
    exact hR.put_bind <| hR.bind (hR.putType hty.element.unnest) fun _ => hR.bind (hR.arguments _ _ h) fun _ =>
      hR.put_bind <| hR.pure _
  | elements =>
    simp only [List.map_map]
    exact hR.braced_bind (by decide) 4 (hR.putType hty) (.of_map fun p hp => (h p hp).value) fun _ _ => hR.pure _

/-- Items in braces behind the token of an assignment. -/
protected theorem assignment {γ : Type} (limit : Nat) {xs : List (Writing β)} {ys : ι → List (Writing β)}
    (hxs : Likeness.All R xs ys) {f : List β → Writing γ} (hf : ∀ bs, R γ (f bs) fun _ => f bs) :
    R γ (do put " ="; let bs ← braced limit xs; f bs) fun i => (do put " ="; let bs ← braced limit (ys i); f bs) := by
  have h := hR.braced_bind (show " =" ≠ "" by decide) limit (hR.pure ()) hxs fun _ => hf
  simpa only [pure_bind] using h

protected theorem element (h : ∀ p ∈ args, p.Alike R) :
    R _ (element (args.map left)) fun i => element (args.map (right i)) := by
  match args with
  | [p] => exact hR.map (h p (by simp)).value
  | [] | _ :: _ :: _ => exact hR.arguments _ _ h

protected theorem elements {inits : List (List (Variants ι))} (h : ∀ p ∈ inits.flatten, p.Alike R) :
    Likeness.All R ((inits.map (List.map left)).map element) fun i => (inits.map (List.map (right i))).map element := by
  simp only [List.map_map]
  exact .of_map fun args hargs => hR.element fun p hp => h p (List.mem_flatten.mpr ⟨args, hargs, hp⟩)

omit hR

mutual

protected theorem binding (hR : R.Lined E) : ∀ b : Binding (Variants ι), (∀ p ∈ b.children, p.Alike R) →
    R _ (binding (b.map left)) fun i => binding (b.map (right i))
  | .assign m p, h => by
    rw [Binding.children] at h
    simp only [Binding.map, binding]
    exact hR.put_bind <| hR.put_bind <| hR.map (h p (by simp)).value
  | .elements m inits, h => by
    rw [Binding.children] at h
    simp only [Binding.map, binding]
    exact hR.put_bind <| hR.assignment 4 (hR.elements h) fun _ => hR.pure _
  | .nested m bs, h => by
    rw [Binding.children] at h
    simp only [Binding.map, binding]
    exact hR.put_bind <| hR.assignment 1 (hR.bindings bs h) fun _ => hR.pure _

protected theorem bindings (hR : R.Lined E) : ∀ bs : List (Binding (Variants ι)),
    (∀ p ∈ Binding.childrenAll bs, p.Alike R) →
    Likeness.All R (bindings (Binding.mapAll left bs)) fun i => bindings (Binding.mapAll (right i) bs)
  | [], _ => by
    simp only [Binding.mapAll, bindings]
    exact .nil
  | b :: bs, h => by
    rw [Binding.childrenAll, List.forall_mem_append] at h
    simp only [Binding.mapAll, bindings]
    exact .cons (hR.binding b h.1) (hR.bindings bs h.2)

end

include hR

protected theorem memberInit (hty : E.Admits ty) {bs : List (Binding (Variants ι))} (h : ∀ p ∈ args, p.Alike R)
    (hb : ∀ p ∈ Binding.childrenAll bs, p.Alike R) :
    R _ (memberInit ty (args.map left) (Binding.mapAll left bs))
      fun i => memberInit ty (args.map (right i)) (Binding.mapAll (right i) bs) :=
  hR.creation_braced hty h 1 (hR.bindings bs hb) fun _ _ => hR.pure _

protected theorem listInit (hty : E.Admits ty) {inits : List (List (Variants ι))} (h : ∀ p ∈ args, p.Alike R)
    (hi : ∀ p ∈ inits.flatten, p.Alike R) :
    R _ (listInit ty (args.map left) (inits.map (List.map left)))
      fun i => listInit ty (args.map (right i)) (inits.map (List.map (right i))) :=
  hR.creation_braced hty h 4 (hR.elements hi) fun _ _ => hR.pure _

/-! ## Late-bound operations -/

omit hR in
/-- A conversion to a type without a full name cannot even be refused properly. -/
theorem tooFewArguments_allowed {found : Nat} (hfew : found < op.minArguments)
    (herr : ∀ err ∈ op.defect? found, E.error err) (hty : ∀ ty ∈ op.types, E.Admits ty) :
    E.error (tooFewArguments op found) := by
  unfold tooFewArguments
  split
  · next text htext => exact herr _ (by simp [LateBound.defect?, hfew, htext])
  · next htext =>
    refine E.noFullName fun hE => ?_
    cases op
    case convert ty =>
      have hname := ty.fullName?_isSome (hty ty (by simp [LateBound.types]) hE)
      simp only [LateBound.text?, Option.bind_eq_bind, Option.bind_eq_none_iff] at htext
      obtain ⟨name, hname⟩ := Option.isSome_iff_exists.mp hname
      exact Option.some_ne_none _ (htext name hname)
    all_goals simp [LateBound.text?] at htext

protected theorem dynamicArguments (hfew : ¬args.length + 1 < op.minArguments)
    (herr : ∀ err ∈ op.defect? (args.length + 1), E.error err) (hty : ∀ ty ∈ op.types, E.Admits ty) (hp : p.Alike R)
    (h : ∀ p ∈ args, p.Alike R) :
    R _ (dynamicArguments op p.left (args.map left)) fun i => dynamicArguments op (p.right i) (args.map (right i)) := by
  simp only [LateBound.defect?, if_neg hfew] at herr
  have ho := fun kind => hp.operand hR kind false
  have hargs := fun opening closing => hR.arguments opening closing h
  unfold dynamicArguments
  simp only [Variants.map_tree]
  -- there are arguments enough, so that no operation stops for want of one
  cases op with
  | convert ty =>
    exact hR.put_bind <| hR.bind (hR.putType (hty ty (by simp [LateBound.types]))) fun _ => hR.put_bind <|
      hR.map (ho _)
  | getMember name => exact hR.bind (ho _) fun _ => hR.put_bind <| hR.pure _
  | setMember name =>
    refine hR.bind (ho _) fun _ => hR.put_bind ?_
    cases args with
    | nil => exact absurd Nat.one_lt_two hfew
    | cons value unread =>
      simp only [List.map_cons, Variants.map_tree]
      exact hR.map ((h value (by simp)).operand hR _ _)
  | deleteMember name => exact hR.bind (ho _) fun _ => hR.put_bind <| hR.pure _
  | getIndex => exact hR.bind (ho _) fun _ => hR.map (hargs _ _)
  | setIndex =>
    refine hR.bind (ho _) fun _ => ?_
    simp only [List.getLast?_map, ← List.map_dropLast]
    cases hlast : args.getLast? with
    | none =>
      rw [List.getLast?_eq_none_iff.mp hlast] at hfew
      exact absurd (show 1 < 3 by decide) hfew
    | some value =>
      have hinit : ∀ p ∈ args.dropLast, p.Alike R := fun p hp => h p (List.dropLast_subset _ hp)
      exact hR.bind (hR.arguments _ _ hinit) fun _ => hR.put_bind <|
        hR.map ((h value (List.mem_of_getLast? hlast)).operand hR _ _)
  | deleteIndex => exact hR.bind (ho _) fun _ => hR.bind (hargs _ _) fun _ => hR.put_bind <| hR.pure _
  | invokeMember name => exact hR.bind (ho _) fun _ => hR.put_bind <| hR.map (hargs _ _)
  | invoke => exact hR.bind (ho _) fun _ => hR.map (hargs _ _)
  | createInstance => exact hR.put_bind <| hR.bind (ho _) fun _ => hR.map (hargs _ _)
  | unaryOperation kind => exact hR.map (hR.affixed kind hp)
  | binaryOperation kind =>
    cases args with
    | nil => exact absurd Nat.one_lt_two hfew
    | cons value unread =>
      simp only [List.map_cons, Variants.map_tree]
      exact hR.map (hR.infixed (fun hnone => herr _ (by simp [hnone])) hp (h value (by simp)))
  | custom name => exact hR.throw (herr _ rfl)

protected theorem dynamic (herr : ∀ err ∈ op.defect? args.length, E.error err)
    (hty : ∀ ty ∈ op.types, E.Admits ty) (h : ∀ p ∈ args, p.Alike R) (ty : Ty) :
    R _ (dynamic op (args.map left) ty) fun i => dynamic op (args.map (right i)) ty := by
  cases args with
  | nil => exact hR.throw (tooFewArguments_allowed (by cases op <;> simp [LateBound.minArguments]) herr hty)
  | cons p args =>
    rw [List.forall_mem_cons] at h
    unfold dynamic
    simp only [List.map_cons, List.length_cons, List.length_map]
    refine Likeness.ite (fun hfew => hR.throw (tooFewArguments_allowed hfew herr hty)) fun hfew => ?_
    exact hR.bind hR.markDynamic fun _ => hR.map (hR.dynamicArguments hfew herr hty h.1 h.2)

/-! ## Constants -/

protected theorem putValue {v : Value} (hty : ∀ ty ∈ v.types, E.Admits ty) : R _ (putValue v) fun _ => putValue v := by
  refine hR.bind ?_ fun _ => hR.put _
  cases v with
  | enum ty member raw | type ty => exact hR.map (hR.spell (hty ty (by simp [Value.types])))
  | object o => exact hR.field (.object o) (hty o.ty (by simp [Value.types]))
  | _ => exact hR.pure _

/-! ## Layers -/

protected theorem layer {n : Node (Variants ι)} (hn : n.writesValues = true)
    (hlabel : ∀ target value, n ≠ .label target value) (herr : ∀ err ∈ n.defect?, E.error err)
    (hty : ∀ ty ∈ n.types, E.Admits ty) (h : ∀ p ∈ n.children, p.Alike R) (tail : Tail) :
    R _ ((n.map left).rendition.write tail) fun i => (n.map (right i)).rendition.write tail := by
  cases n <;>
    simp only [Node.children, List.forall_mem_cons, List.forall_mem_append, Option.mem_toList] at h <;>
    simp only [Node.types, Node.ty, List.forall_mem_cons] at hty
  case binary op l r ty => exact hR.binaryOperation op h.1 h.2.1 ty
  case unary op operand ty => exact hR.unaryOperation herr h hty.1
  case constant value ty => exact hR.map (hR.putValue hty.2)
  case defaultOf ty => exact hR.map (hR.putDefault hty.1)
  case invoke target args ty => exact hR.invocation h.1 h.2 ty
  case call receiver m args => exact hR.call herr h.1 h.2 hty.2
  case new ty args => exact hR.map (hR.creation hty.1 h)
  case newArray form ty items => exact hR.arrayCreation form hty.1 h
  case member receiver m => exact hR.map (hR.memberAccess h hty.2.1 _)
  case memberInit ty args bs => exact hR.memberInit hty.1 h.1 h.2
  case listInit ty args inits => exact hR.listInit hty.1 h.1 h.2
  case index receiver indexer args ty => exact hR.indexAccess h.1 indexer h.2 ty
  case label target value => exact absurd rfl (hlabel target value)
  case typeTest test operand ty => exact hR.typeTest test h.1 hty.2.1
  case sequencePoint document span => exact hR.pure _
  case varSet set => exact hR.bind (hR.field (.varSet set) hty.1) fun _ => hR.put_bind <| hR.pure _
  case dynamic op args ty => exact hR.dynamic herr hty.2 h ty
  case extension name ty => exact hR.throw (herr _ rfl)
  all_goals cases hn

end Likeness.Lined

end Scribe
