import Scribe.Proofs.Writing.Likeness.Expression
import Scribe.Proofs.Writing.Step.Statement
import Scribe.Writing.Function
import Scribe.Writing.Switch
import Scribe.Writing.Try

/-!
# Statements that are written alike

When the ways of writing the pieces of a statement are alike, so are those of writing the statement. The tails under
which the pieces are written alike may be restricted; nothing is handed on is always among them.

What declares variables, and what enters a loop, a switch, a function or a body with a fault handler, is not treated
here: there the pieces are written in other surroundings, and it depends on the likeness what that means.
-/

namespace Scribe

open Writing

variable {ι : Type}

/-- The ways of writing the parts of a conditional are alike, under every tail in `A`. -/
structure Branches.Alike (R : Likeness ι) (A : Tail → Prop) (b : Branches) (b' : ι → Branches) : Prop where
  test : R Tree b.test fun i => (b' i).test
  whenTrue (tail : Tail) : A tail → R Tree (b.whenTrue tail) fun i => (b' i).whenTrue tail
  elseIf (tail : Tail) : A tail → R Tree (b.elseIf tail) fun i => (b' i).elseIf tail

/-- The ways of writing the tree in statement position are alike, under every tail in `A`. -/
structure Variants.AlikeUnder (R : Likeness ι) (A : Tail → Prop) (p : Variants ι) : Prop where
  write (tail : Tail) : A tail → R Tree (p.left.write tail) fun i => (p.right i).write tail
  branches : p.usual.branches = none ∧ (∀ i, (p.other i).branches = none) ∨
    ∃ b b', p.usual.branches = some b ∧ (∀ i, (p.other i).branches = some (b' i)) ∧ b.Alike R A b'

variable {R : Likeness ι} {A B : Tail → Prop} {p : Variants ι} {ps : List (Variants ι)} {tail : Tail}

theorem Branches.Alike.mono {b : Branches} {b' : ι → Branches} (h : b.Alike R A b') (hB : ∀ tail, B tail → A tail) :
    b.Alike R B b' where
  test := h.test
  whenTrue tail htail := h.whenTrue tail (hB tail htail)
  elseIf tail htail := h.elseIf tail (hB tail htail)

theorem Variants.AlikeUnder.mono (h : p.AlikeUnder R A) (hB : ∀ tail, B tail → A tail) : p.AlikeUnder R B where
  write tail htail := h.write tail (hB tail htail)
  branches := by
    rcases h.branches with hnone | ⟨b, b', hb, hb', halike⟩
    · exact .inl hnone
    · exact .inr ⟨b, b', hb, hb', halike.mono hB⟩

theorem Variants.AlikeUnder.imp {S : Likeness ι} (hRS : ∀ {x y}, R Tree x y → S Tree x y) (h : p.AlikeUnder R A) :
    p.AlikeUnder S A where
  write tail htail := hRS (h.write tail htail)
  branches := by
    rcases h.branches with hnone | ⟨b, b', hb, hb', halike⟩
    · exact .inl hnone
    · exact .inr ⟨b, b', hb, hb', hRS halike.test, fun tail htail => hRS (halike.whenTrue tail htail),
        fun tail htail => hRS (halike.elseIf tail htail)⟩

theorem Tail.atType_mem (hA : A .discard) (h : A tail) (ty : Ty) : A (tail.atType ty) := by
  unfold Tail.atType
  split
  · exact hA
  · exact h

variable {E : Allowance} {ty : Ty} (hR : R.Congruent E) (hA : A .discard)

include hR hA

open Variants (left right)

/-! ## Lists of statements -/

namespace Likeness.Congruent

protected theorem lineOf (h : p.AlikeUnder R A) (tail : Tail) :
    R _ (lineOf p.left tail) fun i => lineOf (p.right i) tail :=
  hR.bind hR.newline fun _ => hR.page_bind fun start => hR.put_bind <| hR.bind (h.write .discard hA) fun _ =>
    hR.put_bind <| hR.map (hR.mark _ start)

omit hA in
protected theorem innerLabel (target : Label) (value : Option Tree) :
    R _ (innerLabel target value) fun _ => innerLabel target value :=
  hR.bind (hR.nameLabel target) fun _ => hR.putLine_bind <| hR.pure _

protected theorem statement (h : p.AlikeUnder R A) (htail : A tail) (isFirst isLast : Bool) :
    R _ (statement p.left tail isFirst isLast) fun i => statement (p.right i) tail isFirst isLast := by
  have hwrite : R _ (do let t ← p.left.write tail; return [t]) (fun i => do let t ← (p.right i).write tail; return [t]) :=
    hR.map (h.write tail htail)
  have hplain : R _ (if p.tree.isExpression then lineOf p.left tail else do
        unless isFirst do newline
        let t ← p.left.write tail
        return [t]) (fun i => if p.tree.isExpression then lineOf (p.right i) tail else do
        unless isFirst do newline
        let t ← (p.right i).write tail
        return [t]) :=
    Likeness.ite (fun _ => hR.lineOf hA h tail) fun _ =>
      Likeness.ite (fun _ => hwrite) fun _ => hR.bind hR.newline fun _ => hwrite
  obtain ⟨⟨n⟩, usual, other⟩ := p
  refine Likeness.ite (fun _ => hR.pure _) fun _ => ?_
  cases n with
  | sequencePoint document span =>
    refine hR.read_bind fun desk => ?_
    cases desk.wrapper.document with
    | none | some document => exact hR.pure _
  | label target value =>
    exact Likeness.ite (fun _ => hR.map (h.write tail htail)) fun _ => hR.map (hR.innerLabel target value)
  | _ => exact hplain

protected theorem statementsFrom (h : ∀ p ∈ ps, p.AlikeUnder R A) (htail : A tail) (isFirst : Bool) :
    R _ (statementsFrom tail isFirst (ps.map left)) fun i => statementsFrom tail isFirst (ps.map (right i)) := by
  induction ps generalizing isFirst with
  | nil => exact hR.pure _
  | cons p ps ih =>
    rw [List.forall_mem_cons] at h
    simp only [List.map_cons, statementsFrom, List.isEmpty_map]
    refine hR.bind (hR.statement hA h.1 ?_ isFirst _) fun _ => hR.map (ih h.2 false)
    split
    · exact htail
    · exact hA

protected theorem statements (h : ∀ p ∈ ps, p.AlikeUnder R A) (htail : A tail) :
    R _ (statements (ps.map left) tail) fun i => statements (ps.map (right i)) tail := by
  have hlast : ∀ i, (ps.map (right i)).getLast?.bind (·.tree.node.labelTarget?) =
      (ps.map left).getLast?.bind (·.tree.node.labelTarget?) := by
    intro i
    rw [List.getLast?_map, List.getLast?_map]
    cases ps.getLast? <;> rfl
  have hrest := hR.statementsFrom hA h htail true
  unfold statements
  simp only [hlast]
  split
  · exact hR.bind (hR.addTaker _ _) fun _ => hrest
  · exact hrest

end Likeness.Congruent

/-! ## Bodies and conditionals -/

namespace Variants

theorem AlikeUnder.body (h : p.AlikeUnder R A) (htail : A tail) :
    R _ (p.left.body tail) fun i => (p.right i).body tail := by
  have hone : ∀ q ∈ [p], q.AlikeUnder R A := by simpa using h
  have hlist : R _ (if p.tree.isEmpty then pure p.tree else do
        let ts ← statements [p.left] tail
        return Tree.ofStatements ts) (fun i => if p.tree.isEmpty then pure p.tree else do
        let ts ← statements [p.right i] tail
        return Tree.ofStatements ts) :=
    Likeness.ite (fun _ => hR.pure _) fun _ => hR.map (hR.statements hA hone htail)
  obtain ⟨⟨n⟩, usual, other⟩ := p
  cases n with
  | block vars body ty => exact h.write tail htail
  | _ => exact hlist

theorem AlikeUnder.bracedBody (h : p.AlikeUnder R A) (htail : A tail) :
    R _ (p.left.bracedBody tail) fun i => (p.right i).bracedBody tail :=
  hR.bind (hR.onPage _) fun _ => hR.bind (h.body hR hA htail) fun _ => hR.map (hR.onPage _)

omit hA in
theorem Alike.test (h : p.Alike R) : R _ p.left.test fun i => (p.right i).test := by
  refine hR.page_bind fun start => hR.bind h.value fun t => hR.bind (hR.mark _ start) fun point => ?_
  cases point with
  | none | some point => exact hR.pure _

end Variants

namespace Likeness.Congruent

variable {test ifTrue ifFalse : Variants ι}

omit hA in
protected theorem ternary (ht : test.Alike R) (ha : ifTrue.Alike R) (hb : ifFalse.Alike R) (ty : Ty) :
    R _ (ternary test.left ifTrue.left ifFalse.left ty)
      fun i => ternary (test.right i) (ifTrue.right i) (ifFalse.right i) ty :=
  hR.bind (ht.operand hR.lined _ _) fun _ => hR.put_bind <| hR.bind (ha.operand hR.lined _ _) fun _ =>
    hR.put_bind <| hR.map (hb.operand hR.lined _ _)

protected theorem elseBranch (h : p.AlikeUnder R A) (htail : A tail) :
    R _ (elseBranch p.left tail) fun i => elseBranch (p.right i) tail := by
  have hbraced := hR.bind (hR.putLine "else") fun _ => h.bracedBody hR hA htail
  refine Likeness.ite (fun _ => hR.pure _) fun _ => ?_
  rcases h.branches with ⟨hnone, hnone'⟩ | ⟨b, b', hsome, hsome', halike⟩
  · simpa only [left, right, hnone, hnone'] using hbraced
  · simpa only [left, right, hsome, hsome'] using halike.elseIf tail htail

section Conditionals

variable (ht : test.Alike R) (ha : ifTrue.AlikeUnder R A) (hb : ifFalse.AlikeUnder R A)

include ht ha hb

protected theorem ifStatement (lead : String) (ty : Ty) (htail : A tail) :
    R _ (ifStatement lead test.left ifTrue.left ifFalse.left ty tail)
      fun i => ifStatement lead (test.right i) (ifTrue.right i) (ifFalse.right i) ty tail := by
  have htail := Tail.atType_mem hA htail ty
  refine hR.putLine_bind <| hR.bind (ht.test hR) fun _ => ?_
  exact hR.put_bind <| hR.bind (ha.bracedBody hR hA htail) fun _ => hR.map (hR.elseBranch hA hb htail)

protected theorem branches (ty : Ty) :
    ∃ b b', (conditional test.left ifTrue.left ifFalse.left ty).branches = some b ∧
      (∀ i, (conditional (test.right i) (ifTrue.right i) (ifFalse.right i) ty).branches = some (b' i)) ∧
      b.Alike R A b' :=
  ⟨_, _, rfl, fun _ => rfl,
    { test := ht.test hR
      whenTrue := fun _ htail => ha.body hR hA htail
      elseIf := fun _ htail => hR.ifStatement hA ht ha hb "else if (" ty htail }⟩

/-- A conditional whose branches are expressions writes them as such, and otherwise as bodies. -/
protected theorem conditional (hae : ifTrue.tree.isExpression = true → ifTrue.Alike R)
    (hbe : ifFalse.tree.isExpression = true → ifFalse.Alike R) (ty : Ty) (htail : A tail) :
    R _ ((conditional test.left ifTrue.left ifFalse.left ty).write tail)
      fun i => (conditional (test.right i) (ifTrue.right i) (ifFalse.right i) ty).write tail := by
  refine Likeness.ite (fun hc => ?_) fun _ => hR.ifStatement hA ht ha hb "if (" ty htail
  obtain ⟨hc, hfalse⟩ := Bool.and_eq_true_iff.mp hc
  obtain ⟨-, htrue⟩ := Bool.and_eq_true_iff.mp hc
  exact hR.ternary ht (hae htrue) (hbe hfalse) ty

end Conditionals

/-! ## Jumps and labels -/

section Jumps

variable {value : Option (Variants ι)} (h : ∀ p ∈ value, p.Alike R)

include h

omit hA

protected theorem valueOrDefault (hty : E.Admits ty) :
    R _ (valueOrDefault (value.map left) ty) fun i => valueOrDefault (value.map (right i)) ty := by
  cases value with
  | none => exact hR.map (hR.putDefault hty)
  | some p => exact (h p rfl).value

protected theorem effectOf : R _ (effectOf (value.map left)) fun i => effectOf (value.map (right i)) := by
  cases value with
  | none => exact hR.pure _
  | some p =>
    refine Likeness.ite (fun he => ?_) fun _ => hR.pure _
    have hexpression : p.tree.isExpression = true := isExpression_of_isEffect he
    have hleft : p.left.value = p.left.inline := if_pos hexpression
    have hright : ∀ i, (p.right i).value = (p.right i).inline := fun _ => if_pos hexpression
    have hvalue := (h p rfl).value
    simp only [hleft, hright] at hvalue
    exact hR.bind hvalue fun _ => hR.put_bind <| hR.map hR.newline

omit h in
protected theorem clearFlags (flags : List String) : R _ (clearFlags flags) fun _ => clearFlags flags := by
  induction flags with
  | nil => exact hR.pure _
  | cons flag flags ih => exact hR.put_bind <| hR.bind hR.newline fun _ => ih

omit h in
protected theorem clearFaults (target : Option Label) : R _ (clearFaults target) fun _ => clearFaults target :=
  hR.get_bind fun _ => hR.clearFlags _

protected theorem finalLabel {target : Label} (hty : E.Admits target.ty) (tail : Tail) :
    R _ (finalLabel target (value.map left) tail) fun i => finalLabel target (value.map (right i)) tail := by
  have htree : ∀ i, (value.map (right i)).map (·.tree) = (value.map left).map (·.tree) := by
    intro i
    cases value <;> rfl
  have hvalue := hR.valueOrDefault h hty
  unfold finalLabel
  simp only [htree]
  refine hR.bind (hR.nameLabel target) fun _ => ?_
  split
  · exact hR.putLine_bind <| hR.put_bind <| hR.pure _
  · exact hR.putLine_bind <| hR.putLine_bind <| hR.bind hvalue fun _ => hR.put_bind <| hR.pure _
  · exact hR.putLine_bind <| hR.bind hvalue fun _ => hR.put_bind <| hR.putLine_bind <| hR.pure _

end Jumps

/-! ## Cases and handlers -/

protected theorem caseBody (h : p.AlikeUnder R A) (htail : A tail) :
    R _ (caseBody p.left tail) fun i => caseBody (p.right i) tail := by
  refine hR.bind (hR.onPage _) fun _ => hR.bind (h.body hR hA htail) fun _ => ?_
  refine Likeness.ite (fun _ => hR.putLine_bind ?_) fun _ => ?_
  all_goals exact hR.map (hR.onPage _)

protected theorem switchCase {c : Case (Variants ι)} (ht : ∀ p ∈ c.tests, p.Alike R) (hb : c.body.AlikeUnder R A)
    (htail : A tail) : R _ (switchCase tail (c.map left)) fun i => switchCase tail (c.map (right i)) := by
  refine hR.bind (hR.mapM_map fun p hp => ?_) fun _ => hR.map (hR.caseBody hA hb htail)
  exact hR.putLine_bind <| hR.bind (ht p hp).value fun _ => hR.put_bind <| hR.pure _

protected theorem handler {h : Handler (Variants ι)} (hty : E.Admits h.test)
    (hc : ∀ v ∈ h.caught, R _ (putVariable v) fun _ => putVariable v) (hf : ∀ p ∈ h.filter, p.Alike R)
    (hb : h.body.AlikeUnder R A) (htail : A tail) :
    R _ (handler tail (h.map left)) fun i => handler tail (h.map (right i)) := by
  obtain ⟨test, caught, filter, body⟩ := h
  have hbody := hb.bracedBody hR hA htail
  refine hR.putLine_bind <| hR.bind (hR.putType hty) fun _ => ?_
  rcases filter with _ | p
  · cases caught with
    | none => exact hR.bind (hR.pure _) fun _ => hR.put_bind <| hR.bind (hR.pure _) fun _ => hR.map hbody
    | some v =>
      exact hR.put_bind <| hR.bind (hc v rfl) fun _ => hR.bind (hR.pure _) fun _ => hR.put_bind <|
        hR.bind (hR.pure _) fun _ => hR.map hbody
  · have hvalue := (hf p rfl).value
    cases caught with
    | none =>
      exact hR.bind (hR.pure _) fun _ => hR.put_bind <| hR.put_bind <| hR.bind hvalue fun _ => hR.put_bind <|
        hR.bind (hR.pure _) fun _ => hR.map hbody
    | some v =>
      exact hR.put_bind <| hR.bind (hc v rfl) fun _ => hR.bind (hR.pure _) fun _ => hR.put_bind <| hR.put_bind <|
        hR.bind hvalue fun _ => hR.put_bind <| hR.bind (hR.pure _) fun _ => hR.map hbody

protected theorem finallyPart {final fault : Option (Variants ι)} (hf : ∀ p ∈ final, p.AlikeUnder R A)
    (hu : ∀ p ∈ fault, p.AlikeUnder R A) (flag : String) :
    R _ (finallyPart (final.map left) (fault.map left) flag)
      fun i => finallyPart (final.map (right i)) (fault.map (right i)) flag := by
  unfold finallyPart
  simp only [Option.isNone_map]
  refine Likeness.ite (fun _ => hR.pure _) fun _ => hR.putLine_bind <| hR.bind (hR.onPage _) fun _ => ?_
  rcases fault with _ | q
  · cases final with
    | none => exact hR.bind (hR.pure _) fun _ => hR.bind (hR.pure _) fun _ => hR.map (hR.onPage _)
    | some p =>
      exact hR.bind ((hf p rfl).body hR hA hA) fun _ => hR.bind (hR.pure _) fun _ =>
        hR.bind (hR.pure _) fun _ => hR.map (hR.onPage _)
  · have hguarded := (hu q rfl).bracedBody hR hA hA
    cases final with
    | none =>
      exact hR.bind (hR.pure _) fun _ => hR.putLine_bind <| hR.bind hguarded fun _ =>
        hR.bind (hR.pure _) fun _ => hR.map (hR.onPage _)
    | some p =>
      exact hR.bind ((hf p rfl).body hR hA hA) fun _ => hR.bind (hR.pure _) fun _ => hR.putLine_bind <|
        hR.bind hguarded fun _ => hR.bind (hR.pure _) fun _ => hR.map (hR.onPage _)

/-! ## Functions -/

section Functions

omit hA

/-- A closure, when its body is written alike as that of another function. -/
protected theorem closure (hty : E.Admits p.tree.ty)
    (h : R _ (inFunction (p.left.write (Tail.atType .result p.tree.ty)))
      fun i => inFunction ((p.right i).write (Tail.atType .result p.tree.ty))) :
    R _ p.left.closure fun i => (p.right i).closure :=
  hR.put_bind <| hR.bind (hR.putType (.delegate nofun hty)) fun _ => hR.put_bind <|
    hR.bind (hR.onPage _) fun _ => hR.bind h fun _ => hR.bind (hR.onPage _) fun _ => hR.put_bind <| hR.pure _

protected theorem parameterNames {vars : List Variable} (h : ∀ v ∈ vars, R _ (putVariable v) fun _ => putVariable v) :
    R _ (parameterNames vars) fun _ => parameterNames vars := by
  match vars with
  | [v] => exact hR.map (h v (by simp))
  | [] | _ :: _ :: _ => exact hR.bracketed (.of_map h) _ _

variable {sig : Signature} (hparams : ∀ v ∈ sig.params, R _ (putVariable v) fun _ => putVariable v)

include hparams

/-- A lambda in place, when its body is written alike as an operand, or as the body of another function. -/
protected theorem arrow (hvalue : p.tree.isExpression = true → p.Alike R)
    (hbody : p.tree.isExpression ≠ true →
      R _ (inFunction (p.left.body (Tail.atType .result sig.result)))
        fun i => inFunction ((p.right i).body (Tail.atType .result sig.result))) :
    R _ (arrow sig p.left) fun i => arrow sig (p.right i) := by
  refine hR.bind (hR.parameterNames hparams) fun _ => hR.put_bind ?_
  refine Likeness.ite (c := p.tree.isExpression = true) (fun he => ?_) fun he => ?_
  · exact hR.bind ((hvalue he).operand hR.lined _ _) fun _ => hR.map hR.turn
  · exact hR.bind (hR.onPage _) fun _ => hR.bind (hbody he) fun _ => hR.bind (hR.onPage _) fun _ =>
      hR.bind (hR.pure _) fun _ => hR.map hR.turn

protected theorem method (hty : ∀ ty ∈ sig.types, E.Admits ty)
    (hbody : R _ (p.left.bracedBody (Tail.atType .result sig.result))
      fun i => (p.right i).bracedBody (Tail.atType .result sig.result)) (id : Ident) (access name : String) :
    R _ (method id access name sig p.left) fun i => method id access name sig (p.right i) := by
  rw [Signature.types, List.forall_mem_cons, List.forall_mem_map] at hty
  have hparameter : ∀ v ∈ sig.params, R _ (parameter v) fun _ => parameter v := by
    intro v hv
    have hrest := hR.bind (hR.putType (hty.2 v hv)) fun _ => hR.bind (hR.put " ") fun _ => hparams v hv
    unfold parameter
    exact Likeness.ite (fun _ => hR.put_bind hrest) fun _ => hrest
  have hrest := hR.bind (hR.putType hty.1) fun _ => hR.bind (hR.put (" " ++ name)) fun _ =>
    hR.bind (hR.bracketed (.of_map hparameter) "(" ")") fun params => hR.bind hbody fun t =>
      hR.pure (Tree.mk (.lambda { id, name := some name, params, result := sig.result } t))
  refine hR.putLine_bind <| hR.read_bind fun desk => ?_
  exact Likeness.ite (fun _ => hR.put_bind hrest) fun _ => hrest

end Functions

end Likeness.Congruent

end Scribe
