import Scribe.Proofs.Writing.Likeness.Statement
import Scribe.Writing.Node

/-!
# Constructs that are written alike

What declares variables, enters a loop, a switch or a body with a fault handler, or moves a lambda is taken apart here.
The parts whose surroundings differ are left to the likeness; the others are written alike when the pieces are.
-/

namespace Scribe

open Writing
open Variants (left right)

/-! ## The parts of constructs -/

namespace Writing

/-- The parts of the conditional that a loop goes on with while its test succeeds: how they are written, what is done
when the test fails, and the type of the conditional. -/
def tested? (p : Piece) (exit : Option Label) : Option (Branches × Tree × Ty) :=
  match p.tree.node, p.2.branches with
  | .conditional _ _ ifFalse ty, some branches =>
    if ifFalse.leavesLoop exit then some (branches, ifFalse, ty) else none
  | _, _ => none

/-- The type of the value that a loop hands on: that of its label. -/
abbrev exitTy (exit : Option Label) : Ty := (exit.map (·.ty)).getD .void

/-- Enters a loop. -/
def enterLoop (exit again : Option Label) (tail : Tail) : Writing Unit := do
  match exit with
  | some target => addTaker target tail
  | none => pure ()
  enterScope (.loop exit again false false)

/-- Writes a loop up to the end of its body. -/
def upperLoop (p : Piece) (exit : Option Label) : Writing Tree :=
  match tested? p exit with
  | some (branches, ifFalse, ty) => do
    putLine "while ("
    let t ← branches.test
    put ")"
    openBrace
    let a ← branches.whenTrue .discard
    return .mk (.conditional t a ifFalse ty)
  | none => do
    putLine "while (true)"
    openBrace
    p.body .discard

/-- Writes a loop from the end of its body on. What it hands on when a test fails is the default value of `ty`. -/
def lowerLoop (tested : Bool) (ty : Ty) (tail : Tail) : Writing Unit := do
  putAgainLabel
  closeBrace
  match tested, tail.lead? with
  | true, some lead =>
    putLine lead
    putDefault ty
    put ";"
  | _, _ => pure ()
  leaveLoop

/-- A loop has one of two forms. -/
theorem loop_forms (p : Piece) (exit again : Option Label) (tail : Tail) : loop p exit again tail = (do
    enterLoop exit again (tail.atType (exitTy exit))
    let t ← match tested? p exit with
      | some (branches, ifFalse, ty) => whileLoop branches ifFalse ty (exitTy exit) (tail.atType (exitTy exit))
      | none => endlessLoop p
    leaveLoop
    return .mk (.loop t exit again)) := by
  obtain ⟨⟨n⟩, write, branches, quoted⟩ := p
  cases n with
  | conditional test ifTrue ifFalse ty =>
    cases branches with
    | none => cases exit <;> simp [loop, enterLoop, exitTy, tested?, Tree.node]
    | some branches =>
      cases hleaves : ifFalse.leavesLoop exit <;> cases exit <;>
        simp [loop, enterLoop, exitTy, tested?, Tree.node, hleaves]
  | _ => cases exit <;> simp [loop, enterLoop, exitTy, tested?, Tree.node]

/-- A loop is entered, written up to the end of its body, and then to its end. -/
theorem loop_parts (p : Piece) (exit again : Option Label) (tail : Tail) : loop p exit again tail = (do
    enterLoop exit again (tail.atType (exitTy exit))
    let t ← upperLoop p exit
    lowerLoop (tested? p exit).isSome (exitTy exit) (tail.atType (exitTy exit))
    return .mk (.loop t exit again)) := by
  rw [loop_forms]
  unfold upperLoop lowerLoop
  cases tested? p exit with
  | none => simp [endlessLoop]
  | some parts =>
    cases hlead : (tail.atType (exitTy exit)).lead? with
    | none | some lead => simp [whileLoop, hlead]

/-- Writes inside a construct that jumps refer to. -/
def inScope {α : Type} (scope : JumpScope) (x : Writing α) : Writing α := do
  enterScope scope
  let a ← x
  leaveScope
  return a

/-- Writes the cases of a switch. -/
def switchBody (cases : List (Case Piece)) (fallback : Option Piece) (tail : Tail) :
    Writing (List (Case Tree) × Option Tree) := do
  let cs ← cases.mapM (switchCase tail)
  let d ← match fallback with
    | some p => do
      putLine "default:"
      let t ← caseBody p tail
      pure (some t)
    | none => pure none
  return (cs, d)

theorem switch_eq (value : Piece) (cases : List (Case Piece)) (fallback : Option Piece) (ty : Ty) (tail : Tail) :
    switch value cases fallback ty tail = (do
      putLine "switch ("
      let v ← value.value
      put ")"
      openBrace
      let (cs, d) ← inScope .switch (switchBody cases fallback (tail.atType ty))
      closeBrace
      return .mk (.switch v cs d ty)) := by
  cases fallback <;> simp [switch, switchBody, inScope]

end Writing

variable {ι : Type} {R : Likeness ι} {E : Allowance} {A : Tail → Prop} {p : Variants ι} {tail : Tail} {ty : Ty}

/-- Whether a loop has a test is a matter of its tree. -/
theorem Variants.AlikeUnder.isSome_tested? {q : Variants ι} (h : q.AlikeUnder R A) (exit : Option Label) (i : ι) :
    (tested? (q.right i) exit).isSome = (tested? q.left exit).isSome := by
  obtain ⟨⟨n⟩, usual, other⟩ := q
  cases n with
  | conditional test ifTrue ifFalse ty =>
    rcases h.branches with ⟨hnone, hnone'⟩ | ⟨b, b', hsome, hsome', -⟩
    · simp only at hnone hnone'
      simp only [tested?, left, right, Piece.tree, Tree.node, hnone, hnone']
    · simp only at hsome hsome'
      simp only [tested?, left, right, Piece.tree, Tree.node, hsome, hsome']
      split <;> rfl
  | _ => rfl

namespace Likeness.Congruent

variable (hR : R.Congruent E) (hA : A .discard)

include hR hA

/-! ## Blocks and jumps -/

protected theorem block {vars : List Variable} {ps : List (Variants ι)}
    (hdeclare : ∀ v ∈ vars, ∀ inPlace, R _ (declare v inPlace) fun _ => declare v inPlace)
    (h : ∀ p ∈ ps, p.AlikeUnder R A) (ty : Ty) (htail : A tail) :
    R _ (block vars (ps.map left) ty tail) fun i => block vars (ps.map (right i)) ty tail := by
  have hstatements := hR.statements hA h (Tail.atType_mem hA htail ty)
  unfold block
  simp only [Variants.map_tree]
  refine hR.bind (hR.mapM fun v hv => hdeclare v hv _) fun ws => ?_
  exact Likeness.ite (fun _ => hR.map hstatements) fun _ => hR.bind hR.newline fun _ => hR.map hstatements

omit hA in
protected theorem jump (kind : JumpKind) {target : Label} (hjump : R _ (putJump target) fun _ => putJump target)
    (hty : E.Admits target.ty) {value : Option (Variants ι)} (h : ∀ p ∈ value, p.Alike R) :
    R _ (jump kind target (value.map left)) fun i => jump kind target (value.map (right i)) := by
  have hvalue := hR.valueOrDefault h hty
  refine hR.get_bind fun d => ?_
  split
  · exact hR.bind (hR.clearFaults _) fun _ => hR.put_bind <| hR.map hvalue
  · exact hR.put_bind <| hR.bind hvalue fun _ => hR.put_bind <| hR.bind hR.newline fun _ =>
      hR.bind (hR.clearFaults _) fun _ => hR.map hjump
  · refine hR.bind (hR.clearFaults _) fun _ => hR.put_bind ?_
    cases value with
    | none => exact hR.map (hR.pure _)
    | some p =>
      exact hR.put_bind <| hR.bind (h p rfl).value fun _ => hR.map (hR.pure _)
  · exact hR.bind (hR.effectOf h) fun _ => hR.bind (hR.clearFaults _) fun _ => hR.map hjump

/-! ## Loops and switches -/

/-- The body of a loop is written alike in both forms. -/
protected theorem upperLoop {q : Variants ι} (h : q.AlikeUnder R A) (exit : Option Label) :
    R _ (upperLoop q.left exit) fun i => upperLoop (q.right i) exit := by
  have hendless := hR.bind (hR.putLine "while (true)") fun _ => hR.bind (hR.onPage (·.openBrace false)) fun _ =>
    h.body hR hA hA
  obtain ⟨⟨n⟩, usual, other⟩ := q
  cases n with
  | conditional test ifTrue ifFalse ty =>
    rcases h.branches with ⟨hnone, hnone'⟩ | ⟨b, b', hsome, hsome', halike⟩
    · simp only at hnone hnone'
      simp only [Writing.upperLoop, tested?, left, right, Piece.tree, Tree.node, hnone, hnone']
      exact hendless
    · simp only at hsome hsome'
      simp only [Writing.upperLoop, tested?, left, right, Piece.tree, Tree.node, hsome, hsome']
      cases ifFalse.leavesLoop exit with
      | false => exact hendless
      | true =>
        exact hR.putLine_bind <| hR.bind halike.test fun _ => hR.put_bind <|
          hR.bind (hR.onPage _) fun _ => hR.map (halike.whenTrue .discard hA)
  | _ => exact hendless

protected theorem switchBody {cases : List (Case (Variants ι))}
    (hcases : ∀ k ∈ cases, (∀ c ∈ k.tests, c.Alike R) ∧ k.body.AlikeUnder R A) {fallback : Option (Variants ι)}
    (hfallback : ∀ c ∈ fallback, c.AlikeUnder R A) (htail : A tail) :
    R _ (switchBody (cases.map (Case.map left)) (fallback.map left) tail)
      fun i => switchBody (cases.map (Case.map (right i))) (fallback.map (right i)) tail := by
  refine hR.bind (hR.mapM_map fun k hk => hR.switchCase hA (hcases k hk).1 (hcases k hk).2 htail) fun _ => ?_
  cases fallback with
  | none => exact hR.map (hR.pure _)
  | some c =>
    exact hR.putLine_bind <| hR.bind (hR.caseBody hA (hfallback c rfl) htail) fun _ => hR.map (hR.pure _)

/-! ## Exceptions -/

section Exceptions

variable {handlers : List (Handler (Variants ι))} {final fault : Option (Variants ι)}
  (hhandlers : ∀ h ∈ handlers, E.Admits h.test ∧ (∀ v ∈ h.caught, R _ (putVariable v) fun _ => putVariable v) ∧
    (∀ p ∈ h.filter, p.Alike R) ∧ h.body.AlikeUnder R A)
  (hfinal : ∀ p ∈ final, p.AlikeUnder R A)

include hhandlers

protected theorem handlers (htail : A tail) :
    R _ ((handlers.map (Handler.map left)).mapM (handler tail))
      fun i => (handlers.map (Handler.map (right i))).mapM (handler tail) := by
  refine hR.mapM_map fun k hk => ?_
  obtain ⟨hty, hcaught, hfilter, hbody⟩ := hhandlers k hk
  exact hR.handler hA hty hcaught hfilter hbody htail

include hfinal

protected theorem plainTry (h : p.AlikeUnder R A) (ty : Ty) (htail : A tail) :
    R _ (plainTry p.left (handlers.map (Handler.map left)) (final.map left) ty tail)
      fun i => plainTry (p.right i) (handlers.map (Handler.map (right i))) (final.map (right i)) ty tail := by
  have hbody : R _ (tryBody p.left tail none) fun i => tryBody (p.right i) tail none :=
    hR.putLine_bind <| hR.bind (hR.onPage _) fun _ => hR.bind (h.body hR hA htail) fun _ => hR.map (hR.onPage _)
  have hnone : ∀ q ∈ (none : Option (Variants ι)), q.AlikeUnder R A := nofun
  refine hR.bind hbody fun _ => hR.bind (hR.handlers hA hhandlers htail) fun _ => ?_
  exact hR.map (hR.finallyPart hA hfinal hnone "")

/-- A try, when its body is written alike with a flag. -/
protected theorem tryCatch (hassign : ∀ name, A (.assign name)) (h : p.AlikeUnder R A)
    (hflagged : ∀ tail flag, A tail → R _ (flaggedBody p.left tail flag) fun i => flaggedBody (p.right i) tail flag)
    (hfault : ∀ p ∈ fault, p.AlikeUnder R A) (hty : E.Admits ty) (htail : A tail) :
    R _ (tryCatch p.left (handlers.map (Handler.map left)) (final.map left) (fault.map left) ty tail)
      fun i => tryCatch (p.right i) (handlers.map (Handler.map (right i))) (final.map (right i)) (fault.map (right i))
        ty tail := by
  have htail := Tail.atType_mem hA htail ty
  cases fault with
  | none => exact hR.plainTry hA hhandlers hfinal h ty htail
  | some fault =>
    have htry : ∀ tail flag, A tail → R _
        (faultTry p.left (handlers.map (Handler.map left)) (final.map left) fault.left ty tail flag)
        fun i => faultTry (p.right i) (handlers.map (Handler.map (right i))) (final.map (right i)) (fault.right i) ty
          tail flag := fun tail flag htail =>
      have hbody := hR.putLine_bind <| hR.bind (hR.onPage (·.openBrace false)) fun _ =>
        hR.bind (hflagged tail flag htail) fun t => hR.bind (hR.onPage (·.closeBrace)) fun _ => hR.pure t
      hR.putLine_bind <| hR.bind hbody fun _ => hR.bind (hR.handlers hA hhandlers htail) fun _ =>
        hR.map (hR.finallyPart hA hfinal hfault flag)
    refine hR.bind (hR.fresh _) fun flag => ?_
    generalize tail.atType ty = handsOn at htail
    cases handsOn with
    | discard | assign name => exact htry _ flag htail
    | result =>
      exact hR.bind (hR.fresh _) fun _ => hR.bind hR.newline fun _ => hR.bind (hR.putType hty) fun _ =>
        hR.put_bind <| hR.bind (htry _ flag (hassign _)) fun _ => hR.putLine_bind <| hR.pure _

end Exceptions

/-! ## Lambdas -/

section Lambdas

omit hA

variable {sig : Signature} (hty : ∀ ty ∈ sig.types, E.Admits ty)

include hty

protected theorem delegateOf (harrow : R _ (arrow sig p.left) fun i => arrow sig (p.right i)) :
    R _ (delegateOf sig p.left) fun i => delegateOf sig (p.right i) := by
  have hdelegate : E.Admits sig.delegate := by
    rw [Signature.types, List.forall_mem_cons] at hty
    exact .delegate hty.2 hty.1
  exact hR.put_bind <| hR.bind (hR.putType hdelegate) fun _ => hR.put_bind <|
    hR.bind harrow fun _ => hR.put_bind <| hR.pure _

/-- A lambda inside an expression, when it is written alike in place or as a method. -/
protected theorem nestedLambda (hname : R _ (naming (·.nameLambda sig)) fun _ => naming (·.nameLambda sig))
    (harrow : sig.captures p.tree = true → R _ (arrow sig p.left) fun i => arrow sig (p.right i))
    (hpromote : sig.captures p.tree ≠ true → ∀ name, R _ (promote name sig p.left) fun i => promote name sig (p.right i)) :
    R _ (nestedLambda sig p.left) fun i => nestedLambda sig (p.right i) := by
  refine Likeness.ite (fun hc => hR.delegateOf hty (harrow hc)) fun hc => ?_
  refine hR.bind hname fun name => hR.put_bind <| hR.get_bind fun d => ?_
  split
  · exact hR.pure _
  · exact hpromote hc name

end Lambdas

/-! ## Layers -/

omit hA in
protected theorem layer {n : Node (Variants ι)} (hn : n.writesValues = true)
    (herr : ∀ err ∈ n.defect?, E.error err) (hty : ∀ ty ∈ n.types, E.Admits ty) (h : ∀ p ∈ n.children, p.Alike R)
    (tail : Tail) : R _ ((n.map left).rendition.write tail) fun i => (n.map (right i)).rendition.write tail := by
  cases n
  case label target value =>
    simp only [Node.children, Option.mem_toList] at h
    exact hR.finalLabel h (hty _ (List.mem_cons_self ..)) tail
  all_goals exact hR.lined.layer hn (by simp) herr hty h tail

end Likeness.Congruent

end Scribe
