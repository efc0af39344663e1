import Scribe.Proofs.Writing.Agree
import Scribe.Proofs.Writing.Step.Tree

/-!
# Statements that are written in two ways

When the pieces of a statement are written in the same way twice, so is the statement. A loop, a switch and a body with
a fault handler change what is around their pieces; there the pieces agree where another assertion holds, which follows
from the first one where they are entered. The same goes for the body of a function.
-/

namespace Scribe

open Writing
open Draft (Steady anywhere Onward)
open Variants (left right)

variable {desk : Desk} {P Q R : Draft → Prop} {A : Tail → Prop} {p : Variants Unit} {ps : List (Variants Unit)}
  {tail : Tail}

variable (hP : Steady desk P) (hA : A .discard)

include hP hA

namespace Writing

/-! ## Blocks and jumps -/

theorem block_agree (vars : List Variable) (h : ∀ p ∈ ps, p.AlikeUnder (Agree.likeness desk P) A) (ty : Ty)
    (htail : A tail) : Agree desk P (block vars (ps.map left) ty tail) (block vars (ps.map (right ())) ty tail) P :=
  (Agree.congruent hP).block hA (fun v _ inPlace => .of_stepwise hP (declare_stepwise v inPlace)) h ty htail

omit hA in
theorem jump_agree (kind : JumpKind) (target : Label) {value : Option (Variants Unit)}
    (h : ∀ p ∈ value, p.Alike (Agree.likeness desk P)) :
    Agree desk P (jump kind target (value.map left)) (jump kind target (value.map (right ()))) P :=
  (Agree.congruent hP).jump kind (.of_inline hP (.of_open fun _ => putJump_open target)) (Allowance.admits_all _) h

/-! ## Loops -/

theorem loop_agree (hQ : Steady desk Q) (h : p.AlikeUnder (Agree.likeness desk Q) A) (hsteps : p.left.Steps desk)
    (exit again : Option Label) (henter : ∀ d, P d → Q (d.enter (.loop exit again false false))) (tail : Tail) :
    Agree desk P (loop p.left exit again tail) (loop (p.right ()) exit again tail) P := by
  refine .ends (Q := anywhere) ?_ ((loop_stepwise hsteps exit again tail).takes hP.stable)
  have hupper : Agree desk Q (upperLoop p.left exit) (upperLoop (p.right ()) exit) Q :=
    (Agree.congruent hQ).upperLoop hA h exit
  have hscope : Takes desk P (enterLoop exit again (tail.atType (exitTy exit))) Q := by
    have henter : Takes desk P (enterScope (.loop exit again false false)) Q := by
      intro d _ e hd hrun
      cases hrun
      exact henter d hd
    cases exit with
    | none => exact henter
    | some target => exact .bind ((addTaker_inline target _).stepwise.takes hP.stable) fun _ => henter
  rw [loop_parts, loop_parts, h.isSome_tested?]
  exact .bind (.refl hscope) fun _ => .bind hupper fun _ => .rest _

/-! ## Switches -/

theorem switch_agree (hQ : Steady desk Q) (henter : ∀ d, P d → Q (d.enter .switch)) (hp : p.left.Steps desk)
    (hv : p.Alike (Agree.likeness desk P)) {cases : List (Case (Variants Unit))}
    (hcs : ∀ c ∈ cases, (∀ p ∈ c.tests, p.left.Steps desk) ∧ c.body.left.Steps desk)
    (hc : ∀ c ∈ cases, (∀ p ∈ c.tests, p.Alike (Agree.likeness desk Q)) ∧ c.body.AlikeUnder (Agree.likeness desk Q) A)
    {fallback : Option (Variants Unit)} (hfs : ∀ p ∈ fallback, p.left.Steps desk)
    (hf : ∀ p ∈ fallback, p.AlikeUnder (Agree.likeness desk Q) A) (ty : Ty) (htail : A tail) :
    Agree desk P (switch p.left (cases.map (Case.map left)) (fallback.map left) ty tail)
      (switch (p.right ()) (cases.map (Case.map (right ()))) (fallback.map (right ())) ty tail) P := by
  have hscope : Takes desk P (enterScope .switch) Q := by
    intro d _ e hd hrun
    cases hrun
    exact henter d hd
  have hcases : ∀ c ∈ cases.map (Case.map left), (∀ p ∈ c.tests, p.Steps desk) ∧ c.body.Steps desk := by
    simp only [List.forall_mem_map, Case.map]
    exact hcs
  have hbody : Agree desk Q (switchBody (cases.map (Case.map left)) (fallback.map left) (tail.atType ty))
      (switchBody (cases.map (Case.map (right ()))) (fallback.map (right ())) (tail.atType ty)) Q :=
    (Agree.congruent hQ).switchBody hA hc hf (Tail.atType_mem hA htail ty)
  refine .ends (Q := anywhere) ?_ ((switch_stepwise hp hcases (Option.forall_mem_map.mpr hfs) ty tail).takes hP.stable)
  rw [switch_eq, switch_eq]
  exact .bind (.onPage hP _) fun _ => .bind hv.value fun _ => .bind (.onPage hP _) fun _ =>
    .bind (.onPage hP _) fun _ => .bind (.bind (.refl hscope) fun _ => .bind hbody fun _ => .rest _) fun _ => .rest _

/-! ## Exceptions -/

section Exceptions

variable {handlers : List (Handler (Variants Unit))} {final : Option (Variants Unit)}
  (hh : ∀ h ∈ handlers, (∀ p ∈ h.filter, p.Alike (Agree.likeness desk P)) ∧
    h.body.AlikeUnder (Agree.likeness desk P) A)
  (hf : ∀ p ∈ final, p.AlikeUnder (Agree.likeness desk P) A)

omit hP in
/-- A body with a fault handler, where `Q` holds once its flag is set. -/
theorem flaggedBody_agree (hR : Steady desk R) (hQ : Steady desk Q) (hsteps : p.left.Steps desk)
    (h : p.AlikeUnder (Agree.likeness desk Q) A) {flag : String} (hguard : ∀ d, R d → Q (d.guard ⟨flag, p.tree.labels⟩))
    (htail : A tail) : Agree desk R (flaggedBody p.left tail flag) (flaggedBody (p.right ()) tail flag) R := by
  have hset : Takes desk R (onFlow fun flow => { flow with faults := ⟨flag, p.tree.labels⟩ :: flow.faults }) Q := by
    intro d _ e hd hrun
    cases hrun
    exact hguard d hd
  refine .ends (Q := anywhere) ?_ ((flaggedBody_stepwise hsteps tail flag).takes hR.stable)
  exact .bind (.refl hset) fun _ => .bind (h.body (Agree.congruent hQ) hA htail) fun _ => .rest _

include hh

omit hA in
theorem handlers_alike : ∀ h ∈ handlers, Allowance.all.Admits h.test ∧
    (∀ v ∈ h.caught, Agree.likeness desk P _ (putVariable v) fun _ => putVariable v) ∧
    (∀ p ∈ h.filter, p.Alike (Agree.likeness desk P)) ∧ h.body.AlikeUnder (Agree.likeness desk P) A :=
  fun h hmem => ⟨Allowance.admits_all _, fun v _ => .of_inline hP (putVariable_inline v), hh h hmem⟩

include hf

theorem plainTry_agree (h : p.AlikeUnder (Agree.likeness desk P) A) (ty : Ty) (htail : A tail) :
    Agree desk P (plainTry p.left (handlers.map (Handler.map left)) (final.map left) ty tail)
      (plainTry (p.right ()) (handlers.map (Handler.map (right ()))) (final.map (right ())) ty tail) P :=
  (Agree.congruent hP).plainTry hA (handlers_alike hP hh) hf h ty htail

/-- A try with a fault handler, where the flag has been named. -/
theorem faultTry_agree {fault : Variants Unit} (hu : fault.AlikeUnder (Agree.likeness desk P) A) (hR : Steady desk R)
    (hRP : ∀ d, R d → P d) (hQ : Steady desk Q) (hsteps : p.left.Steps desk)
    (h : p.AlikeUnder (Agree.likeness desk Q) A) {flag : String}
    (hguard : ∀ d, R d → Q (d.guard ⟨flag, p.tree.labels⟩)) (ty : Ty) (htail : A tail) :
    Agree desk R (faultTry p.left (handlers.map (Handler.map left)) (final.map left) fault.left ty tail flag)
      (faultTry (p.right ()) (handlers.map (Handler.map (right ()))) (final.map (right ())) (fault.right ()) ty tail flag)
      P := by
  have hbody : Agree desk R (tryBody p.left tail (some flag)) (tryBody (p.right ()) tail (some flag)) R :=
    .bind (.onPage hR _) fun _ => .bind (.onPage hR _) fun _ =>
      .bind (flaggedBody_agree hA hR hQ hsteps h hguard htail) fun _ => .bind (.onPage hR _) fun _ => .pure _
  have hfault : ∀ q ∈ some fault, q.AlikeUnder (Agree.likeness desk P) A := by
    rintro q ⟨⟩
    exact hu
  have hhandlers : Agree desk P ((handlers.map (Handler.map left)).mapM (handler tail))
      ((handlers.map (Handler.map (right ()))).mapM (handler tail)) P :=
    (Agree.congruent hP).handlers hA (handlers_alike hP hh) htail
  refine .bind (.onPage hR _) fun _ => .bind hbody fun _ => .bind (hhandlers.mono hRP) fun _ => ?_
  exact .bind ((Agree.congruent hP).finallyPart hA hf hfault flag) fun _ => .pure _

/-- A try with a fault handler, from a draft where `P` holds. Its body may be written in a way that depends on the name
of the flag, and its value is never returned from inside. -/
theorem tryCatch_same {fault : Variants Unit} (hu : fault.AlikeUnder (Agree.likeness desk P) A)
    (hkept : ∀ tail, tail ≠ .result → A tail) (hQ : Steady desk Q) (hsteps : p.left.Steps desk)
    (h : p.AlikeUnder (Agree.likeness desk Q) A) {d : Draft} (hd : P d)
    (hguard : ∀ e, Onward desk { d with naming := (d.naming.fresh "fault").2 } e →
      Q (e.guard ⟨(d.naming.fresh "fault").1, p.tree.labels⟩)) (ty : Ty) (tail : Tail) :
    tryCatch (p.right ()) (handlers.map (Handler.map (right ()))) (final.map (right ())) (some (fault.right ())) ty tail
        desk d =
      tryCatch p.left (handlers.map (Handler.map left)) (final.map left) (some fault.left) ty tail desk d := by
  let d' : Draft := { d with naming := (d.naming.fresh "fault").2 }
  have hR := Draft.steady_onward desk d'
  have hd' : P d' := hP.stable d d' hd (.fresh d "fault")
  have htry : ∀ {tail}, A tail → Agree desk (Onward desk d')
      (faultTry p.left (handlers.map (Handler.map left)) (final.map left) fault.left ty tail (d.naming.fresh "fault").1)
      (faultTry (p.right ()) (handlers.map (Handler.map (right ()))) (final.map (right ())) (fault.right ()) ty tail
        (d.naming.fresh "fault").1) P :=
    faultTry_agree hP hA hh hf hu hR (fun e he => he P hP hd') hQ hsteps h hguard ty
  dsimp only [tryCatch]
  rw [bind_apply, bind_apply]
  refine Agree.same (P := Onward desk d') (Q := anywhere) ?_ d' (.refl desk d')
  generalize tail.atType ty = handsOn
  cases handsOn with
  | result =>
    refine .bind (.of_inline hR (fresh_inline "result")) fun kept => .bind (.onPage hR _) fun _ => ?_
    refine .bind (.of_inline hR (putType_inline ty)) fun _ => .bind (.onPage hR _) fun _ => ?_
    exact .bind (htry (hkept _ nofun)) fun _ => .rest _
  | discard => exact (htry (hkept .discard nofun)).ends fun _ _ _ _ _ => trivial
  | assign name => exact (htry (hkept (.assign name) nofun)).ends fun _ _ _ _ _ => trivial

end Exceptions

/-! ## Functions -/

section Functions

omit hA

/-- A closure is written where nothing of the flow around it counts. -/
theorem closure_agree (henter : ∀ d, P d → Q { d with flow := {} }) (hsteps : p.left.Steps desk)
    (h : p.AlikeUnder (Agree.likeness desk Q) A) (htail : A (Tail.atType .result p.tree.ty)) :
    Agree desk P p.left.closure (p.right ()).closure P :=
  (Agree.congruent hP).closure (Allowance.admits_all _) (inFunction_agree hP (hsteps.write _) henter (h.write _ htail))

variable {sig : Signature}

theorem method_agree (hA : A .discard) (h : p.AlikeUnder (Agree.likeness desk P) A)
    (htail : A (Tail.atType .result sig.result)) (id : Ident) (access name : String) :
    Agree desk P (method id access name sig p.left) (method id access name sig (p.right ())) P :=
  have hR := Agree.congruent hP
  hR.method (fun v _ => .of_inline hP (putVariable_inline v)) (fun _ _ => Allowance.admits_all _)
    (h.bracedBody hR hA htail) id access name

/-- The body of a lambda in place is written as an operand, or as the body of another function. -/
theorem arrow_agree (hA : A .discard) (hQ : Steady desk Q) (henter : ∀ d, P d → Q { d with flow := {} })
    (hsteps : p.left.Steps desk) (hvalue : p.tree.isExpression = true → p.Alike (Agree.likeness desk P))
    (hbody : p.tree.isExpression ≠ true → p.AlikeUnder (Agree.likeness desk Q) A)
    (htail : A (Tail.atType .result sig.result)) : Agree desk P (arrow sig p.left) (arrow sig (p.right ())) P :=
  (Agree.congruent hP).arrow (fun v _ => .of_inline hP (putVariable_inline v)) hvalue fun he =>
    inFunction_agree hP (Piece.body_stepwise hsteps _) henter ((hbody he).body (Agree.congruent hQ) hA htail)

theorem promote_agree (hA : A .discard) (hQ : Steady desk Q)
    (henter : ∀ d, P d → Q { d.onMethodPage desk with flow := {} }) (hsteps : p.left.Steps desk)
    (h : p.AlikeUnder (Agree.likeness desk Q) A) (htail : A (Tail.atType .result sig.result)) (name : String) :
    Agree desk P (promote name sig p.left) (promote name sig (p.right ())) P where
  same d hd := by
    have hmethod : Agree desk Q (do newline; method (.promoted sig.id) "private " name sig p.left)
        (do newline; method (.promoted sig.id) "private " name sig (p.right ())) Q :=
      .bind (.onPage hQ _) fun _ => method_agree hQ hA h htail _ _ _
    have hstart : ∀ e, e = d.onMethodPage desk → Q { e with flow := {} } := by
      rintro e rfl
      exact henter d hd
    rw [promote_apply, promote_apply, (inFunction_same hstart hmethod).same _ rfl]
  takes := (promote_inline name sig hsteps).stepwise.takes hP.stable

theorem nestedLambda_agree (hA : A .discard) (hQ : Steady desk Q) (henter : ∀ d, P d → Q { d with flow := {} })
    (hmethod : ∀ d, P d → Q { d.onMethodPage desk with flow := {} }) (hsteps : p.left.Steps desk)
    (hvalue : sig.captures p.tree = true → p.tree.isExpression = true → p.Alike (Agree.likeness desk P))
    (hbody : ¬(sig.captures p.tree = true ∧ p.tree.isExpression = true) → p.AlikeUnder (Agree.likeness desk Q) A)
    (htail : A (Tail.atType .result sig.result)) :
    Agree desk P (nestedLambda sig p.left) (nestedLambda sig (p.right ())) P := by
  refine (Agree.congruent hP).nestedLambda (fun _ _ => Allowance.admits_all _) (.of_inline hP (nameLambda_inline sig))
    (fun hc => ?_) fun hc => ?_
  · exact arrow_agree hP hA hQ henter hsteps (hvalue hc) (fun he => hbody fun h => he h.2) htail
  · exact promote_agree hP hA hQ hmethod hsteps (hbody fun h => hc h.1) htail

end Functions

end Writing

end Scribe
