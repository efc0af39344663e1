import Mathlib.Logic.Function.Basic
import Scribe.Build
import Scribe.Proofs.Meaning.Expression

/-!
# Evaluating trees with jumps

How a tree of assignments, blocks, conditionals, loops and jumps is evaluated. A jump ends the evaluation
of everything around it up to the loop that owns its label: a jump to the label behind the loop leaves the
loop, and one to the label in front of the next round goes on with that round.

`Tree.run` takes fuel, as a loop need not end. Trees that are none of these, and operators that get operands
without a meaning, have no evaluation.

`Tree.Structured` says which trees are built from these parts alone, so that jumps lead to loops around
them, and a value is there exactly where it is handed on.
-/

namespace Scribe

/-- How the evaluation of a tree ends: with a value, without one, or with a jump. -/
inductive Ending where
  | value (d : Option Datum)
  | jump (target : Ident)
deriving DecidableEq, Repr

/-- The ending of a construct of type `ty`: one of type `void` has no value. -/
def Ending.atType (ty : Ty) : Ending → Ending
  | .value d => .value (if ty.isVoid then none else d)
  | .jump target => .jump target

/-! ## Evaluation -/

mutual

/-- Evaluates a tree: how it ends, and the values that the variables have then. -/
def Tree.run : Nat → Tree → (Ident → Datum) → Option (Ending × (Ident → Datum))
  | 0, _, _ => none
  | n + 1, t, ρ =>
    match t.node with
    | .defaultOf .void => some (.value none, ρ)
    | .binary .assign left right _ =>
      match left.node, right.value ρ with
      | .var v, .ok d => some (.value (some d), Function.update ρ v.id d)
      | _, _ => none
    | .block [] ts ty => (runAll n ts ρ).map fun (ending, ρ) => (ending.atType ty, ρ)
    | .conditional test ifTrue ifFalse ty =>
      match test.value ρ with
      | .ok (.bool b) =>
        (run n (if b then ifTrue else ifFalse) ρ).map fun (ending, ρ) => (ending.atType ty, ρ)
      | _ => none
    | .loop body exit again =>
      match run n body ρ with
      | some (.value _, ρ) => run n t ρ
      | some (.jump target, ρ) =>
        if exit.map (·.id) = some target then some (.value none, ρ)
        else if again.map (·.id) = some target then run n t ρ
        else some (.jump target, ρ)
      | none => none
    | .jump _ target none _ => some (.jump target.id, ρ)
    | _ =>
      match t.value ρ with
      | .ok d => some (.value (some d), ρ)
      | .error _ => none

/-- Evaluates trees one after the other; the last one gives the value. -/
def Tree.runAll : Nat → List Tree → (Ident → Datum) → Option (Ending × (Ident → Datum))
  | 0, _, _ => none
  | _ + 1, [], ρ => some (.value none, ρ)
  | n + 1, t :: ts, ρ =>
    match run n t ρ with
    | some (.value d, ρ) => if ts.isEmpty then some (.value d, ρ) else runAll n ts ρ
    | ending => ending

end

/-! ### One layer at a time -/

section Equations

variable (n : Nat) (ρ : Ident → Datum)

namespace Tree

theorem run_skip : (Tree.mk (.defaultOf .void)).run (n + 1) ρ = some (.value none, ρ) := by
  rw [run]
  rfl

theorem run_assign (v : Variable) (e : Tree) (ty : Ty) :
    (Tree.mk (.binary .assign (.mk (.var v)) e ty)).run (n + 1) ρ =
      match e.value ρ with
      | .ok d => some (.value (some d), Function.update ρ v.id d)
      | .error _ => none := by
  rw [run]
  cases h : e.value ρ with
  | ok d | error err =>
    simp only [node, h]

theorem run_block (ts : List Tree) (ty : Ty) :
    (Tree.mk (.block [] ts ty)).run (n + 1) ρ =
      (runAll n ts ρ).map fun (ending, ρ) => (ending.atType ty, ρ) := by
  rw [run]
  rfl

theorem run_conditional (c a b : Tree) (ty : Ty) :
    (Tree.mk (.conditional c a b ty)).run (n + 1) ρ =
      match c.value ρ with
      | .ok (.bool x) => (run n (if x then a else b) ρ).map fun (ending, ρ) => (ending.atType ty, ρ)
      | _ => none := by
  rw [run]
  rfl

theorem run_loop (body : Tree) (exit again : Option Label) :
    (Tree.mk (.loop body exit again)).run (n + 1) ρ =
      match body.run n ρ with
      | some (.value _, ρ) => (Tree.mk (.loop body exit again)).run n ρ
      | some (.jump target, ρ) =>
        if exit.map (·.id) = some target then some (.value none, ρ)
        else if again.map (·.id) = some target then (Tree.mk (.loop body exit again)).run n ρ
        else some (.jump target, ρ)
      | none => none := by
  rw [run]
  rfl

theorem run_jump (kind : JumpKind) (target : Label) (ty : Ty) :
    (Tree.mk (.jump kind target none ty)).run (n + 1) ρ = some (.jump target.id, ρ) := by
  rw [run]
  rfl

theorem runAll_cons (t : Tree) (ts : List Tree) :
    runAll (n + 1) (t :: ts) ρ =
      match t.run n ρ with
      | some (.value d, ρ) => if ts.isEmpty then some (.value d, ρ) else runAll n ts ρ
      | ending => ending := by
  rw [runAll]

variable {n ρ}

theorem exists_succ_of_run {t : Tree} {r : Ending × (Ident → Datum)} (h : t.run n ρ = some r) : ∃ m, n = m + 1 := by
  cases n with
  | zero =>
    rw [Tree.run] at h
    cases h
  | succ m => exact ⟨m, rfl⟩

theorem exists_succ_of_runAll {ts : List Tree} {r : Ending × (Ident → Datum)} (h : runAll n ts ρ = some r) :
    ∃ m, n = m + 1 := by
  cases n with
  | zero =>
    rw [Tree.runAll] at h
    cases h
  | succ m => exact ⟨m, rfl⟩

end Tree

end Equations

/-- Evaluates a lambda on arguments: the values that its parameters have in the end, and its result. -/
def Lambda.call (l : Lambda) (n : Nat) (args : List Datum) : Option (List Datum × Option Datum) :=
  let ids := l.sig.params.map (·.id)
  match l.body.run n (bindArgs ids args) with
  | some (.value d, ρ) => some (ids.map ρ, if l.sig.result.isVoid then none else d)
  | _ => none

/-! ## Structured trees -/

/-- Whether the operation is a comparison, an addition or a subtraction. -/
def BinaryOp.isElementary (op : BinaryOp) : Bool := op.isComparison || op == .add || op == .subtract

namespace Tree

/-- Variables of `vs`, and numbers that are not negative. -/
inductive Simple (vs : List Variable) : Tree → Prop where
  | var {v : Variable} : v ∈ vs → Simple vs (.mk (.var v))
  | number {n : Int32} : 0 ≤ n → Simple vs (.mk (.constant (.int n) .int))

/-- Simple trees, and one operation on two of them. -/
inductive Pure (vs : List Variable) : Tree → Prop where
  | simple {t : Tree} : Simple vs t → Pure vs t
  | operation {op : BinaryOp} {l r : Tree} {ty : Ty} :
      op.isElementary = true → ty.isVoid = false → Simple vs l → Simple vs r →
      Pure vs (.mk (.binary op l r ty))

theorem Pure.run {vs : List Variable} {t : Tree} (h : Pure vs t) (n : Nat) (ρ : Ident → Datum) :
    t.run (n + 1) ρ =
      match t.value ρ with
      | .ok d => some (.value (some d), ρ)
      | .error _ => none := by
  cases h with
  | simple h =>
    cases h <;> (rw [Tree.run]; rfl)
  | @operation op l r ty hop _ _ _ =>
    rw [Tree.run]
    cases op <;> cases hop <;> rfl

/-- Trees of assignments to the variables `vs`, blocks, conditionals, loops and jumps to the labels in
`scope`. `returns` says whether the tree stands where its value is the result. -/
inductive Structured (vs : List Variable) : Bool → List Label → Tree → Prop where
  | skip {scope : List Label} : Structured vs false scope (.mk (.defaultOf .void))
  | assign {scope : List Label} {v : Variable} {e : Tree} {ty : Ty} :
      v ∈ vs → Pure vs e → Structured vs false scope (.mk (.binary .assign (.mk (.var v)) e ty))
  | jump {scope : List Label} {kind : JumpKind} {target : Label} {ty : Ty} :
      kind ≠ .returnTo → target ∈ scope → Structured vs false scope (.mk (.jump kind target none ty))
  | loop {scope : List Label} {body : Tree} {exit again : Option Label} :
      (∀ l ∈ exit.toList ++ again.toList, l.name = none ∧ l.ty = .void) →
      Structured vs false (exit.toList ++ again.toList ++ scope) body →
      Structured vs false scope (.mk (.loop body exit again))
  | result {scope : List Label} {t : Tree} : Pure vs t → Structured vs true scope t
  | conditional {returns : Bool} {scope : List Label} {c a b : Tree} {ty : Ty} :
      ty.isVoid = !returns → Pure vs c → Structured vs returns scope a → Structured vs returns scope b →
      Structured vs returns scope (.mk (.conditional c a b ty))
  | empty {scope : List Label} {ty : Ty} : Structured vs false scope (.mk (.block [] [] ty))
  | block {returns : Bool} {scope : List Label} {ts : List Tree} {t : Tree} {ty : Ty} :
      (returns = true → ty.isVoid = false) → (∀ s ∈ ts, Structured vs false scope s) →
      Structured vs returns scope t → Structured vs returns scope (.mk (.block [] (ts ++ [t]) ty))

end Tree

end Scribe
