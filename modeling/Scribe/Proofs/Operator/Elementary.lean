import Scribe.Proofs.Meaning.Structured
import Scribe.Proofs.Operator.Grouping

/-!
# Expressions of structured trees

A structured tree that is written as an expression is a pure tree, or a conditional over such trees. Its text
is read back as the tree itself, and has the value that evaluating the tree gives.
-/

namespace Scribe

-- powers are those of the core library, whatever else is imported
attribute [local instance (2000)] instPowNat

open Reading

variable {returns : Bool} {scope : List Label}

/-- The names `μ` have the values in `σ` that their variables have in `ρ`. -/
def Agrees (μ : Ident → String) (vs : List Variable) (ρ : Ident → Datum) (σ : String → Datum) : Prop :=
  ∀ v ∈ vs, σ (μ v.id) = ρ v.id

theorem BinaryOp.sign_of_isElementary {op : BinaryOp} (h : op.isElementary = true) : ∃ s, op.sign? = some s := by
  cases op <;> cases h <;> exact ⟨_, rfl⟩

/-- A number that is not negative is read back. -/
theorem int32_ofNat_toNat {n : Int32} (h : 0 ≤ n) : n.toInt.toNat < 2 ^ (31 : Nat) ∧ Int32.ofNat n.toInt.toNat = n := by
  have hnonneg : 0 ≤ n.toInt := Int32.le_iff_toInt_le.mp h
  have hlt := n.toInt_lt
  constructor
  · omega
  · have hcast : (n.toInt.toNat : Int) = n.toInt := Int.toNat_of_nonneg hnonneg
    rw [← Int32.ofInt_eq_ofNat, hcast]
    exact Int32.ofInt_toInt n

namespace Tree

variable {vs : List Variable} {t : Tree} {μ : Ident → String} {ρ : Ident → Datum} {σ : String → Datum}

/-! ## Pure trees -/

theorem Simple.plain (h : Simple vs t) : t.Plain := by
  cases h with
  | var _ => exact .var _
  | number hn => exact .number _ hn

theorem Pure.plain (h : Pure vs t) : t.Plain := by
  cases h with
  | simple h => exact h.plain
  | operation hop _ hl hr =>
    obtain ⟨s, hs⟩ := BinaryOp.sign_of_isElementary hop
    exact .binary _ hs hl.plain hr.plain

/-- The variables of a pure tree are among `vs`. -/
theorem Pure.vars_subset (h : Pure vs t) : ∀ v ∈ t.vars, v ∈ vs := by
  have hsimple {u : Tree} (hu : Simple vs u) : ∀ v ∈ u.vars, v ∈ vs := by
    intro v hv
    cases hu with
    | var hmem =>
      rw [vars_var, List.mem_singleton] at hv
      rw [hv]
      exact hmem
    | number _ =>
      rw [vars_number] at hv
      cases hv
  cases h with
  | simple h => exact hsimple h
  | operation _ _ hl hr =>
    intro v hv
    rw [vars_binary] at hv
    rcases List.mem_append.mp hv with hv | hv
    · exact hsimple hl v hv
    · exact hsimple hr v hv

theorem Simple.eval (h : Simple vs t) (hρ : Agrees μ vs ρ σ) : (t.reading μ).eval σ = t.value ρ := by
  cases h with
  | var hv => rw [reading_var, value_var, Expr.eval, hρ _ hv]
  | number hn =>
    obtain ⟨hlt, hback⟩ := int32_ofNat_toNat hn
    rw [reading_number, value_int, Expr.eval, if_pos hlt, hback]

/-- An operator in front of a simple tree takes it as its operand. -/
theorem Simple.prepend_eq (h : Simple vs t) (op : InfixOp) (x : Expr) (parent : Kind) (isRight : Bool) :
    Expr.prepend op x (readUnder parent isRight t (t.reading μ)) =
      .infixed op x (readUnder parent isRight t (t.reading μ)) := by
  unfold readUnder
  split
  · rfl
  · cases h with
    | var _ =>
      rw [reading_var]
      rfl
    | number _ =>
      rw [reading_number]
      rfl

/-- The text of a pure tree has the value of the tree. -/
theorem Pure.eval (h : Pure vs t) (hρ : Agrees μ vs ρ σ) : (t.reading μ).eval σ = t.value ρ := by
  cases h with
  | simple h => exact h.eval hρ
  | operation hop _ hl hr =>
    obtain ⟨s, hs⟩ := BinaryOp.sign_of_isElementary hop
    rw [reading_binary μ hs, hr.prepend_eq, Expr.eval, readUnder_eval, readUnder_eval, hl.eval hρ, hr.eval hρ,
      join_of_sign? hs, value_binary]

/-! ## Conditionals over pure trees -/

/-- Pure trees, and conditionals over such trees. -/
inductive Elementary (vs : List Variable) : Tree → Prop where
  | pure {t : Tree} : Pure vs t → Elementary vs t
  | conditional {c a b : Tree} {ty : Ty} : ty.isVoid = false → Pure vs c → Elementary vs a → Elementary vs b →
    Elementary vs (.mk (.conditional c a b ty))

/-- A tree with a result that is written as an expression is elementary. -/
theorem Structured.elementary (h : Structured vs returns scope t) (hreturns : returns = true)
    (hexpr : t.isExpression = true) : t.Elementary vs := by
  induction h with
  | result h => exact .pure h
  | conditional hty hc _ _ iha ihb =>
    subst hreturns
    rw [isExpression_conditional, Bool.and_eq_true, Bool.and_eq_true] at hexpr
    exact .conditional hty hc (iha rfl hexpr.1.2) (ihb rfl hexpr.2)
  | block _ _ _ _ _ =>
    rw [isExpression, fold_mk] at hexpr
    cases hexpr
  | _ => cases hreturns

theorem Elementary.plain (h : Elementary vs t) : t.Plain := by
  induction h with
  | pure h => exact h.plain
  | conditional hty hc _ _ iha ihb => exact .conditional hty hc.plain iha ihb

theorem Elementary.vars_subset (h : Elementary vs t) : ∀ v ∈ t.vars, v ∈ vs := by
  induction h with
  | pure h => exact h.vars_subset
  | conditional _ hc _ _ iha ihb =>
    rw [vars_conditional]
    exact List.forall_mem_append.mpr ⟨hc.vars_subset, List.forall_mem_append.mpr ⟨iha, ihb⟩⟩

/-- **The text of an expression has the value that the tree is evaluated to.** -/
theorem Elementary.eval (h : Elementary vs t) (hρ : Agrees μ vs ρ σ) {n : Nat} {ending : Ending} {ρ' : Ident → Datum}
    (hrun : t.run n ρ = some (ending, ρ')) :
    ∃ d, ending = .value (some d) ∧ ρ' = ρ ∧ (t.reading μ).eval σ = .ok d := by
  induction h generalizing n ending with
  | pure h =>
    obtain ⟨n, rfl⟩ := Tree.exists_succ_of_run hrun
    rw [h.run] at hrun
    rw [h.eval hρ]
    split at hrun
    · next d hd =>
      cases hrun
      exact ⟨d, rfl, rfl, hd⟩
    · cases hrun
  | @conditional c a b ty hty hc _ _ iha ihb =>
    obtain ⟨n, rfl⟩ := Tree.exists_succ_of_run hrun
    rw [run_conditional] at hrun
    split at hrun
    · next x hx =>
      obtain ⟨⟨ending', ρ''⟩, hbranch, heq⟩ := Option.map_eq_some_iff.mp hrun
      cases heq
      rw [reading_conditional, Expr.eval, readUnder_eval, readUnder_eval, readUnder_eval, hc.eval hρ, hx]
      cases x with
      | true =>
        obtain ⟨d, rfl, rfl, hd⟩ := iha hbranch
        refine ⟨d, ?_, rfl, hd⟩
        rw [Ending.atType, hty]
        rfl
      | false =>
        obtain ⟨d, rfl, rfl, hd⟩ := ihb hbranch
        refine ⟨d, ?_, rfl, hd⟩
        rw [Ending.atType, hty]
        rfl
    · cases hrun

end Tree

end Scribe
