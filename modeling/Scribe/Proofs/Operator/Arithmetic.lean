import Scribe.Proofs.Meaning.Expression
import Scribe.Proofs.Operator.Grouping
import Scribe.Proofs.Script.Text

/-!
# The value of arithmetic

Trees of operations on whole numbers are written so that their text has the value of the tree, with one
exception: a product whose right operand is a quotient or a remainder. A product does not group a right
operand of its own level, so `a * (b / c)` becomes `a * b / c`.

A right operand that is not grouped is read as a chain. The value of the chain is that of the operand as
long as the operator associates with every operator of the chain, which is `InfixOp.associates`. Sums and
the bitwise operations always do; a product does when all operators of the chain are products.
-/

namespace Scribe

open Reading

/-! ## Results of arithmetic -/

/-- The result is a number, or the fault of a division by zero. -/
def Result.Integral (x : Result) : Prop := (∃ n, x = .ok (.int n)) ∨ x = .error .divisionByZero

namespace Reading

/-- Whether the sign is an operation on whole numbers. -/
def InfixOp.isArithmetic : InfixOp → Bool
  | .plus | .minus | .times | .over | .remainder | .shiftLeft | .shiftRight | .and | .or | .xor => true
  | _ => false

/-- Whether `x op (y op' z)` is `(x op y) op' z`. -/
def InfixOp.associates : InfixOp → InfixOp → Bool
  | .plus, .plus | .plus, .minus | .times, .times | .and, .and | .or, .or | .xor, .xor => true
  | _, _ => false

theorem InfixOp.join_eq {op : InfixOp} (hop : op.isArithmetic = true) (x y : Result) :
    op.join x y = Result.combine op.apply x y := by
  cases op <;> cases hop <;> rfl

theorem InfixOp.apply_integral {op : InfixOp} (hop : op.isArithmetic = true) (a b : Int32) :
    (op.apply (.int a) (.int b)).Integral := by
  have hdivide (n : Int32) : (if b = 0 then .error .divisionByZero else .ok (.int n) : Result).Integral := by
    split
    · exact Or.inr rfl
    · exact Or.inl ⟨n, rfl⟩
  cases op <;> cases hop <;>
    first
    | exact Or.inl ⟨_, rfl⟩
    | exact hdivide (a / b)
    | exact hdivide (a % b)

/-- Operations on numbers give numbers, or divide by zero. -/
theorem InfixOp.join_integral {op : InfixOp} (hop : op.isArithmetic = true) {x y : Result}
    (hx : x.Integral) (hy : y.Integral) : (op.join x y).Integral := by
  rw [join_eq hop]
  rcases hx with ⟨a, rfl⟩ | rfl
  · rcases hy with ⟨b, rfl⟩ | rfl
    · exact op.apply_integral hop a b
    · exact Or.inr rfl
  · exact Or.inr rfl

theorem InfixOp.apply_apply {op op' : InfixOp} (h : op.associates op' = true) (a b c : Int32) :
    (op.apply (.int a) (.int b) >>= fun d => op'.apply d (.int c)) =
      (op'.apply (.int b) (.int c) >>= fun d => op.apply (.int a) d) := by
  have hok {m n : Int32} (heq : m = n) : (Except.ok (.int m) : Result) = .ok (.int n) := by rw [heq]
  unfold associates at h
  split at h
  · exact hok (Int32.add_assoc a b c)
  · refine hok ?_
    rw [Int32.sub_eq_add_neg, Int32.sub_eq_add_neg, Int32.add_assoc]
  · exact hok (Int32.mul_assoc a b c)
  · exact hok (Int32.and_assoc a b c)
  · exact hok (Int32.or_assoc a b c)
  · exact hok (Int32.xor_assoc a b c)
  · cases h

theorem InfixOp.isArithmetic_of_associates {op op' : InfixOp} (h : op.associates op' = true) :
    op.isArithmetic = true ∧ op'.isArithmetic = true := by
  unfold associates at h
  split at h <;> first | exact ⟨rfl, rfl⟩ | cases h

/-- **Operators that associate may be regrouped.** -/
theorem InfixOp.join_join {op op' : InfixOp} (h : op.associates op' = true) {x y z : Result} (hx : x.Integral)
    (hy : y.Integral) (hz : z.Integral) : op'.join (op.join x y) z = op.join x (op'.join y z) := by
  obtain ⟨hop, hop'⟩ := isArithmetic_of_associates h
  rw [join_eq hop, join_eq hop', join_eq hop', join_eq hop]
  rcases hx with ⟨a, rfl⟩ | rfl
  · rcases hy with ⟨b, rfl⟩ | rfl
    · rcases hz with ⟨c, rfl⟩ | rfl
      · exact apply_apply h a b c
      · -- The last operand divides by zero, and the first operator gives a number.
        have htotal : ∃ n, op.apply (.int a) (.int b) = .ok (.int n) := by
          unfold associates at h
          split at h <;> first | exact ⟨_, rfl⟩ | cases h
        obtain ⟨n, hn⟩ := htotal
        show (op.apply (.int a) (.int b) >>= fun d => .error .divisionByZero) = _
        rw [hn]
        rfl
    · rfl
  · rfl

/-! ## Arithmetic that is read -/

/-- Whether the expression is made of names and operations on whole numbers. -/
def Expr.isArithmetic : Expr → Bool
  | .name _ => true
  | .grouped e => e.isArithmetic
  | .prefixed .minus e | .prefixed .complement e => e.isArithmetic
  | .infixed op l r => op.isArithmetic && l.isArithmetic && r.isArithmetic
  | _ => false

/-- Numbers as the values of names. -/
def numbers (σ : String → Int32) (s : String) : Datum := .int (σ s)

theorem Expr.eval_integral (σ : String → Int32) {e : Expr} (h : e.isArithmetic = true) :
    (e.eval (numbers σ)).Integral := by
  induction e with
  | name s => exact Or.inl ⟨σ s, rfl⟩
  | grouped e ih => exact ih h
  | prefixed op e ih =>
    cases op
    case minus =>
      rcases ih h with ⟨n, hn⟩ | hn
      · exact Or.inl ⟨-n, by rw [eval, hn]; rfl⟩
      · exact Or.inr (by rw [eval, hn]; rfl)
    case complement =>
      rcases ih h with ⟨n, hn⟩ | hn
      · exact Or.inl ⟨~~~n, by rw [eval, hn]; rfl⟩
      · exact Or.inr (by rw [eval, hn]; rfl)
    all_goals cases h
  | infixed op l r ihl ihr =>
    simp only [isArithmetic, Bool.and_eq_true] at h
    exact op.join_integral h.1.1 (ihl h.1.2) (ihr h.2)
  | _ => cases h

/-- The operators of the chain that an expression of level `k` is, from left to right. -/
def Expr.chain (k : Nat) : Expr → List InfixOp
  | .infixed op l _ => if op.level = k then l.chain k ++ [op] else []
  | _ => []

theorem Expr.level_of_mem_chain {k : Nat} {e : Expr} {op : InfixOp} (h : op ∈ e.chain k) : op.level = k := by
  induction e with
  | infixed op' l r ihl _ =>
    rw [chain] at h
    split at h
    · next hlevel =>
      rcases List.mem_append.mp h with h | h
      · exact ihl h
      · rw [List.mem_singleton.mp h]
        exact hlevel
    · cases h
  | _ => cases h

/-- What is put in front of a chain is part of the chain. -/
theorem Expr.chain_prepend (op : InfixOp) (x e : Expr) :
    (Expr.prepend op x e).chain op.level = x.chain op.level ++ op :: e.chain op.level := by
  induction e with
  | infixed op' l r ihl _ =>
    rw [prepend]
    split
    · next hlevel => rw [chain, if_pos hlevel, ihl, chain, if_pos hlevel, List.append_assoc]; rfl
    · next hlevel => rw [chain, if_pos rfl, chain, if_neg hlevel]
  | _ => simp [prepend, chain]

theorem Expr.chain_prepend_of_ne {k : Nat} {op : InfixOp} (h : op.level ≠ k) (x e : Expr) :
    (Expr.prepend op x e).chain k = [] := by
  cases e with
  | infixed op' l r =>
    rw [prepend]
    split
    · next hlevel => rw [chain, if_neg (hlevel ▸ h)]
    · rw [chain, if_neg h]
  | _ => exact if_neg h

theorem Expr.isArithmetic_prepend {op : InfixOp} {x e : Expr} (hop : op.isArithmetic = true)
    (hx : x.isArithmetic = true) (he : e.isArithmetic = true) : (Expr.prepend op x e).isArithmetic = true := by
  have hnode : (Expr.infixed op x e).isArithmetic = true := by
    simp only [isArithmetic, hop, hx, he, Bool.and_self]
  induction e with
  | infixed op' l r ihl _ =>
    rw [prepend]
    split
    · simp only [isArithmetic, Bool.and_eq_true] at he
      have hleft := ihl he.1.2 (by simp only [isArithmetic, hop, hx, he, Bool.and_self])
      simp only [isArithmetic, he, hleft, Bool.and_self]
    · exact hnode
  | _ => exact hnode

/-- **Putting an operator in front of a chain it associates with keeps the value.** -/
theorem Expr.eval_prepend (σ : String → Int32) {op : InfixOp} {x e : Expr} (hx : x.isArithmetic = true)
    (he : e.isArithmetic = true) (hchain : ∀ op' ∈ e.chain op.level, op.associates op' = true) :
    (Expr.prepend op x e).eval (numbers σ) = op.join (x.eval (numbers σ)) (e.eval (numbers σ)) := by
  induction e with
  | infixed op' l r ihl _ =>
    have hparts := he
    simp only [isArithmetic, Bool.and_eq_true] at hparts
    rw [prepend]
    split
    · next hlevel =>
      rw [chain, if_pos hlevel] at hchain
      have hleft := ihl hparts.1.2 fun op'' h => hchain op'' (List.mem_append_left _ h)
      have hop := hchain op' (List.mem_append_right _ List.mem_cons_self)
      rw [eval, hleft]
      exact InfixOp.join_join hop (eval_integral σ hx) (eval_integral σ hparts.1.2) (eval_integral σ hparts.2)
    · rfl
  | _ => rfl

end Reading

/-! ## Arithmetic trees -/

/-- Whether the operation is one on two whole numbers. -/
def BinaryOp.isArithmetic : BinaryOp → Bool
  | .add | .subtract | .multiply | .divide | .modulo | .leftShift | .rightShift | .and | .or
  | .exclusiveOr => true
  | _ => false

/-- Whether the operation is one on a whole number. -/
def UnaryOp.isArithmetic : UnaryOp → Bool
  | .negate | .onesComplement => true
  | _ => false

/-- Trees of operations on variables for whole numbers. -/
inductive Tree.Arithmetic : Tree → Prop where
  | var {v : Variable} : v.ty = .int → Arithmetic (.mk (.var v))
  | binary {op : BinaryOp} {l r : Tree} (ty : Ty) :
      op.isArithmetic = true → Arithmetic l → Arithmetic r → Arithmetic (.mk (.binary op l r ty))
  | unary {op : UnaryOp} {e : Tree} (ty : Ty) :
      op.isArithmetic = true → Arithmetic e → Arithmetic (.mk (.unary op (some e) ty))

theorem BinaryOp.sign_of_isArithmetic {op : BinaryOp} (h : op.isArithmetic = true) :
    ∃ s, op.sign? = some s ∧ s.isArithmetic = true := by
  cases op <;> cases h <;> exact ⟨_, rfl, rfl⟩

theorem UnaryOp.sign_of_isArithmetic {op : UnaryOp} (h : op.isArithmetic = true) (integral : Bool) :
    ∃ s, op.sign? integral = some s ∧ s.apply = op.apply ∧
      ∀ e : Expr, e.isArithmetic = true → (Expr.prefixed s e).isArithmetic = true := by
  cases op <;> cases h
  case negate => exact ⟨.minus, rfl, by funext a; cases a <;> rfl, fun _ he => he⟩
  case onesComplement => exact ⟨.complement, rfl, by funext a; cases a <;> rfl, fun _ he => he⟩

theorem Tree.Arithmetic.plain {t : Tree} (h : t.Arithmetic) : t.Plain := by
  induction h with
  | var _ => exact .var _
  | binary ty hop _ _ ihl ihr =>
    obtain ⟨s, hs, -⟩ := BinaryOp.sign_of_isArithmetic hop
    exact .binary ty hs ihl ihr
  | unary ty hop _ ih =>
    obtain ⟨s, hs, -⟩ := UnaryOp.sign_of_isArithmetic hop _
    exact .unary ty hs ih

namespace Tree

/-- Whether the tree is a product that starts with a quotient or a remainder, or is one itself. -/
def leadsWithQuotient (t : Tree) : Bool :=
  t.fold fun
    | .binary .divide _ _ _ | .binary .modulo _ _ _ => true
    | .binary .multiply l _ _ => l.2
    | _ => false

/-- Whether the right operand of some product leads with a quotient or a remainder. -/
def multipliesQuotient (t : Tree) : Bool :=
  t.fold fun n =>
    n.children.any (·.2) ||
      match n with
      | .binary .multiply _ r _ => r.1.leadsWithQuotient
      | _ => false

theorem leadsWithQuotient_binary (op : BinaryOp) (l r : Tree) (ty : Ty) :
    (Tree.mk (.binary op l r ty)).leadsWithQuotient =
      match op with
      | .divide | .modulo => true
      | .multiply => l.leadsWithQuotient
      | _ => false := by
  rw [leadsWithQuotient, fold_mk]
  cases op <;> rfl

theorem multipliesQuotient_binary (op : BinaryOp) (l r : Tree) (ty : Ty) :
    (Tree.mk (.binary op l r ty)).multipliesQuotient =
      (l.multipliesQuotient || r.multipliesQuotient || (op == .multiply && r.leadsWithQuotient)) := by
  have hproduct : (match op with
      | .multiply => r.leadsWithQuotient
      | _ => false) = (op == .multiply && r.leadsWithQuotient) := by
    cases op <;> rfl
  rw [← hproduct, multipliesQuotient, fold_mk]
  simp only [Node.map, Node.children, withFold, List.any_cons, List.any_nil, Bool.or_false]
  cases op <;> rfl

theorem multipliesQuotient_unary (op : UnaryOp) (e : Tree) (ty : Ty) :
    (Tree.mk (.unary op (some e) ty)).multipliesQuotient = e.multipliesQuotient := by
  rw [multipliesQuotient, fold_mk]
  show (e.multipliesQuotient || false || false) = _
  rw [Bool.or_false, Bool.or_false]

/-- The reading of an arithmetic tree: an arithmetic expression, of the level of the tree. When no product
takes a quotient on its right, it has the value of the tree; and unless the tree leads with a quotient, its
chain of factors are products only. -/
structure ReadsWell (t : Tree) (μ : Ident → String) : Prop where
  arithmetic : (t.reading μ).isArithmetic = true
  chain (k : Nat) : (t.reading μ).chain k ≠ [] → t.precedence = k + 1
  value : t.multipliesQuotient = false → ∀ (ρ : Ident → Int32) (σ : String → Int32),
    (∀ v ∈ t.vars, σ (μ v.id) = ρ v.id) → (t.reading μ).eval (numbers σ) = t.value fun i => .int (ρ i)
  factors : t.multipliesQuotient = false → t.leadsWithQuotient = false →
    ∀ op ∈ (t.reading μ).chain InfixOp.times.level, op = .times

section Under

variable {t : Tree} {parent : Kind} {isRight : Bool} {e : Expr}

theorem readUnder_arithmetic (h : e.isArithmetic = true) (parent : Kind) (isRight : Bool) (t : Tree) :
    (readUnder parent isRight t e).isArithmetic = true := by
  unfold readUnder
  split <;> exact h

/-- Under a parent, the chain of an operand is empty or the chain of the operand. -/
theorem mem_chain_readUnder {k : Nat} {op : InfixOp} (h : op ∈ (readUnder parent isRight t e).chain k) :
    op ∈ e.chain k ∧ parent.groups t.precedence isRight = false := by
  unfold readUnder at h
  split at h
  · cases h
  · next hgroups => exact ⟨h, by simpa using hgroups⟩

end Under

/-- An operator that does not group a right operand of its level associates with what that operand can
be; only a product may meet another operator than its own. -/
theorem associates_of_peer {op : BinaryOp} {s op' : InfixOp} (hs : op.sign? = some s)
    (harith : op.isArithmetic = true) (hpeer : (Kind.binary op).groupsPeer true = false)
    (hlevel : op'.level = s.level) (htimes : s = .times → op' = .times) : s.associates op' = true := by
  cases op <;> cases harith <;> cases hs <;> cases op' <;> revert hpeer hlevel htimes <;> decide

section Binary

variable {μ : Ident → String} {op : BinaryOp} {s : InfixOp} {l r : Tree}

/-- The operators of an ungrouped right operand associate with the parent. -/
theorem ReadsWell.associates (hr : r.ReadsWell μ) (hs : op.sign? = some s) (harith : op.isArithmetic = true)
    (hquotient : r.multipliesQuotient = false) (hleads : op = .multiply → r.leadsWithQuotient = false) :
    ∀ op' ∈ (readUnder (.binary op) true r (r.reading μ)).chain s.level, s.associates op' = true := by
  intro op' hmem
  obtain ⟨hmem, hgroups⟩ := mem_chain_readUnder hmem
  have hprecedence : r.precedence = (Kind.binary op).precedence := by
    rw [hr.chain s.level (List.ne_nil_of_mem hmem), (precedence_of_sign? hs).1]
  rw [Kind.groups, if_pos hprecedence] at hgroups
  refine associates_of_peer hs harith hgroups (Expr.level_of_mem_chain hmem) fun htimes => ?_
  subst htimes
  have hmultiply : op = .multiply := BinaryOp.eq_ofSign hs
  exact hr.factors hquotient (hleads hmultiply) op' hmem

theorem readsWell_binary (ty : Ty) (harith : op.isArithmetic = true) (hl : l.ReadsWell μ)
    (hr : r.ReadsWell μ) : (Tree.mk (.binary op l r ty)).ReadsWell μ := by
  obtain ⟨s, hs, hsa⟩ := BinaryOp.sign_of_isArithmetic harith
  have hleft := readUnder_arithmetic hl.arithmetic (.binary op) false l
  have hright := readUnder_arithmetic hr.arithmetic (.binary op) true r
  -- products are where reading from the left may lose a quotient
  refine ⟨?_, fun k hk => ?_, fun hquotient ρ σ hρ => ?_, fun hquotient hleads op' hmem => ?_⟩
  · rw [reading_binary μ hs]
    exact Expr.isArithmetic_prepend hsa hleft hright
  · rw [reading_binary μ hs] at hk
    have hlevel : s.level = k := by
      by_contra hne
      exact hk (Expr.chain_prepend_of_ne hne _ _)
    rw [← hlevel]
    exact (precedence_of_sign? hs).1
  · rw [vars_binary] at hρ
    simp only [multipliesQuotient_binary, Bool.or_eq_false_iff, Bool.and_eq_false_imp, beq_iff_eq] at hquotient
    obtain ⟨⟨hql, hqr⟩, hleads⟩ := hquotient
    rw [reading_binary μ hs, Expr.eval_prepend σ hleft hright (hr.associates hs harith hqr hleads),
      readUnder_eval, readUnder_eval, hl.value hql ρ σ fun v hv => hρ v (List.mem_append_left _ hv),
      hr.value hqr ρ σ fun v hv => hρ v (List.mem_append_right _ hv), join_of_sign? hs, value_binary]
  · simp only [multipliesQuotient_binary, Bool.or_eq_false_iff, Bool.and_eq_false_imp, beq_iff_eq] at hquotient
    obtain ⟨⟨hql, hqr⟩, hright⟩ := hquotient
    rw [leadsWithQuotient_binary] at hleads
    rw [reading_binary μ hs] at hmem
    by_cases hlevel : s.level = InfixOp.times.level
    · have hmultiply : op = .multiply ∧ s = .times := by
        cases op <;> cases harith <;> cases hs <;> revert hlevel hleads <;> simp [InfixOp.level]
      obtain ⟨rfl, rfl⟩ := hmultiply
      rw [Expr.chain_prepend] at hmem
      rcases List.mem_append.mp hmem with hmem | hmem
      · exact hl.factors hql hleads op' (mem_chain_readUnder hmem).1
      · rcases List.mem_cons.mp hmem with rfl | hmem
        · rfl
        · exact hr.factors hqr (hright rfl) op' (mem_chain_readUnder hmem).1
    · rw [Expr.chain_prepend_of_ne hlevel] at hmem
      cases hmem

end Binary

/-- **An arithmetic tree reads well.** -/
theorem Arithmetic.readsWell {t : Tree} (h : t.Arithmetic) (μ : Ident → String) : t.ReadsWell μ := by
  induction h with
  | @var v _ =>
    refine ⟨?_, fun k hk => ?_, fun _ ρ σ hρ => ?_, fun _ _ op hmem => ?_⟩
    · rw [reading_var]
      rfl
    · rw [reading_var] at hk
      exact absurd rfl hk
    · rw [reading_var, value_var, Expr.eval, numbers, hρ v (by simp [vars_var])]
    · rw [reading_var] at hmem
      cases hmem
  | binary ty harith _ _ ihl ihr => exact readsWell_binary ty harith ihl ihr
  | @unary op e ty harith he ih =>
    obtain ⟨s, hs, happly, hprefixed⟩ := UnaryOp.sign_of_isArithmetic harith e.ty.isIntegral
    refine ⟨?_, fun k hk => ?_, fun hquotient ρ σ hρ => ?_, fun _ _ op hmem => ?_⟩
    · rw [reading_unary μ hs]
      exact hprefixed _ (readUnder_arithmetic ih.arithmetic _ _ _)
    · rw [reading_unary μ hs] at hk
      exact absurd rfl hk
    · rw [multipliesQuotient_unary] at hquotient
      rw [vars_unary] at hρ
      rw [reading_unary μ hs, Expr.eval, readUnder_eval, ih.value hquotient ρ σ hρ, happly, value_unary]
    · rw [reading_unary μ hs] at hmem
      cases hmem

/-! ## The script -/

/-- The names that the variables of a tree get when it is written on its own. -/
def naming (t : Tree) : Naming := ({} : Naming).nameAll t.vars

/-- What is written as it is shown is drafted so. -/
theorem IsPut.draft {t : Tree} {desk : Desk} (hput : t.IsPut desk) (hroot : t.writeRoot = t.piece.inline) :
    ∃ u d, t.draft desk = .ok (u, d) ∧ d.page.text = t.shown t.naming.ofVariable ∧ d.methods = [] := by
  have hblank : desk.firstPage.text = "" ∧ desk.firstPage.owesIndent = false := by
    unfold Desk.firstPage
    cases desk.wrapper.typeName <;> exact ⟨rfl, rfl⟩
  obtain ⟨u, hu⟩ := hput { page := desk.firstPage } rfl
  refine ⟨u, { page := desk.firstPage.write (t.shown t.naming.ofVariable), naming := t.naming }, ?_, ?_, rfl⟩
  · show t.writeRoot desk { page := desk.firstPage } = _
    rw [hroot]
    exact hu
  · show (desk.firstPage.write _).text = _
    rw [Text.Page.write_text_of_settled hblank.2, hblank.1]
    exact String.empty_append

theorem Plain.draft {t : Tree} (h : t.Plain) (desk : Desk) :
    ∃ u d, t.draft desk = .ok (u, d) ∧ d.page.text = t.shown t.naming.ofVariable ∧ d.methods = [] :=
  h.isPut.draft (by cases h <;> rfl)

/-- **The text of arithmetic has the value of the tree,** unless a product takes a quotient or a remainder
on its right. The text is read as the reading of the tree, in which variables go by names of their own. -/
theorem arithmetic_text_keeps_value {t : Tree} (ht : t.Arithmetic) (hvs : WellNamed t.vars) (w : Wrapper) :
    ∃ text μ, t.WrittenAs w text ∧ NamesApart μ t.vars ∧ read? (tokens text) = some (t.reading μ) ∧
      (t.multipliesQuotient = false → ∀ (ρ : Ident → Int32) (σ : String → Int32),
        (∀ v ∈ t.vars, σ (μ v.id) = ρ v.id) →
          (t.reading μ).eval (numbers σ) = t.value fun i => .int (ρ i)) := by
  have hknows : ∀ v ∈ t.vars, t.naming.Knows v.id := fun v hv => Naming.knows_nameAll hv {}
  have hhonest : t.naming.Honest t.vars :=
    (Naming.honest_empty t.vars).nameAll hvs.one fun v hv => hv
  have hread := ht.plain.reads (hhonest.read hvs hknows)
  refine ⟨t.shown t.naming.ofVariable, t.naming.readAs, ?_, hhonest.namesApart hvs hknows, ?_, ?_⟩
  · exact writtenAs_of_draft fun layout => ht.plain.draft ⟨w, layout⟩
  · exact read?_eq_some_iff.mpr (hread.loosen (Nat.zero_le _) (levelOf_le _))
  · exact (ht.readsWell t.naming.readAs).value

/-- A variable for whole numbers that goes by its name. -/
def number (name : String) : Tree := .mk (.var { id := .given name, name := some name, ty := .int })

theorem arithmetic_number (name : String) : (number name).Arithmetic := .var rfl

/-- `~a - b * (c * a)`, which is written as `~a - b * c * a`. -/
def factorsInRow : Tree :=
  .binary .subtract (.unary .onesComplement (some (number "a")))
    (.binary .multiply (number "b") (.binary .multiply (number "c") (number "a")))

/-- `a * (b / c)`, which is written as `a * b / c`. -/
def quotientAsFactor : Tree :=
  .binary .multiply (number "a") (.binary .divide (number "b") (number "c"))

theorem wellNamed_of_names {vs : List Variable}
    (h : ∀ v ∈ vs, ∃ s, isPlainName s = true ∧ v = { id := .given s, name := some s, ty := .int }) : WellNamed vs := by
  refine ⟨fun v hv s hs => ?_, fun v hv w hw hid => ?_, fun v hv w hw s hvs hws => ?_, fun v hv w hw hvs => ?_⟩
  · obtain ⟨t, ht, rfl⟩ := h v hv
    cases hs
    exact ht
  · obtain ⟨s, -, rfl⟩ := h v hv
    obtain ⟨t, -, rfl⟩ := h w hw
    cases hid
    rfl
  · obtain ⟨s, -, rfl⟩ := h v hv
    obtain ⟨t, -, rfl⟩ := h w hw
    cases hvs
    cases hws
    rfl
  · obtain ⟨s, -, rfl⟩ := h v hv
    cases hvs

/-- The factors of `factorsInRow` are regrouped, and its value stays. -/
theorem arithmetic_text_keeps_value_factorsInRow :
    factorsInRow.Arithmetic ∧ WellNamed factorsInRow.vars ∧ factorsInRow.multipliesQuotient = false ∧
      ∃ text μ, factorsInRow.WrittenAs {} text ∧ NamesApart μ factorsInRow.vars ∧
        read? (tokens text) = some (factorsInRow.reading μ) ∧
        (factorsInRow.multipliesQuotient = false → ∀ (ρ : Ident → Int32) (σ : String → Int32),
          (∀ v ∈ factorsInRow.vars, σ (μ v.id) = ρ v.id) →
            (factorsInRow.reading μ).eval (numbers σ) = factorsInRow.value fun i => .int (ρ i)) := by
  have harith : factorsInRow.Arithmetic :=
    .binary _ rfl (.unary _ rfl (arithmetic_number "a"))
      (.binary _ rfl (arithmetic_number "b") (.binary _ rfl (arithmetic_number "c") (arithmetic_number "a")))
  have hnamed : WellNamed factorsInRow.vars := by
    refine wellNamed_of_names fun v hv => ?_
    have hmem : v ∈ [(⟨.given "a", some "a", .int⟩ : Variable), ⟨.given "b", some "b", .int⟩,
        ⟨.given "c", some "c", .int⟩, ⟨.given "a", some "a", .int⟩] := hv
    simp only [List.mem_cons, List.not_mem_nil, or_false] at hmem
    rcases hmem with rfl | rfl | rfl | rfl <;> exact ⟨_, by decide, rfl⟩
  exact ⟨harith, hnamed, by decide, arithmetic_text_keeps_value harith hnamed {}⟩

/-- **A quotient as the right factor loses its parentheses, and the text has another value:** with `b` one
and the other two variables two, `a * (b / c)` is zero and the text gives one. -/
theorem quotientAsFactor_text_changes_value :
    quotientAsFactor.Arithmetic ∧ ∃ script e, quotientAsFactor.toScript {} = .ok script ∧
      script.text = "a * b / c" ∧ read? (tokens script.text) = some e ∧
      ∃ (ρ : Ident → Int32) (σ : String → Int32), (∀ s ∈ ["a", "b", "c"], σ s = ρ (.given s)) ∧
        (quotientAsFactor.value fun i => .int (ρ i)) = .ok (.int 0) ∧
        e.eval (numbers σ) = .ok (.int 1) := by
  have harith : quotientAsFactor.Arithmetic :=
    .binary _ rfl (arithmetic_number "a") (.binary _ rfl (arithmetic_number "b") (arithmetic_number "c"))
  have htext : (quotientAsFactor.toScript {}).toOption.map Script.text = some "a * b / c" := by
    decide +kernel
  cases h : quotientAsFactor.toScript {} with
  | error err =>
    rw [h] at htext
    cases htext
  | ok script =>
    rw [h] at htext
    have hscript : script.text = "a * b / c" := Option.some.inj htext
    refine ⟨harith, script, .infixed .over (.infixed .times (.name "a") (.name "b")) (.name "c"), rfl,
      hscript, ?_, fun i => if i = .given "b" then 1 else 2, fun s => if s = "b" then 1 else 2, ?_, ?_, ?_⟩
    · rw [hscript]
      decide +kernel
    · decide
    · decide +kernel
    · decide +kernel

end Tree

end Scribe
