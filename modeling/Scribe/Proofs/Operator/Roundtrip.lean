import Scribe.Proofs.Operator.Arithmetic

/-!
# Operators are read back

The text of operators over variables is read back as the tree it was written for, parentheses aside, unless a right
operand stands without parentheses behind an operator of its own level. The sum, the product, the comparisons, the
bitwise operations and the two logical connectives leave such an operand without parentheses
(`BinaryOp.leavesPeer`); the reader then groups from the left, and finds another tree.

`Tree.outline` is the expression that a tree stands for. Different trees have different outlines, up to their types.
-/

namespace Scribe

namespace Reading

namespace Expr

/-- The expression without its parentheses. -/
def ungrouped : Expr → Expr
  | .grouped e => e.ungrouped
  | .prefixed op e => .prefixed op e.ungrouped
  | .infixed op l r => .infixed op l.ungrouped r.ungrouped
  | .choice c a b => .choice c.ungrouped a.ungrouped b.ungrouped
  | e => e

/-- The number of names and values in an expression. -/
def width : Expr → Nat
  | .grouped e | .prefixed _ e => e.width
  | .infixed _ l r => l.width + r.width
  | .choice c a b => c.width + a.width + b.width
  | _ => 1

theorem width_pos (e : Expr) : 0 < e.width := by
  induction e with
  | grouped e ih | prefixed op e ih => exact ih
  | infixed op l r ihl _ => exact Nat.add_pos_left ihl _
  | choice c a b _ _ ihb => exact Nat.add_pos_right _ ihb
  | _ => exact Nat.one_pos

theorem width_ungrouped (e : Expr) : e.ungrouped.width = e.width := by
  induction e with
  | grouped e ih | prefixed op e ih => exact ih
  | infixed op l r ihl ihr => simp only [ungrouped, width, ihl, ihr]
  | choice c a b ihc iha ihb => simp only [ungrouped, width, ihc, iha, ihb]
  | _ => rfl

theorem width_prepend (op : InfixOp) (x e : Expr) : (prepend op x e).width = x.width + e.width := by
  induction e with
  | infixed op' l r ihl _ =>
    rw [prepend]
    split
    · rw [width, ihl, width, Nat.add_assoc]
    · rfl
  | _ => rfl

/-- What is put in front of a chain is a chain of the same level. -/
theorem exists_prepend (op : InfixOp) (x e : Expr) :
    ∃ op' l r, prepend op x e = .infixed op' l r ∧ op'.level = op.level := by
  cases e with
  | infixed op' l r =>
    rw [prepend]
    split
    · next hlevel => exact ⟨op', _, r, rfl, hlevel⟩
    · exact ⟨op, x, _, rfl, rfl⟩
  | _ => exact ⟨op, x, _, rfl, rfl⟩

/-- An operator in front of a chain of its level does not get the chain as its right operand. -/
theorem prepend_ne_infixed {op op' : InfixOp} {l r : Expr} (hlevel : op'.level = op.level) (x a b : Expr)
    (hwidth : b.width = (infixed op' l r).width) : (prepend op x (.infixed op' l r)).ungrouped ≠ .infixed op a b := by
  intro heq
  rw [prepend, if_pos hlevel, ungrouped] at heq
  have hright : r.ungrouped = b := (Expr.infixed.inj heq).2.2
  rw [← hright, width_ungrouped, width] at hwidth
  have hpos := l.width_pos
  omega

end Expr

end Reading

open Reading

/-- Whether the operator leaves a right operand of its own level without parentheses. -/
def BinaryOp.leavesPeer : BinaryOp → Bool
  | .add | .multiply | .lessThan | .lessThanOrEqual | .greaterThan | .greaterThanOrEqual | .and | .exclusiveOr | .or
  | .andAlso | .orElse => true
  | _ => false

theorem BinaryOp.leavesPeer_eq {op : BinaryOp} {s : InfixOp} (h : op.sign? = some s) :
    op.leavesPeer = !(Kind.binary op).groupsPeer true := by
  cases op <;> cases h <;> rfl

theorem BinaryOp.eq_of_sign? {op op' : BinaryOp} {s : InfixOp} (h : op.sign? = some s) (h' : op'.sign? = some s) :
    op = op' :=
  (eq_ofSign h).trans (eq_ofSign h').symm

/-- The sign depends on the operand of `!` only. -/
theorem UnaryOp.sign?_eq {op : UnaryOp} {i i' : Bool} (hnot : op = .not → i = false) (hnot' : op = .not → i' = false) :
    op.sign? i = op.sign? i' := by
  cases op <;> first | rfl | rw [hnot rfl, hnot' rfl]

/-- Different operators have different signs, when `!` is not written for whole numbers. -/
theorem UnaryOp.eq_of_sign? {op op' : UnaryOp} {s : PrefixOp} {i i' : Bool} (h : op.sign? i = some s)
    (h' : op'.sign? i' = some s) (hnot : op = .not → i = false) (hnot' : op' = .not → i' = false) : op = op' := by
  rw [sign?_eq hnot fun _ => rfl] at h
  rw [sign?_eq hnot' fun _ => rfl] at h'
  cases op <;> cases h <;> cases op' <;> first | rfl | cases h'

namespace Tree

/-! ## Outlines -/

/-- The expression that a tree stands for. -/
def outline (t : Tree) : Expr :=
  t.fold fun
    | .var v => .name (v.name.getD "")
    | .constant (.int n) _ => .number n.toInt.toNat
    | .binary .coalesce l r _ => .infixed .coalesce l.2 r.2
    | .binary op l r _ =>
      match op.sign? with
      | some s => .infixed s l.2 r.2
      | none => .truth false
    | .unary op (some e) _ =>
      match op.sign? e.1.ty.isIntegral with
      | some s => .prefixed s e.2
      | none => .truth false
    | .conditional c a b _ => .choice c.2 a.2 b.2
    | _ => .truth false

section Equations

theorem outline_var {v : Variable} {s : String} (h : v.name = some s) : (Tree.mk (.var v)).outline = .name s := by
  rw [outline, fold_mk]
  show Expr.name (v.name.getD "") = _
  rw [h, Option.getD_some]

theorem outline_number (n : Int32) (ty : Ty) : (Tree.mk (.constant (.int n) ty)).outline = .number n.toInt.toNat := by
  rw [outline, fold_mk]
  rfl

theorem outline_coalesce (l r : Tree) (ty : Ty) :
    (Tree.mk (.binary .coalesce l r ty)).outline = .infixed .coalesce l.outline r.outline := by
  rw [outline, fold_mk]
  rfl

theorem outline_binary {op : BinaryOp} {s : InfixOp} (h : op.sign? = some s) (l r : Tree) (ty : Ty) :
    (Tree.mk (.binary op l r ty)).outline = .infixed s l.outline r.outline := by
  rw [outline, fold_mk]
  cases op <;> cases h <;> rfl

theorem outline_unary {op : UnaryOp} {s : PrefixOp} {e : Tree} (h : op.sign? e.ty.isIntegral = some s) (ty : Ty) :
    (Tree.mk (.unary op (some e) ty)).outline = .prefixed s e.outline := by
  rw [outline, fold_mk]
  simp only [Node.map, withFold, Option.map_some, h]
  rfl

theorem outline_conditional (c a b : Tree) (ty : Ty) :
    (Tree.mk (.conditional c a b ty)).outline = .choice c.outline a.outline b.outline := by
  rw [outline, fold_mk]
  rfl

end Equations

/-! ## Right operands of the level of their parent -/

/-- Whether some right operand is left without parentheses behind an operator of its own level. -/
def hasPeerOnRight (t : Tree) : Bool :=
  t.fold fun n =>
    n.children.any (·.2) ||
      match n with
      | .binary op _ r _ => op.leavesPeer && r.1.precedence == (Kind.binary op).precedence
      | _ => false

theorem hasPeerOnRight_binary (op : BinaryOp) (l r : Tree) (ty : Ty) :
    (Tree.mk (.binary op l r ty)).hasPeerOnRight =
      (l.hasPeerOnRight || r.hasPeerOnRight ||
        (op.leavesPeer && r.precedence == (Kind.binary op).precedence)) := by
  rw [hasPeerOnRight, fold_mk]
  simp only [Node.map, Node.children, withFold, List.any_cons, List.any_nil, Bool.or_false]
  rfl

theorem hasPeerOnRight_unary (op : UnaryOp) (e : Tree) (ty : Ty) :
    (Tree.mk (.unary op (some e) ty)).hasPeerOnRight = e.hasPeerOnRight := by
  rw [hasPeerOnRight, fold_mk]
  show (e.hasPeerOnRight || false || false) = _
  rw [Bool.or_false, Bool.or_false]

theorem hasPeerOnRight_conditional (c a b : Tree) (ty : Ty) :
    (Tree.mk (.conditional c a b ty)).hasPeerOnRight =
      (c.hasPeerOnRight || (a.hasPeerOnRight || b.hasPeerOnRight)) := by
  rw [hasPeerOnRight, fold_mk]
  simp only [Node.map, Node.children, withFold, List.any_cons, List.any_nil, Bool.or_false]
  rfl

theorem ungrouped_readUnder (parent : Kind) (isRight : Bool) (t : Tree) (e : Expr) :
    (readUnder parent isRight t e).ungrouped = e.ungrouped := by
  unfold readUnder
  split <;> rfl

theorem width_readUnder (parent : Kind) (isRight : Bool) (t : Tree) (e : Expr) :
    (readUnder parent isRight t e).width = e.width := by
  unfold readUnder
  split <;> rfl

section Right

variable {ν μ : Ident → String} {op : BinaryOp} {s : InfixOp} {r : Tree}

/-- A right operand of another level, or in parentheses, is read as the right operand. -/
theorem Plain.prepend_eq (hr : r.Plain) (hnames : NamesRead ν μ r.vars) (hs : op.sign? = some s)
    (hpeer : (op.leavesPeer && r.precedence == (Kind.binary op).precedence) = false) (x : Expr) :
    Expr.prepend s x (readUnder (.binary op) true r (r.reading μ)) =
      .infixed s x (readUnder (.binary op) true r (r.reading μ)) := by
  obtain ⟨hprecedence, hne⟩ := precedence_of_sign? hs
  unfold readUnder
  split
  · rfl
  · next hgroups =>
    have hle := precedence_le_of_not_groups hgroups
    have hother : r.precedence ≠ (Kind.binary op).precedence := by
      intro heq
      rw [Kind.groups, if_pos heq, Bool.not_eq_true] at hgroups
      rw [BinaryOp.leavesPeer_eq hs, hgroups, heq] at hpeer
      simp at hpeer
    have hbounds := s.level_bounds
    have hone := mt s.level_eq_one_iff.mp hne
    have hlevel : s.level + 1 ≤ levelOf r.precedence := by
      unfold levelOf
      rw [if_neg (by omega)]
      omega
    exact ((hr.reads hnames).loosen hlevel (levelOf_le _)).prepend_eq x

/-- A right operand of the same level without parentheses is read as a chain of this level. -/
theorem Plain.exists_chain (hr : r.Plain) (hs : op.sign? = some s)
    (hpeer : r.precedence = (Kind.binary op).precedence) :
    ∃ op' a b, r.reading μ = .infixed op' a b ∧ op'.level = s.level := by
  obtain ⟨hprecedence, hne⟩ := precedence_of_sign? hs
  have hbounds := s.level_bounds
  have hone := mt s.level_eq_one_iff.mp hne
  cases hr with
  | var v =>
    have hprimary : (Tree.mk (.var v)).precedence = 100 := rfl
    omega
  | number ty hn =>
    have hprimary : (Tree.mk (.constant (.int _) ty)).precedence = 100 := precedence_number hn ty
    omega
  | @binary op' s' l r ty hs' hl hr =>
    have hpeer' : (Tree.mk (.binary op' l r ty)).precedence = s'.level + 1 := (precedence_of_sign? hs').1
    rw [reading_binary μ hs']
    obtain ⟨op'', a, b, heq, hlevel⟩ := Expr.exists_prepend s' (readUnder (.binary op') false l (l.reading μ))
      (readUnder (.binary op') true r (r.reading μ))
    exact ⟨op'', a, b, heq, by omega⟩
  | @unary op' s' e ty hs' he =>
    have hunary : (Tree.mk (.unary op' (some e) ty)).precedence = 13 := precedence_unary_of_sign? hs'
    omega
  | @conditional c a b ty _ _ _ _ =>
    have hconditional : (Tree.mk (.conditional c a b ty)).precedence = 2 := rfl
    omega

end Right

/-! ## Readings and outlines -/

theorem Plain.width_reading {t : Tree} (h : t.Plain) (μ : Ident → String) : (t.reading μ).width = t.outline.width := by
  induction h with
  | var v =>
    rw [reading_var, outline, fold_mk]
    rfl
  | number ty _ => rw [reading_number, outline_number]
  | binary ty hs _ _ ihl ihr =>
    rw [reading_binary μ hs, outline_binary hs, Expr.width_prepend, width_readUnder, width_readUnder, ihl, ihr,
      Expr.width]
  | unary ty hs _ ih => rw [reading_unary μ hs, outline_unary hs, Expr.width, width_readUnder, ih, Expr.width]
  | conditional _ _ _ _ ihc iha ihb =>
    rw [reading_conditional, outline_conditional, Expr.width, width_readUnder, width_readUnder, width_readUnder, ihc,
      iha, ihb, Expr.width]

/-- **A plain tree is read as its outline exactly when no operator leaves a right operand of its own level without
parentheses.** Where one does, its right operand is read as a chain, and is too wide for what is read. -/
theorem Plain.ungrouped_reading_iff {ν μ : Ident → String} {t : Tree} (h : t.Plain) (hnames : NamesRead ν μ t.vars)
    (hown : ∀ v ∈ t.vars, v.name = some (μ v.id)) : (t.reading μ).ungrouped = t.outline ↔ t.hasPeerOnRight = false := by
  induction h with
  | var v =>
    rw [reading_var, outline_var (hown v (by simp [vars_var])), hasPeerOnRight, fold_mk]
    exact ⟨fun _ => rfl, fun _ => rfl⟩
  | number ty _ =>
    rw [reading_number, outline_number, hasPeerOnRight, fold_mk]
    exact ⟨fun _ => rfl, fun _ => rfl⟩
  | @binary op s l r ty hs hl hr ihl ihr =>
    rw [vars_binary] at hnames hown
    have hrnames : NamesRead ν μ r.vars := fun v hv => hnames v (List.mem_append_right _ hv)
    have hleft := ihl (fun v hv => hnames v (List.mem_append_left _ hv)) fun v hv => hown v (List.mem_append_left _ hv)
    have hright := ihr hrnames fun v hv => hown v (List.mem_append_right _ hv)
    rw [reading_binary μ hs, outline_binary hs, hasPeerOnRight_binary]
    cases hpeer : op.leavesPeer && r.precedence == (Kind.binary op).precedence with
    | false =>
      rw [hr.prepend_eq hrnames hs hpeer, Expr.ungrouped, ungrouped_readUnder, ungrouped_readUnder, Bool.or_false,
        Bool.or_eq_false_iff, ← hleft, ← hright, Expr.infixed.injEq]
      exact ⟨fun heq => heq.2, fun heq => ⟨rfl, heq⟩⟩
    | true =>
      obtain ⟨hleaves, hprecedence⟩ := Bool.and_eq_true_iff.mp hpeer
      have hprecedence : r.precedence = (Kind.binary op).precedence := by simpa using hprecedence
      have hgroups : (Kind.binary op).groups r.precedence true = false := by
        rw [Kind.groups, if_pos hprecedence]
        simpa [BinaryOp.leavesPeer_eq hs] using hleaves
      -- the operand is as wide as the chain it is read as, so it cannot be what stands on the right of it
      obtain ⟨op', a, b, hreading, hlevel⟩ := hr.exists_chain (μ := μ) hs hprecedence
      have hwidth : r.outline.width = (Expr.infixed op' a b).width := by rw [← hr.width_reading μ, hreading]
      have hne := Expr.prepend_ne_infixed hlevel (readUnder (.binary op) false l (l.reading μ)) l.outline r.outline
        hwidth
      have hunder : readUnder (.binary op) true r (r.reading μ) = .infixed op' a b := by
        rw [readUnder, hgroups, hreading]
        rfl
      rw [hunder, Bool.or_true]
      exact ⟨fun heq => absurd heq hne, fun heq => absurd heq (by decide)⟩
  | @unary op s e ty hs he ih =>
    rw [vars_unary] at hnames hown
    rw [reading_unary μ hs, outline_unary hs, hasPeerOnRight_unary, Expr.ungrouped, ungrouped_readUnder,
      ← ih hnames hown, Expr.prefixed.injEq]
    exact ⟨fun heq => heq.2, fun heq => ⟨rfl, heq⟩⟩
  | @conditional c a b ty hty hc ha hb ihc iha ihb =>
    rw [vars_conditional] at hnames hown
    have htest := ihc (fun v hv => hnames v (by simp [hv])) fun v hv => hown v (by simp [hv])
    have htrue := iha (fun v hv => hnames v (by simp [hv])) fun v hv => hown v (by simp [hv])
    have hfalse := ihb (fun v hv => hnames v (by simp [hv])) fun v hv => hown v (by simp [hv])
    rw [reading_conditional, outline_conditional, hasPeerOnRight_conditional, Expr.ungrouped, ungrouped_readUnder,
      ungrouped_readUnder, ungrouped_readUnder, Bool.or_eq_false_iff, Bool.or_eq_false_iff, ← htest, ← htrue, ← hfalse,
      Expr.choice.injEq]

/-! ## Trees of operators -/

/-- Trees of operators over variables with plain names, in which every operator has a sign of its own. -/
inductive Operators : Tree → Prop where
  | var {v : Variable} {s : String} : v.name = some s → isPlainName s = true → Operators (.mk (.var v))
  | binary {op : BinaryOp} {s : InfixOp} {l r : Tree} (ty : Ty) :
      op.sign? = some s → Operators l → Operators r → Operators (.mk (.binary op l r ty))
  | unary {op : UnaryOp} {s : PrefixOp} {e : Tree} (ty : Ty) :
      op.sign? e.ty.isIntegral = some s → (op = .not → e.ty.isIntegral = false) → Operators e →
      Operators (.mk (.unary op (some e) ty))

/-- The same operators over variables of the same names; types may differ. -/
inductive Alike : Tree → Tree → Prop where
  | var {v w : Variable} : v.name = w.name → Alike (.mk (.var v)) (.mk (.var w))
  | binary {op : BinaryOp} {l l' r r' : Tree} (ty ty' : Ty) :
      Alike l l' → Alike r r' → Alike (.mk (.binary op l r ty)) (.mk (.binary op l' r' ty'))
  | unary {op : UnaryOp} {e e' : Tree} (ty ty' : Ty) :
      Alike e e' → Alike (.mk (.unary op (some e) ty)) (.mk (.unary op (some e') ty'))

theorem Operators.plain {t : Tree} (h : t.Operators) : t.Plain := by
  induction h with
  | var _ _ => exact .var _
  | binary ty hs _ _ ihl ihr => exact .binary ty hs ihl ihr
  | unary ty hs _ _ ih => exact .unary ty hs ih

theorem Operators.plainNames {t : Tree} (h : t.Operators) :
    ∀ v ∈ t.vars, ∃ s, v.name = some s ∧ isPlainName s = true := by
  induction h with
  | @var v s hname hplain =>
    intro w hw
    rw [vars_var, List.mem_singleton] at hw
    rw [hw]
    exact ⟨s, hname, hplain⟩
  | binary ty _ _ _ ihl ihr =>
    rw [vars_binary, List.forall_mem_append]
    exact ⟨ihl, ihr⟩
  | unary ty _ _ _ ih =>
    rw [vars_unary]
    exact ih

/-- **Outlines tell trees of operators apart.** -/
theorem Operators.outline_eq_iff {t u : Tree} (ht : t.Operators) (hu : u.Operators) :
    u.outline = t.outline ↔ u.Alike t := by
  constructor
  · intro heq
    -- equal outlines have the same sign on top, and a sign belongs to one operator
    induction ht generalizing u with
    | @var v s hname _ =>
      rw [outline_var hname] at heq
      cases hu with
      | @var w s' hname' _ =>
        rw [outline_var hname'] at heq
        cases heq
        exact .var (hname'.trans hname.symm)
      | binary ty hs _ _ =>
        rw [outline_binary hs] at heq
        cases heq
      | unary ty hs _ _ =>
        rw [outline_unary hs] at heq
        cases heq
    | @binary op s l r ty hs _ _ ihl ihr =>
      rw [outline_binary hs] at heq
      cases hu with
      | var hname _ =>
        rw [outline_var hname] at heq
        cases heq
      | @binary op' s' l' r' ty' hs' hl' hr' =>
        rw [outline_binary hs'] at heq
        obtain ⟨rfl, hl, hr⟩ := Expr.infixed.inj heq
        obtain rfl := BinaryOp.eq_of_sign? hs' hs
        exact .binary ty' ty (ihl hl' hl) (ihr hr' hr)
      | unary ty hs _ _ =>
        rw [outline_unary hs] at heq
        cases heq
    | @unary op s e ty hs hnot _ ih =>
      rw [outline_unary hs] at heq
      cases hu with
      | var hname _ =>
        rw [outline_var hname] at heq
        cases heq
      | binary ty hs _ _ =>
        rw [outline_binary hs] at heq
        cases heq
      | @unary op' s' e' ty' hs' hnot' he' =>
        rw [outline_unary hs'] at heq
        obtain ⟨rfl, he⟩ := Expr.prefixed.inj heq
        obtain rfl := UnaryOp.eq_of_sign? hs' hs hnot' hnot
        exact .unary ty' ty (ih he' he)
  · intro halike
    induction halike with
    | var hname =>
      cases ht with
      | var hname' _ => rw [outline_var hname', outline_var (hname.trans hname')]
    | binary ty ty' _ _ ihl ihr =>
      cases ht with
      | binary _ hs hl hr =>
        cases hu with
        | binary _ _ hl' hr' => rw [outline_binary hs, outline_binary hs, ihl hl hl', ihr hr hr']
    | unary ty ty' _ ih =>
      cases ht with
      | unary _ hs hnot he =>
        cases hu with
        | unary _ _ hnot' he' =>
          rw [outline_unary hs, outline_unary ((UnaryOp.sign?_eq hnot' hnot).trans hs), ih he he']

/-! ## The script -/

/-- Variables with plain names are read by their own names. -/
theorem names_of_plain {t : Tree} (hplain : ∀ v ∈ t.vars, ∃ s, v.name = some s ∧ isPlainName s = true)
    (hone : Naming.OneName t.vars) :
    NamesRead t.naming.ofVariable t.naming.readAs t.vars ∧ ∀ v ∈ t.vars, v.name = some (t.naming.readAs v.id) := by
  have hknows : ∀ v ∈ t.vars, t.naming.Knows v.id := fun v hv => Naming.knows_nameAll hv {}
  have hhonest : t.naming.Honest t.vars := (Naming.honest_empty t.vars).nameAll hone fun v hv => hv
  have hnames : ∀ v ∈ t.vars, ∀ s, v.name = some s → isPlainName s = true := by
    intro v hv s hs
    obtain ⟨s', hs', hplain⟩ := hplain v hv
    cases hs.symm.trans hs'
    exact hplain
  refine ⟨hhonest.read_of_plain hnames hknows, fun v hv => ?_⟩
  obtain ⟨s, hs, hplain⟩ := hplain v hv
  rw [hs, hhonest.readAs_own hv (hknows v hv) hs hplain]

/-- **The text of operators is read back as the tree,** exactly when no operator leaves a right operand of its own level
without parentheses. What is read belongs to no other tree, types aside. -/
theorem operators_text_reads_back {t : Tree} (ht : t.Operators) (hone : Naming.OneName t.vars) (w : Wrapper) :
    ∃ text e, t.WrittenAs w text ∧ read? (tokens text) = some e ∧
      (e.ungrouped = t.outline ↔ t.hasPeerOnRight = false) ∧
      ∀ u : Tree, u.Operators → (u.outline = t.outline ↔ u.Alike t) := by
  obtain ⟨hnames, hown⟩ := names_of_plain ht.plainNames hone
  have hread := ht.plain.reads hnames
  refine ⟨t.shown t.naming.ofVariable, t.reading t.naming.readAs, ?_, ?_, ?_, fun u hu => ht.outline_eq_iff hu⟩
  · exact writtenAs_of_draft fun layout => ht.plain.draft ⟨w, layout⟩
  · exact read?_eq_some_iff.mpr (hread.loosen (Nat.zero_le _) (levelOf_le _))
  · exact ht.plain.ungrouped_reading_iff hnames hown

/-- `!(a - (b - -c) < +d) || ~a << (b & c) == d`. -/
def mixedOperators : Tree :=
  .binary .orElse
    (.unary .not (some (.binary .lessThan
      (.binary .subtract (number "a") (.binary .subtract (number "b") (.unary .negate (some (number "c")))))
      (.unary .unaryPlus (some (number "d"))))))
    (.binary .equal
      (.binary .leftShift (.unary .onesComplement (some (number "a"))) (.binary .and (number "b") (number "c")))
      (number "d"))

theorem operators_number (name : String) (h : isPlainName name = true) : (number name).Operators := .var rfl h

theorem operators_text_reads_back_mixed :
    mixedOperators.Operators ∧ Naming.OneName mixedOperators.vars ∧ mixedOperators.hasPeerOnRight = false ∧
      ∃ text e, mixedOperators.WrittenAs {} text ∧ read? (tokens text) = some e ∧
        (e.ungrouped = mixedOperators.outline ↔ mixedOperators.hasPeerOnRight = false) ∧
        ∀ u : Tree, u.Operators → (u.outline = mixedOperators.outline ↔ u.Alike mixedOperators) := by
  have ha := operators_number "a" (by decide)
  have hb := operators_number "b" (by decide)
  have hc := operators_number "c" (by decide)
  have hd := operators_number "d" (by decide)
  have hoperators : mixedOperators.Operators :=
    .binary _ rfl
      (.unary _ rfl (by decide) (.binary _ rfl
        (.binary _ rfl ha (.binary _ rfl hb (.unary _ rfl nofun hc))) (.unary _ rfl nofun hd)))
      (.binary _ rfl (.binary _ rfl (.unary _ rfl nofun ha) (.binary _ rfl hb hc)) hd)
  have hone : Naming.OneName mixedOperators.vars := by
    unfold Naming.OneName
    decide
  exact ⟨hoperators, hone, by decide, operators_text_reads_back hoperators hone {}⟩

end Tree

end Scribe
