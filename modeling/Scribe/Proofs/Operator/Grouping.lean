import Scribe.Proofs.Meaning.Expression
import Scribe.Proofs.Operator.Shown
import Scribe.Proofs.Reading.Name
import Scribe.Proofs.Reading.Reader

/-!
# How the text of operators is read

The text of a plain tree is read back as `Tree.reading`. This is the tree itself up to one thing: a right
operand of the level of its parent that is written without parentheses is not read as one operand. Its
leftmost operand alone becomes the right operand of the parent, and the rest of its chain follows;
`Expr.prepend` is that regrouping.
-/

namespace Scribe

namespace Reading

/-! ## Chains -/

/-- Puts an operator with its left operand in front of a chain of operators of the same level. -/
def Expr.prepend (op : InfixOp) (x : Expr) : Expr → Expr
  | .infixed op' l r =>
    if op'.level = op.level then .infixed op' (prepend op x l) r else .infixed op x (.infixed op' l r)
  | e => .infixed op x e

/-- A word is a name, a number or a truth value. -/
theorem atom?_cases {w : List Char} {e : Expr} (h : atom? w = some e) :
    (∃ s, e = .name s) ∨ (∃ n, e = .number n) ∨ ∃ b, e = .truth b := by
  unfold atom? at h
  split at h
  · exact .inr (.inr ⟨true, (Option.some.inj h).symm⟩)
  split at h
  · exact .inr (.inr ⟨false, (Option.some.inj h).symm⟩)
  split at h
  · split at h
    · exact .inr (.inl ⟨_, (Option.some.inj h).symm⟩)
    · cases h
  · obtain ⟨s, -, hs⟩ := Option.map_eq_some_iff.mp h
    exact .inl ⟨s, hs.symm⟩

/-- An operator that is read at a level is not looser than it. -/
theorem Reads.level_le {k : Nat} {ts : List Token} {op : InfixOp} {l r : Expr}
    (h : Reads k ts (.infixed op l r)) : k ≤ op.level := by
  generalize he : Expr.infixed op l r = e at h
  induction h with
  | infixed op' _ _ _ _ =>
    cases he
    exact Nat.le_refl _
  | tighter _ _ ih => exact Nat.le_of_succ_le (ih he)
  | atom h =>
    subst he
    rcases atom?_cases h with ⟨s, hs⟩ | ⟨n, hn⟩ | ⟨b, hb⟩
    · cases hs
    · cases hn
    · cases hb
  | _ => cases he

/-- An expression of the next level is no chain of this level. -/
theorem Reads.prepend_eq {op : InfixOp} {us : List Token} {e : Expr} (he : Reads (op.level + 1) us e)
    (x : Expr) : Expr.prepend op x e = .infixed op x e := by
  cases e with
  | infixed op' l r =>
    have hlevel := he.level_le
    rw [Expr.prepend, if_neg (by omega)]
  | _ => rfl

/-- **What is written behind an operator without parentheses is read as a chain.** -/
theorem Reads.prepend {op : InfixOp} (hop : op ≠ .coalesce) {ts us : List Token} {x e : Expr} (hx : Reads op.level ts x)
    (he : Reads op.level us e) : Reads op.level (ts ++ .sign op.sign :: us) (Expr.prepend op x e) := by
  obtain ⟨hlow, hhigh⟩ := op.level_bounds
  have hnode {vs : List Token} {r : Expr} (hr : Reads (op.level + 1) vs r) :
      Reads op.level (ts ++ .sign op.sign :: vs) (.infixed op x r) := by
    have hleft : op.leftLevel = op.level := if_neg hop
    have hright : op.rightLevel = op.level + 1 := if_neg hop
    exact .infixed op (hleft.symm ▸ hx) (hright.symm ▸ hr)
  generalize hk : op.level = k at he
  induction he with
  | @infixed op' us vs l r hl hr ihl _ =>
    have hop' : op' ≠ .coalesce := by
      rw [Ne, ← InfixOp.level_eq_one_iff] at hop ⊢
      omega
    have hleft : op'.leftLevel = op'.level := if_neg hop'
    have hchain := ihl (hk.trans hleft.symm)
    rw [Expr.prepend, if_pos hk.symm]
    rw [← List.cons_append, ← List.append_assoc]
    exact .infixed op' hchain hr
  | @tighter k us e hlt h _ =>
    subst hk
    rw [h.prepend_eq]
    exact hnode h
  | _ => omega

/-! ## Tokens around operators -/

theorem InfixOp.lex_sign (op : InfixOp) : lex op.sign = [.sign op.sign] := by cases op <;> decide

theorem tokens_spaced {sign : List Char} (h : lex sign = [.sign sign]) (s t : String) :
    tokens (s ++ (" " ++ String.ofList sign ++ " " ++ t)) = tokens s ++ .sign sign :: tokens t := by
  have hchars : (s ++ (" " ++ String.ofList sign ++ " " ++ t)).toList
      = s.toList ++ ' ' :: (sign ++ ' ' :: t.toList) := by
    simp
  unfold tokens
  rw [hchars, lex_blank rfl, lex_blank rfl, h]
  rfl

theorem tokens_grouped (s : String) : tokens ("(" ++ (s ++ ")")) = .sign ['('] :: (tokens s ++ [.sign [')']]) := by
  have hchars : ("(" ++ (s ++ ")")).toList = [] ++ '(' :: (s.toList ++ ')' :: []) := by simp
  unfold tokens
  rw [hchars, lex_delimiter (by decide), lex_delimiter (by decide)]
  rfl

theorem tokens_prefixed {op : PrefixOp} {s : String} (h : Apart (some (.sign op.sign)) s.toList) :
    tokens (String.ofList op.sign ++ s) = .sign op.sign :: tokens s := by
  have hsign : pending op.sign = some (.sign op.sign) ∧ lex op.sign = [.sign op.sign] := by
    cases op <;> decide
  have hcut : Apart (pending (String.ofList op.sign).toList) s.toList := by
    rw [String.toList_ofList, hsign.1]
    exact h
  rw [tokens_append hcut, tokens, String.toList_ofList, hsign.2]
  rfl

/-- A character of a word does not go on with a sign. -/
theorem extend?_of_not_isSign {c : Char} (hc : isSign c = false) (s : List Char) : (Token.sign s).extend? c = none := by
  have hlong : (longSigns.all fun s => s.all isSign) = true := by decide
  refine if_neg fun hmem => ?_
  have hall := List.all_eq_true.mp hlong _ (List.contains_iff_mem.mp hmem)
  have hsign := List.all_eq_true.mp hall c (List.mem_append_right s List.mem_cons_self)
  rw [hc] at hsign
  cases hsign

theorem apart_of_isWord {w : List Char} (h : isWord w = true) (s : List Char) : Apart (some (.sign s)) w := by
  intro c hc
  have hmem : c ∈ w := List.mem_of_head? hc
  exact Or.inr (extend?_of_not_isSign ((isWord_iff.mp h).2 c hmem).2 s)

/-! ## Numbers -/

/-- The digits of a number are a word that is read as the number. -/
theorem digits_read (n : Nat) : isWord (toString n).toList = true ∧ atom? (toString n).toList = some (.number n) := by
  have hdigits : (toString n).toList = Nat.toDigits 10 n := by simp
  have hall : ∀ c ∈ Nat.toDigits 10 n, c.isDigit = true := fun c hc =>
    Nat.isDigit_of_mem_toDigits (by decide) (by decide) hc
  have hfirst : ∃ c cs, Nat.toDigits 10 n = c :: cs := List.exists_cons_of_ne_nil Nat.toDigits_ne_nil
  obtain ⟨c, cs, hcons⟩ := hfirst
  have hc : c.isDigit = true := hall c (by rw [hcons]; exact List.mem_cons_self)
  rw [hdigits]
  constructor
  · refine isWord_iff.mpr ⟨Nat.toDigits_ne_nil, fun c hc => isDigit_word (hall c hc)⟩
  · have htrue : Nat.toDigits 10 n ≠ ['t', 'r', 'u', 'e'] := by
      intro heq
      rw [heq] at hall
      exact absurd (hall 't' (by decide)) (by decide)
    have hfalse : Nat.toDigits 10 n ≠ ['f', 'a', 'l', 's', 'e'] := by
      intro heq
      rw [heq] at hall
      exact absurd (hall 'f' (by decide)) (by decide)
    have hhead : (Nat.toDigits 10 n).head?.any Char.isDigit = true := by
      rw [hcons]
      exact hc
    unfold atom?
    rw [if_neg htrue, if_neg hfalse, if_pos hhead, if_pos (List.all_eq_true.mpr hall),
      Nat.ofDigitChars_ten_toDigits]

/-- A number that is not negative is written with its digits alone. -/
theorem toString_toInt {n : Int32} (h : 0 ≤ n) : toString n.toInt = toString n.toInt.toNat := by
  have hnonneg : 0 ≤ n.toInt := Int32.le_iff_toInt_le.mp h
  obtain ⟨k, hk⟩ := Int.eq_ofNat_of_zero_le hnonneg
  rw [hk]
  rfl

end Reading

/-! ## Reading the text of a tree -/

open Reading

namespace Tree

/-- What an operand under a `parent` is read as. -/
def readUnder (parent : Kind) (isRight : Bool) (t : Tree) (e : Expr) : Expr :=
  if parent.groups t.precedence isRight then .grouped e else e

/-- What the text of a plain tree is read as, when its variables are read as `μ`. -/
def reading (μ : Ident → String) (t : Tree) : Expr :=
  t.fold fun
    | .var v => .name (μ v.id)
    | .constant (.int n) _ => .number n.toInt.toNat
    | .binary op l r _ =>
      match op.sign? with
      | some s => Expr.prepend s (readUnder (.binary op) false l.1 l.2) (readUnder (.binary op) true r.1 r.2)
      | none => .truth false
    | .unary op (some e) _ =>
      match op.sign? e.1.ty.isIntegral with
      | some s => .prefixed s (readUnder (.unary op) false e.1 e.2)
      | none => .truth false
    | .conditional c a b _ =>
      .choice (readUnder (.shape .conditional) false c.1 c.2) (readUnder (.shape .conditional) false a.1 a.2)
        (readUnder (.shape .conditional) false b.1 b.2)
    | _ => .truth false

section Equations

variable (μ : Ident → String)

theorem reading_var (v : Variable) : (Tree.mk (.var v)).reading μ = .name (μ v.id) := by
  rw [reading, fold_mk]
  rfl

theorem reading_number (n : Int32) (ty : Ty) : (Tree.mk (.constant (.int n) ty)).reading μ = .number n.toInt.toNat := by
  rw [reading, fold_mk]
  rfl

theorem reading_binary {op : BinaryOp} {s : InfixOp} (h : op.sign? = some s) (l r : Tree) (ty : Ty) :
    (Tree.mk (.binary op l r ty)).reading μ =
      Expr.prepend s (readUnder (.binary op) false l (l.reading μ))
        (readUnder (.binary op) true r (r.reading μ)) := by
  rw [reading, fold_mk]
  simp only [Node.map, withFold, h]
  rfl

theorem reading_unary {op : UnaryOp} {s : PrefixOp} {e : Tree} (h : op.sign? e.ty.isIntegral = some s) (ty : Ty) :
    (Tree.mk (.unary op (some e) ty)).reading μ = .prefixed s (readUnder (.unary op) false e (e.reading μ)) := by
  rw [reading, fold_mk]
  simp only [Node.map, withFold, Option.map_some, h]
  rfl

theorem reading_conditional (c a b : Tree) (ty : Ty) :
    (Tree.mk (.conditional c a b ty)).reading μ =
      .choice (readUnder (.shape .conditional) false c (c.reading μ))
        (readUnder (.shape .conditional) false a (a.reading μ))
        (readUnder (.shape .conditional) false b (b.reading μ)) := by
  rw [reading, fold_mk]
  rfl

end Equations

/-! ### Values -/

theorem readUnder_eval {parent : Kind} {isRight : Bool} {t : Tree} {e : Expr} (σ : String → Datum) :
    (readUnder parent isRight t e).eval σ = e.eval σ := by
  unfold readUnder
  split <;> rfl

/-- The sign of an operation means the operation. -/
theorem join_of_sign? {op : BinaryOp} {s : InfixOp} (h : op.sign? = some s) (x y : Result) :
    s.join x y = op.join x y := by
  have happly : s.apply = op.apply := by
    funext a b
    cases op <;> cases h <;> cases a <;> cases b <;> rfl
  cases op <;> cases h
  case andAlso => rfl
  case orElse => rfl
  all_goals exact congrArg (fun f => Result.combine f x y) happly

/-! ### Levels -/

/-- The level of the grammar at which what has a precedence is read. -/
def levelOf (precedence : Nat) : Nat := if precedence = 2 then 0 else min (precedence - 1) 12

theorem levelOf_le (p : Nat) : levelOf p ≤ 12 := by
  unfold levelOf
  split <;> omega

theorem levelOf_mono {p q : Nat} (h : p ≤ q) (hp : 2 ≤ p) : levelOf p ≤ levelOf q := by
  unfold levelOf
  split <;> split <;> omega

theorem precedence_of_sign? {op : BinaryOp} {s : InfixOp} (h : op.sign? = some s) :
    (Kind.binary op).precedence = s.level + 1 ∧ s ≠ .coalesce := by
  cases op <;> cases h <;> decide

theorem precedence_unary_of_sign? {op : UnaryOp} {s : PrefixOp} {integral : Bool}
    (h : op.sign? integral = some s) : (Kind.unary op).precedence = 13 := by
  cases op <;> cases integral <;> cases h <;> decide

theorem precedence_number {n : Int32} (h : 0 ≤ n) (ty : Ty) :
    (Tree.mk (.constant (.int n) ty)).precedence = Kind.primary := by
  refine if_neg ?_
  simpa [Value.isNegative] using h

/-- An operand that is not grouped binds at least as strongly as its parent. -/
theorem precedence_le_of_not_groups {parent : Kind} {p : Nat} {isRight : Bool}
    (h : ¬ parent.groups p isRight = true) : parent.precedence ≤ p := by
  unfold Kind.groups at h
  split at h
  · next heq => exact Nat.le_of_eq heq.symm
  · simpa using h

/-! ### Operands -/

section Operands

variable {t : Tree} {s : String} {e : Expr}

/-- An operand is read at the level of its parent. -/
theorem reads_under (h : Reads (levelOf t.precedence) (tokens s) e) {parent : Kind}
    (hp : 2 ≤ parent.precedence) (isRight : Bool) :
    Reads (levelOf parent.precedence) (tokens (shownUnder parent isRight t s))
      (readUnder parent isRight t e) := by
  unfold shownUnder readUnder
  split
  · rw [tokens_grouped]
    have hinner := h.loosen (Nat.zero_le _) (levelOf_le _)
    exact (Reads.grouped hinner).loosen (levelOf_le _) (Nat.le_refl 12)
  · next hgroups =>
    exact h.loosen (levelOf_mono (precedence_le_of_not_groups hgroups) hp) (levelOf_le _)

/-- The parts of a conditional are read as parts of a conditional; a conditional among them is grouped. -/
theorem reads_under_conditional (h : Reads (levelOf t.precedence) (tokens s) e) :
    Reads 1 (tokens (shownUnder (.shape .conditional) false t s))
      (readUnder (.shape .conditional) false t e) := by
  unfold shownUnder readUnder
  split
  · rw [tokens_grouped]
    have hinner := h.loosen (Nat.zero_le _) (levelOf_le _)
    exact (Reads.grouped hinner).loosen (by decide) (Nat.le_refl 12)
  · next hgroups =>
    have hle := precedence_le_of_not_groups hgroups
    have hne : t.precedence ≠ 2 := by
      intro heq
      rw [heq] at hgroups
      exact hgroups rfl
    have hlevel : 1 ≤ levelOf t.precedence := by
      have hconditional : Kind.precedence (.shape .conditional) = 2 := rfl
      unfold levelOf
      rw [if_neg hne]
      omega
    exact h.loosen hlevel (levelOf_le _)

end Operands

theorem reads_conditional {ν : Ident → String} {c a b : Tree} {x y z : Expr} (ty : Ty)
    (hc : Reads (levelOf c.precedence) (tokens (c.shown ν)) x)
    (ha : Reads (levelOf a.precedence) (tokens (a.shown ν)) y)
    (hb : Reads (levelOf b.precedence) (tokens (b.shown ν)) z) :
    Reads 0 (tokens ((Tree.mk (.conditional c a b ty)).shown ν))
      (.choice (readUnder (.shape .conditional) false c x) (readUnder (.shape .conditional) false a y)
        (readUnder (.shape .conditional) false b z)) := by
  have hquestion : (" ? " : String) = " " ++ String.ofList ['?'] ++ " " := by decide
  have hcolon : (" : " : String) = " " ++ String.ofList [':'] ++ " " := by decide
  rw [shown_conditional, hquestion, hcolon, tokens_spaced (by decide), tokens_spaced (by decide)]
  exact .choice (reads_under_conditional hc) (.tighter (by decide) (reads_under_conditional ha))
    (.tighter (by decide) (reads_under_conditional hb))

/-- A plain tree binds at least as strongly as a conditional. -/
theorem Plain.two_le_precedence {t : Tree} (h : t.Plain) : 2 ≤ t.precedence := by
  cases h with
  | var v =>
    show 2 ≤ Kind.primary
    decide
  | number ty hn =>
    rw [precedence_number hn]
    decide
  | binary ty hs hl hr =>
    show 2 ≤ (Kind.binary _).precedence
    have hprecedence := (precedence_of_sign? hs).1
    have hlevel := (InfixOp.level_bounds ‹InfixOp›).1
    omega
  | unary ty hs he =>
    show 2 ≤ (Kind.unary _).precedence
    rw [precedence_unary_of_sign? hs]
    decide
  | conditional _ _ _ _ => exact Nat.le_refl 2

/-- The signs that stand directly in front of another sign. -/
theorem sign_of_not_groups {op : UnaryOp} {s : PrefixOp} {integral : Bool} (hs : op.sign? integral = some s)
    (h : ¬ (Kind.unary op).groups 13 false = true) : s = .complement ∨ s = .not := by
  cases op <;> cases integral <;> cases hs <;> revert h <;> decide

/-- A sign in front of an operand is read as a sign of its own. -/
theorem Plain.apart {ν μ : Ident → String} {e : Tree} (he : e.Plain) (hnames : NamesRead ν μ e.vars)
    {op : UnaryOp} {s : PrefixOp} (hs : op.sign? e.ty.isIntegral = some s) :
    Apart (some (.sign s.sign)) (shownUnder (.unary op) false e (e.shown ν)).toList := by
  have hparent := precedence_unary_of_sign? hs
  unfold shownUnder
  split
  · intro c hc
    obtain rfl : c = '(' := by simpa using hc.symm
    exact Or.inr ((Token.sign s.sign).extend?_delimiter (by decide))
  · next hgroups =>
    have hle := precedence_le_of_not_groups hgroups
    -- only a sign could go on with a sign; operands with looser operators are in parentheses
    cases he with
    | var v =>
      rw [shown_var]
      exact apart_of_isWord (hnames v (by simp [vars_var])).1 _
    | number ty hn =>
      rw [shown_number, toString_toInt hn]
      exact apart_of_isWord (digits_read _).1 _
    | @binary op' s' l r ty hs' hl hr =>
      have hbelow : (Tree.mk (.binary op' l r ty)).precedence = s'.level + 1 := (precedence_of_sign? hs').1
      have hlevel := s'.level_bounds
      omega
    | @unary op' s' e' ty hs' he' =>
      have hpeer : (Tree.mk (.unary op' (some e') ty)).precedence = 13 := precedence_unary_of_sign? hs'
      rw [hpeer] at hgroups
      have hsign := sign_of_not_groups hs hgroups
      rw [shown_unary ν hs']
      intro c hc
      rw [String.toList_append, String.toList_ofList] at hc
      refine Or.inr ?_
      rcases hsign with rfl | rfl <;> cases s' <;> cases hc <;> decide
    | @conditional c a b ty _ _ _ _ =>
      have hbelow : (Tree.mk (.conditional c a b ty)).precedence = 2 := rfl
      omega

/-- **The text of a plain tree is read as its reading.** -/
theorem Plain.reads {ν μ : Ident → String} {t : Tree} (h : t.Plain) (hnames : NamesRead ν μ t.vars) :
    Reads (levelOf t.precedence) (tokens (t.shown ν)) (t.reading μ) := by
  -- an operand is in parentheses unless it is read at the level that its operator asks for
  induction h with
  | var v =>
    obtain ⟨hword, hatom⟩ := hnames v (by simp [vars_var])
    rw [shown_var, reading_var, tokens, lex_of_isWord hword]
    exact .atom hatom
  | @number n ty hn =>
    obtain ⟨hword, hatom⟩ := digits_read n.toInt.toNat
    rw [shown_number, reading_number, toString_toInt hn, tokens, lex_of_isWord hword, precedence_number hn]
    exact .atom hatom
  | @binary op s l r ty hs hl hr ihl ihr =>
    obtain ⟨hprecedence, hne⟩ := precedence_of_sign? hs
    have hbounds := s.level_bounds
    have hparent : 2 ≤ (Kind.binary op).precedence := by omega
    have hlevel : levelOf (Kind.binary op).precedence = s.level := by
      have hone := mt s.level_eq_one_iff.mp hne
      unfold levelOf
      rw [hprecedence, if_neg (by omega)]
      omega
    rw [vars_binary] at hnames
    have hleft := reads_under (ihl fun v hv => hnames v (List.mem_append_left _ hv)) hparent false
    have hright := reads_under (ihr fun v hv => hnames v (List.mem_append_right _ hv)) hparent true
    rw [hlevel] at hleft hright
    show Reads (levelOf (Kind.binary op).precedence) _ _
    rw [shown_binary ν hs, reading_binary μ hs, tokens_spaced s.lex_sign, hlevel]
    exact hleft.prepend hne hright
  | @unary op s e ty hs he ih =>
    rw [vars_unary] at hnames
    have hprecedence := precedence_unary_of_sign? hs
    have hoperand := reads_under (ih hnames) (hprecedence ▸ by decide : 2 ≤ (Kind.unary op).precedence) false
    show Reads (levelOf (Kind.unary op).precedence) _ _
    rw [shown_unary ν hs, reading_unary μ hs, tokens_prefixed (he.apart hnames hs), hprecedence]
    rw [hprecedence] at hoperand
    exact .prefixed s hoperand
  | @conditional c a b ty hty hc ha hb ihc iha ihb =>
    rw [vars_conditional] at hnames
    rw [reading_conditional]
    exact reads_conditional ty (ihc fun v hv => hnames v (by simp [hv])) (iha fun v hv => hnames v (by simp [hv]))
      (ihb fun v hv => hnames v (by simp [hv]))

end Tree

end Scribe
