import Scribe.Proofs.Reading.Expression
import Scribe.Proofs.Text.Page
import Scribe.Proofs.Writing.Names
import Scribe.Proofs.Writing.Run
import Scribe.Writing.Node

/-!
# The text of operators

`Tree.Plain` are the trees of operators over variables and numbers. Nothing but signs, names, digits and
parentheses is written for them: `Tree.shown` is that text, once it is known what the variables are
called, and `Tree.Plain.puts` says that writing such a tree adds exactly this text.
-/

namespace Scribe

open Reading (InfixOp PrefixOp)

/-! ## Operators and their signs -/

/-- The sign that an operator is written with between its operands. -/
def BinaryOp.sign? : BinaryOp → Option InfixOp
  | .add => some .plus
  | .subtract => some .minus
  | .multiply => some .times
  | .divide => some .over
  | .modulo => some .remainder
  | .and => some .and
  | .or => some .or
  | .exclusiveOr => some .xor
  | .andAlso => some .andAlso
  | .orElse => some .orElse
  | .leftShift => some .shiftLeft
  | .rightShift => some .shiftRight
  | .equal => some .equal
  | .notEqual => some .unequal
  | .lessThan => some .less
  | .lessThanOrEqual => some .lessEqual
  | .greaterThan => some .greater
  | .greaterThanOrEqual => some .greaterEqual
  | _ => none

/-- The operator that is written with a sign. -/
def BinaryOp.ofSign : InfixOp → BinaryOp
  | .plus => .add | .minus => .subtract | .times => .multiply | .over => .divide | .remainder => .modulo
  | .and => .and | .or => .or | .xor => .exclusiveOr | .andAlso => .andAlso | .orElse => .orElse
  | .shiftLeft => .leftShift | .shiftRight => .rightShift | .equal => .equal | .unequal => .notEqual
  | .less => .lessThan | .lessEqual => .lessThanOrEqual | .greater => .greaterThan
  | .greaterEqual => .greaterThanOrEqual | .coalesce => .coalesce

theorem BinaryOp.eq_ofSign {op : BinaryOp} {s : InfixOp} (h : op.sign? = some s) : op = ofSign s := by
  cases op <;> cases h <;> rfl

/-- The sign that an operator is written with in front of its operand. -/
def UnaryOp.sign? (op : UnaryOp) (integral : Bool) : Option PrefixOp :=
  match op with
  | .negate => some .minus
  | .unaryPlus => some .plus
  | .onesComplement => some .complement
  | .not => some (if integral then .complement else .not)
  | _ => none

theorem BinaryOp.token?_of_sign? {op : BinaryOp} {s : InfixOp} (h : op.sign? = some s) :
    (Kind.binary op).token? = some (String.ofList s.sign) := by
  cases op <;> cases h <;> rfl

theorem UnaryOp.tokenBefore_of_sign? {op : UnaryOp} {s : PrefixOp} {integral : Bool} (h : op.sign? integral = some s) :
    (Kind.unary op).tokenBefore integral = String.ofList s.sign ∧ (Kind.unary op).tokenAfter = "" := by
  cases op <;> cases integral <;> cases h <;> exact ⟨rfl, rfl⟩

/-! ## Plain trees -/

/-- Trees of operators over variables and numbers. -/
inductive Tree.Plain : Tree → Prop where
  | var (v : Variable) : Plain (.mk (.var v))
  | number {n : Int32} (ty : Ty) : 0 ≤ n → Plain (.mk (.constant (.int n) ty))
  | binary {op : BinaryOp} {s : InfixOp} {l r : Tree} (ty : Ty) :
      op.sign? = some s → Plain l → Plain r → Plain (.mk (.binary op l r ty))
  | unary {op : UnaryOp} {s : PrefixOp} {e : Tree} (ty : Ty) :
      op.sign? e.ty.isIntegral = some s → Plain e → Plain (.mk (.unary op (some e) ty))
  | conditional {c a b : Tree} {ty : Ty} :
      ty.isVoid = false → Plain c → Plain a → Plain b → Plain (.mk (.conditional c a b ty))

namespace Tree

/-- The variables of a tree, in the order in which they occur. -/
def vars (t : Tree) : List Variable :=
  t.fold fun
    | .var v => [v]
    | n => n.children.flatMap (·.2)

/-- The text of an operand under a `parent`. -/
def shownUnder (parent : Kind) (isRight : Bool) (t : Tree) (s : String) : String :=
  if parent.groups t.precedence isRight then "(" ++ (s ++ ")") else s

/-- The text of a plain tree whose variables are called `ν`. -/
def shown (ν : Ident → String) (t : Tree) : String :=
  t.fold fun
    | .var v => ν v.id
    | .constant (.int n) _ => toString n.toInt
    | .binary op l r _ =>
      shownUnder (.binary op) false l.1 l.2 ++
        (" " ++ (Kind.binary op).token?.getD "" ++ " " ++ shownUnder (.binary op) true r.1 r.2)
    | .unary op (some e) _ =>
      (Kind.unary op).tokenBefore e.1.ty.isIntegral ++ shownUnder (.unary op) false e.1 e.2
    | .conditional c a b _ =>
      shownUnder (.shape .conditional) false c.1 c.2 ++
        (" ? " ++ (shownUnder (.shape .conditional) false a.1 a.2 ++
          (" : " ++ shownUnder (.shape .conditional) false b.1 b.2)))
    | _ => ""

section Equations

variable (ν : Ident → String)

theorem vars_var (v : Variable) : (Tree.mk (.var v)).vars = [v] := by
  rw [vars, fold_mk]
  rfl

theorem vars_number (n : Value) (ty : Ty) : (Tree.mk (.constant n ty)).vars = [] := by
  rw [vars, fold_mk]
  rfl

theorem vars_binary (op : BinaryOp) (l r : Tree) (ty : Ty) : (Tree.mk (.binary op l r ty)).vars = l.vars ++ r.vars := by
  rw [vars, fold_mk]
  simp [Node.map, Node.children, withFold, vars]

theorem vars_unary (op : UnaryOp) (e : Tree) (ty : Ty) : (Tree.mk (.unary op (some e) ty)).vars = e.vars := by
  rw [vars, fold_mk]
  simp [Node.map, Node.children, withFold, vars]

theorem vars_conditional (c a b : Tree) (ty : Ty) :
    (Tree.mk (.conditional c a b ty)).vars = c.vars ++ (a.vars ++ b.vars) := by
  rw [vars, fold_mk]
  simp [Node.map, Node.children, withFold, vars]

theorem shown_var (v : Variable) : (Tree.mk (.var v)).shown ν = ν v.id := by
  rw [shown, fold_mk]
  rfl

theorem shown_number (n : Int32) (ty : Ty) : (Tree.mk (.constant (.int n) ty)).shown ν = toString n.toInt := by
  rw [shown, fold_mk]
  rfl

theorem shown_infixed {op : BinaryOp} {token : String} (h : (Kind.binary op).token? = some token) (l r : Tree)
    (ty : Ty) :
    (Tree.mk (.binary op l r ty)).shown ν =
      shownUnder (.binary op) false l (l.shown ν) ++
        (" " ++ token ++ " " ++ shownUnder (.binary op) true r (r.shown ν)) := by
  rw [shown, fold_mk]
  simp only [Node.map, withFold, h, Option.getD_some]
  rfl

theorem shown_binary {op : BinaryOp} {s : InfixOp} (h : op.sign? = some s) (l r : Tree) (ty : Ty) :
    (Tree.mk (.binary op l r ty)).shown ν =
      shownUnder (.binary op) false l (l.shown ν) ++
        (" " ++ String.ofList s.sign ++ " " ++ shownUnder (.binary op) true r (r.shown ν)) :=
  shown_infixed ν (BinaryOp.token?_of_sign? h) l r ty

theorem shown_unary {op : UnaryOp} {s : PrefixOp} {e : Tree} (h : op.sign? e.ty.isIntegral = some s) (ty : Ty) :
    (Tree.mk (.unary op (some e) ty)).shown ν =
      String.ofList s.sign ++ shownUnder (.unary op) false e (e.shown ν) := by
  rw [shown, fold_mk]
  simp only [Node.map, withFold, Option.map_some, (UnaryOp.tokenBefore_of_sign? h).1]
  rfl

theorem shown_conditional (c a b : Tree) (ty : Ty) :
    (Tree.mk (.conditional c a b ty)).shown ν =
      shownUnder (.shape .conditional) false c (c.shown ν) ++
        (" ? " ++ (shownUnder (.shape .conditional) false a (a.shown ν) ++
          (" : " ++ shownUnder (.shape .conditional) false b (b.shown ν)))) := by
  rw [shown, fold_mk]
  rfl

end Equations

/-- The text depends on what the variables of the tree are called, and on nothing else. -/
theorem Plain.shown_congr {t : Tree} (h : t.Plain) {ν μ : Ident → String}
    (hnames : ∀ v ∈ t.vars, ν v.id = μ v.id) : t.shown ν = t.shown μ := by
  induction h with
  | var v => rw [shown_var, shown_var, hnames v (by simp [vars_var])]
  | number ty _ => rw [shown_number, shown_number]
  | binary ty hs _ _ ihl ihr =>
    rw [vars_binary] at hnames
    rw [shown_binary ν hs, shown_binary μ hs, ihl fun v hv => hnames v (List.mem_append_left _ hv),
      ihr fun v hv => hnames v (List.mem_append_right _ hv)]
  | unary ty hs _ ih =>
    rw [vars_unary] at hnames
    rw [shown_unary ν hs, shown_unary μ hs, ih hnames]
  | conditional _ _ _ _ ihc iha ihb =>
    rw [vars_conditional] at hnames
    rw [shown_conditional, shown_conditional, ihc fun v hv => hnames v (by simp [hv]),
      iha fun v hv => hnames v (by simp [hv]), ihb fun v hv => hnames v (by simp [hv])]

theorem Plain.isExpression {t : Tree} (h : t.Plain) : t.isExpression = true := by
  induction h with
  | conditional hty _ _ _ _ iha ihb => simp [isExpression_conditional, hty, iha, ihb]
  | _ =>
    rw [Tree.isExpression, fold_mk]
    rfl

/-- The tree is written as an expression whose text depends on what its variables are called. -/
structure Shows (t : Tree) : Prop where
  isExpression : t.isExpression = true
  congr {ν μ : Ident → String} : (∀ v ∈ t.vars, ν v.id = μ v.id) → t.shown ν = t.shown μ

theorem Plain.shows {t : Tree} (h : t.Plain) : t.Shows := ⟨h.isExpression, h.shown_congr⟩

end Tree

/-! ## What a step puts on the line -/

namespace Writing

variable {α β : Type} {desk : Desk} {d : Draft} {s t : String} {n m : Naming}

/-- The step writes `s` on the current line and leaves the names `n`; nothing else changes. -/
def Puts (x : Writing α) (desk : Desk) (d : Draft) (s : String) (n : Naming) : Prop :=
  ∃ a, x desk d = .ok (a, { d with page := d.page.write s, naming := n })

/-- One step after the other puts one text behind the other. -/
theorem Puts.bind {x : Writing α} {f : α → Writing β} (hx : Puts x desk d s n)
    (hf : ∀ a, Puts (f a) desk { d with page := d.page.write s, naming := n } t m) :
    Puts (x >>= f) desk d (s ++ t) m := by
  obtain ⟨a, ha⟩ := hx
  obtain ⟨b, hb⟩ := hf a
  refine ⟨b, ?_⟩
  rw [bind_apply, ha]
  simp only
  rw [hb, Text.Page.write_write]

theorem puts_pure (a : α) : Puts (pure a : Writing α) desk d "" d.naming := ⟨a, rfl⟩

theorem puts_put (s : String) : Puts (put s) desk d s d.naming := ⟨⟨⟩, rfl⟩

theorem Puts.map {x : Writing α} (hx : Puts x desk d s n) (f : α → β) :
    Puts (x >>= fun a => pure (f a)) desk d s n := by
  have hbind := hx.bind (f := fun a => pure (f a)) fun a => puts_pure (f a)
  rw [String.append_empty] at hbind
  exact hbind

/-- A variable that is declared elsewhere is written by its name. -/
theorem putVariable_puts (v : Variable) (h : d.undeclared = []) :
    Puts (putVariable v) desk d ((d.naming.nameVariable v).2.ofVariable v.id) (d.naming.nameVariable v).2 := by
  refine ⟨v.written (d.naming.nameVariable v).1, ?_⟩
  rw [← Naming.nameVariable_fst]
  unfold putVariable naming
  simp only [bind_apply, modifyGet_apply, get_apply, h]
  rfl

end Writing

namespace Tree

open Writing

variable {desk : Desk} {d : Draft} {t : Tree}

/-- The tree is written as it is shown, with the names that its variables have then. -/
def IsPut (t : Tree) (desk : Desk) : Prop :=
  ∀ d : Draft, d.undeclared = [] →
    Puts t.piece.inline desk d (t.shown (d.naming.nameAll t.vars).ofVariable) (d.naming.nameAll t.vars)

/-- An operand is written in parentheses or as it is. -/
theorem IsPut.operand (hput : t.IsPut desk) (h : t.Shows) (hd : d.undeclared = []) (parent : Kind)
    (isRight : Bool) {ν : Ident → String} (hν : ∀ v ∈ t.vars, ν v.id = (d.naming.nameAll t.vars).ofVariable v.id) :
    Puts (t.piece.operand parent isRight) desk d (shownUnder parent isRight t (t.shown ν))
      (d.naming.nameAll t.vars) := by
  have hvalue : t.piece.value = t.piece.inline := if_pos h.isExpression
  have hoperand : t.piece.operand parent isRight =
      if parent.groups t.precedence isRight then t.piece.inParens else t.piece.inline := by
    unfold Piece.operand
    rw [hvalue]
    simp only [piece, h.isExpression, Bool.true_and]
  rw [h.congr hν, hoperand]
  unfold shownUnder
  split
  · unfold Piece.inParens
    rw [hvalue]
    have hinner := hput { d with page := d.page.write "(" } hd
    exact (puts_put "(").bind fun _ => hinner.bind fun u => (puts_put ")").map fun _ => u
  · exact hput d hd

theorem isPut_var (v : Variable) : (Tree.mk (.var v)).IsPut desk := by
  intro d hd
  have hinline : (Tree.mk (.var v)).piece.inline = do
      let w ← putVariable v
      return .mk (.var w) := by
    rw [piece_mk]
    rfl
  rw [hinline, shown_var, vars_var]
  exact (putVariable_puts v hd).map _

theorem isPut_number (n : Int32) (ty : Ty) : (Tree.mk (.constant (.int n) ty)).IsPut desk := by
  intro d hd
  rw [vars_number, shown_number, piece_mk]
  exact ⟨.mk (.constant (.int n) ty), rfl⟩

theorem isPut_binary {op : BinaryOp} {token : String} {l r : Tree} (ty : Ty)
    (htoken : (Kind.binary op).token? = some token) (hl : l.Shows) (hr : r.Shows) (ihl : l.IsPut desk)
    (ihr : r.IsPut desk) : (Tree.mk (.binary op l r ty)).IsPut desk := by
  intro d hd
  have hinline : (Tree.mk (.binary op l r ty)).piece.inline = binaryOperation op l.piece r.piece ty := by
    rw [piece_mk]
    rfl
  rw [hinline, binaryOperation_of_token? htoken, shown_infixed _ htoken, vars_binary, Naming.nameAll_append]
  have hleft := ihl.operand hl hd (.binary op) false (Naming.ofVariable_later d.naming l.vars r.vars)
  refine hleft.bind fun a => (puts_put _).bind fun _ => ?_
  refine Puts.map (ihr.operand hr ?_ (.binary op) true fun _ _ => rfl) _
  exact hd

theorem isPut_unary {op : UnaryOp} {s : PrefixOp} {e : Tree} (ty : Ty) (hs : op.sign? e.ty.isIntegral = some s)
    (he : e.Shows) (ih : e.IsPut desk) : (Tree.mk (.unary op (some e) ty)).IsPut desk := by
  intro d hd
  obtain ⟨hbefore, hafter⟩ := UnaryOp.tokenBefore_of_sign? hs
  have hinline : (Tree.mk (.unary op (some e) ty)).piece.inline = do
      let t ← affixed (.unary op) e.piece
      return .mk (.unary op (some t) ty) := by
    rw [piece_mk]
    show unaryOperation op (some e.piece) ty = _
    unfold unaryOperation
    cases op <;> cases hs <;> rfl
  have haffixed : affixed (.unary op) e.piece = do
      put (String.ofList s.sign)
      let t ← e.piece.operand (.unary op)
      put ""
      return t := by
    unfold affixed
    rw [hafter]
    show (do put ((Kind.unary op).tokenBefore e.ty.isIntegral); _) = _
    rw [hbefore]
  rw [hinline, haffixed, shown_unary _ hs, vars_unary]
  refine Puts.map ?_ _
  refine (puts_put _).bind fun _ => ?_
  have hoperand := ih.operand (d := { d with page := d.page.write (String.ofList s.sign) }) he hd (.unary op)
    false fun _ _ => rfl
  have hend := hoperand.bind fun t => (puts_put "").map fun _ => t
  rw [String.append_empty] at hend
  exact hend

theorem isPut_conditional {c a b : Tree} {ty : Ty} (hty : ty.isVoid = false) (hc : c.Shows) (ha : a.Shows)
    (hb : b.Shows) (ihc : c.IsPut desk) (iha : a.IsPut desk) (ihb : b.IsPut desk) :
    (Tree.mk (.conditional c a b ty)).IsPut desk := by
  intro d hd
  have hinline : (Tree.mk (.conditional c a b ty)).piece.inline = ternary c.piece a.piece b.piece ty := by
    rw [piece_mk]
    refine if_pos ?_
    simp only [hty, piece, ha.isExpression, hb.isExpression]
    rfl
  rw [hinline, shown_conditional, vars_conditional, Naming.nameAll_append, Naming.nameAll_append]
  have htest : ∀ v ∈ c.vars, (((d.naming.nameAll c.vars).nameAll a.vars).nameAll b.vars).ofVariable v.id
      = (d.naming.nameAll c.vars).ofVariable v.id := by
    intro v hv
    have hknows := Naming.knows_nameAll hv d.naming
    rw [Naming.ofVariable_nameAll (hknows.nameAll a.vars), Naming.ofVariable_nameAll hknows]
  unfold ternary
  refine (ihc.operand hc hd _ false htest).bind fun t => (puts_put " ? ").bind fun _ => ?_
  refine Puts.bind (iha.operand ha ?_ _ false (Naming.ofVariable_later _ _ _)) fun u =>
    (puts_put " : ").bind fun _ => ?_
  · exact hd
  refine Puts.map (ihb.operand hb ?_ _ false fun _ _ => rfl) _
  exact hd

/-- **A plain tree is written as it is shown.** -/
theorem Plain.isPut (h : t.Plain) : t.IsPut desk := by
  induction h with
  | var v => exact isPut_var v
  | number ty _ => exact isPut_number _ ty
  | binary ty hs hl hr ihl ihr => exact isPut_binary ty (BinaryOp.token?_of_sign? hs) hl.shows hr.shows ihl ihr
  | unary ty hs he ih => exact isPut_unary ty hs he.shows ih
  | conditional hty hc ha hb ihc iha ihb => exact isPut_conditional hty hc.shows ha.shows hb.shows ihc iha ihb

end Tree

end Scribe
