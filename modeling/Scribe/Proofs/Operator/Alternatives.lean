import Scribe.Proofs.Operator.Roundtrip

/-!
# Coalescing and conditionals

The operator `??` and the conditional have one precedence here, but two levels in the grammar: a conditional is looser
than `??`. A conditional puts each of its parts into parentheses when the part is a conditional or a `??`. The operator
`??` leaves all its operands without parentheses. For a chain of `??` this only changes the association of the chain. A
conditional under `??` is torn apart: a test on the right of `??` becomes part of a longer chain, and a last branch on
its left goes on behind the `??`.

`Expr.coalesce` is how two texts with a `??` between them are read. `Expr.Reassociates` says that expressions differ
only in the association of chains of `??`.
-/

namespace Scribe

namespace Reading

namespace Expr

/-! ## Chains of `??` -/

/-- A chain of `??` that goes on with another expression. -/
def chained : Expr → Expr → Expr
  | .infixed op l r, e =>
    if op = .coalesce then .infixed .coalesce l (chained r e) else .infixed .coalesce (.infixed op l r) e
  | x, e => .infixed .coalesce x e

/-- Two expressions with a `??` between their texts. A conditional on the left takes the rest into its last branch; a
conditional on the right takes what is in front of it into its test. -/
def coalesce : Expr → Expr → Expr
  | .choice c a b, e => .choice c a (coalesce b e)
  | x, .choice c a b => .choice (chained x c) a b
  | x, e => chained x e

/-- Whether the expression is a conditional. -/
def isChoice : Expr → Bool
  | .choice _ _ _ => true
  | _ => false

theorem chained_coalesce (l r e : Expr) :
    chained (.infixed .coalesce l r) e = .infixed .coalesce l (chained r e) := if_pos rfl

theorem chained_infixed {op : InfixOp} (h : op ≠ .coalesce) (l r e : Expr) :
    chained (.infixed op l r) e = .infixed .coalesce (.infixed op l r) e := if_neg h

theorem exists_chained (x e : Expr) : ∃ l r, chained x e = .infixed .coalesce l r := by
  cases x with
  | infixed op l r =>
    by_cases hop : op = .coalesce
    · subst hop
      exact ⟨_, _, chained_coalesce l r e⟩
    · exact ⟨_, _, chained_infixed hop l r e⟩
  | _ => exact ⟨_, _, rfl⟩

theorem chained_assoc (x y z : Expr) : chained (chained x y) z = chained x (chained y z) := by
  induction x with
  | infixed op l r _ ihr =>
    by_cases hop : op = .coalesce
    · subst hop
      rw [chained_coalesce, chained_coalesce, chained_coalesce, ihr]
    · rw [chained_infixed hop, chained_coalesce, chained_infixed hop]
  | _ => exact chained_coalesce _ _ _

theorem coalesce_of_not_isChoice {x e : Expr} (hx : x.isChoice = false) (he : e.isChoice = false) :
    coalesce x e = chained x e := by
  unfold coalesce
  split
  · cases hx
  · cases he
  · rfl

theorem isChoice_coalesce (x e : Expr) : (coalesce x e).isChoice = (x.isChoice || e.isChoice) := by
  unfold coalesce
  split
  · rfl
  · simp [isChoice]
  · next hx he =>
    have hx : x.isChoice = false := by
      cases x with
      | choice c a b => exact absurd rfl (hx c a b)
      | _ => rfl
    have he : e.isChoice = false := by
      cases e with
      | choice c a b => exact absurd rfl (he c a b)
      | _ => rfl
    obtain ⟨l, r, heq⟩ := exists_chained x e
    rw [heq, hx, he]
    rfl

end Expr

/-- What is read at a level behind the loosest one is no conditional. -/
theorem Reads.not_isChoice {k : Nat} {ts : List Token} {e : Expr} (h : Reads k ts e) (hk : 0 < k) :
    e.isChoice = false := by
  induction h with
  | atom h =>
    rcases atom?_cases h with ⟨s, rfl⟩ | ⟨n, rfl⟩ | ⟨b, rfl⟩
    · rfl
    · rfl
    · rfl
  | choice _ _ _ _ _ _ => omega
  | tighter _ _ ih => exact ih (by omega)
  | _ => rfl

/-- A chain that goes on is read as the longer chain. -/
theorem Reads.chained {ts us : List Token} {x e : Expr} (hx : Reads 1 ts x) (he : Reads 1 us e) :
    Reads 1 (ts ++ .sign InfixOp.coalesce.sign :: us) (Expr.chained x e) := by
  generalize hk : 1 = k at hx
  induction hx with
  | @infixed op ts vs l r hl hr _ ihr =>
    obtain rfl := op.level_eq_one_iff.mp hk.symm
    rw [Expr.chained_coalesce, List.append_assoc, List.cons_append]
    exact .infixed .coalesce hl (ihr rfl)
  | @tighter k ts x hlt h _ =>
    subst hk
    have hnode : Expr.chained x e = .infixed .coalesce x e := by
      cases x with
      | infixed op l r =>
        refine Expr.chained_infixed ?_ l r e
        rintro rfl
        exact absurd h.level_le (by decide)
      | _ => rfl
    rw [hnode]
    exact .infixed .coalesce h he
  | _ => omega

/-- **Two texts with a `??` between them.** -/
theorem Reads.coalesce {ts us : List Token} {x e : Expr} (hx : Reads 0 ts x) (he : Reads 0 us e) :
    Reads 0 (ts ++ .sign InfixOp.coalesce.sign :: us) (Expr.coalesce x e) := by
  generalize hk : 0 = k at hx
  induction hx with
  | @infixed op ts vs l r hl hr _ _ =>
    have hbounds := op.level_bounds
    omega
  | @choice ts us' vs c a b hc ha hb _ _ ihb =>
    rw [Expr.coalesce, List.append_assoc, List.cons_append, List.append_assoc, List.cons_append]
    exact .choice hc ha (ihb rfl)
  | @tighter k ts x hlt h _ =>
    subst hk
    have hxchoice := h.not_isChoice (by decide)
    generalize hj : 0 = j at he
    cases he with
    | @choice us vs ws c a b hc ha hb =>
      have hcoalesce : Expr.coalesce x (.choice c a b) = .choice (Expr.chained x c) a b := by
        cases x with
        | choice _ _ _ => cases hxchoice
        | _ => rfl
      rw [hcoalesce, ← List.cons_append, ← List.append_assoc]
      exact .choice (h.chained hc) ha hb
    | @tighter j us e hlt' h' =>
      subst hj
      rw [Expr.coalesce_of_not_isChoice hxchoice (h'.not_isChoice (by decide))]
      exact .tighter (by decide) (h.chained h')
    | @infixed op us vs l r hl hr =>
      have hbounds := op.level_bounds
      omega
    | _ => omega
  | _ => omega

/-! ## Re-association -/

namespace Expr

/-- The expressions differ only in the association of chains of `??`. -/
inductive Reassociates : Expr → Expr → Prop where
  | refl (e : Expr) : Reassociates e e
  | symm {e f : Expr} : Reassociates e f → Reassociates f e
  | trans {e f g : Expr} : Reassociates e f → Reassociates f g → Reassociates e g
  | assoc (x y z : Expr) : Reassociates (.infixed .coalesce (.infixed .coalesce x y) z)
      (.infixed .coalesce x (.infixed .coalesce y z))
  | grouped {e f : Expr} : Reassociates e f → Reassociates (.grouped e) (.grouped f)
  | prefixed (op : PrefixOp) {e f : Expr} : Reassociates e f → Reassociates (.prefixed op e) (.prefixed op f)
  | infixed (op : InfixOp) {l l' r r' : Expr} : Reassociates l l' → Reassociates r r' →
      Reassociates (.infixed op l r) (.infixed op l' r')
  | choice {c c' a a' b b' : Expr} : Reassociates c c' → Reassociates a a' → Reassociates b b' →
      Reassociates (.choice c a b) (.choice c' a' b')

/-- The expression with all chains of `??` associated to the right. -/
def rightward : Expr → Expr
  | .infixed op l r => if op = .coalesce then chained l.rightward r.rightward else .infixed op l.rightward r.rightward
  | .grouped e => .grouped e.rightward
  | .prefixed op e => .prefixed op e.rightward
  | .choice c a b => .choice c.rightward a.rightward b.rightward
  | e => e

theorem rightward_coalesce (l r : Expr) :
    (Expr.infixed .coalesce l r).rightward = chained l.rightward r.rightward := if_pos rfl

theorem reassociates_chained (x e : Expr) : Reassociates (.infixed .coalesce x e) (chained x e) := by
  induction x with
  | infixed op l r _ ihr =>
    by_cases hop : op = .coalesce
    · subst hop
      rw [chained_coalesce]
      exact .trans (.assoc l r e) (.infixed .coalesce (.refl l) ihr)
    · rw [chained_infixed hop]
      exact .refl _
  | _ => exact .refl _

theorem reassociates_rightward (e : Expr) : Reassociates e e.rightward := by
  induction e with
  | infixed op l r ihl ihr =>
    rw [rightward]
    split
    · next hop =>
      subst hop
      exact .trans (.infixed .coalesce ihl ihr) (reassociates_chained _ _)
    · exact .infixed op ihl ihr
  | grouped e ih => exact .grouped ih
  | prefixed op e ih => exact .prefixed op ih
  | choice c a b ihc iha ihb => exact .choice ihc iha ihb
  | _ => exact .refl _

/-- **Expressions that differ in association only are those that are the same once they are associated to the right.** -/
theorem reassociates_iff {e f : Expr} : Reassociates e f ↔ e.rightward = f.rightward := by
  constructor
  · intro h
    induction h with
    | refl _ => rfl
    | symm _ ih => exact ih.symm
    | trans _ _ ih₁ ih₂ => exact ih₁.trans ih₂
    | assoc x y z => simp only [rightward_coalesce, chained_assoc]
    | grouped _ ih | prefixed op _ ih => simp only [rightward, ih]
    | infixed op _ _ ihl ihr => simp only [rightward, ihl, ihr]
    | choice _ _ _ ihc iha ihb => simp only [rightward, ihc, iha, ihb]
  · intro h
    exact .trans (reassociates_rightward e) (h ▸ .symm (reassociates_rightward f))

instance (e f : Expr) : Decidable (Reassociates e f) := decidable_of_iff _ reassociates_iff.symm

/-- Parentheses do not matter for how a chain goes on. -/
theorem rightward_ungrouped_chained (x e : Expr) :
    (chained x e).ungrouped.rightward = chained x.ungrouped.rightward e.ungrouped.rightward := by
  induction x with
  | infixed op l r _ ihr =>
    by_cases hop : op = .coalesce
    · subst hop
      rw [chained_coalesce, ungrouped, rightward_coalesce, ihr, ungrouped, rightward_coalesce, chained_assoc]
    · rw [chained_infixed hop, ungrouped, rightward_coalesce]
  | _ => exact rightward_coalesce _ _

/-- A conditional stays one without parentheses, and when chains are associated to the right. -/
theorem isChoice_rightward_ungrouped {e : Expr} (h : e.isChoice = true) : e.ungrouped.rightward.isChoice = true := by
  cases e with
  | choice c a b => rfl
  | _ => cases h

end Expr

end Reading

open Reading

namespace Tree

/-! ## Trees of alternatives -/

/-- Trees of `??` and conditionals with a value over variables with plain names. -/
inductive Alternatives : Tree → Prop where
  | var {v : Variable} {s : String} : v.name = some s → isPlainName s = true → Alternatives (.mk (.var v))
  | coalesce {l r : Tree} (ty : Ty) : Alternatives l → Alternatives r → Alternatives (.mk (.binary .coalesce l r ty))
  | conditional {c a b : Tree} {ty : Ty} :
      ty.isVoid = false → Alternatives c → Alternatives a → Alternatives b → Alternatives (.mk (.conditional c a b ty))

/-- Whether the tree is a conditional. -/
def isConditional (t : Tree) : Bool :=
  match t.node with
  | .conditional _ _ _ _ => true
  | _ => false

/-- Whether some `??` has a conditional as an operand. -/
def coalescesConditional (t : Tree) : Bool :=
  t.fold fun n =>
    n.children.any (·.2) ||
      match n with
      | .binary .coalesce l r _ => l.1.isConditional || r.1.isConditional
      | _ => false

/-- What the text of alternatives is read as, when variables are read as `μ`. -/
def alternation (μ : Ident → String) (t : Tree) : Expr :=
  t.fold fun
    | .var v => .name (μ v.id)
    | .binary .coalesce l r _ => Expr.coalesce l.2 r.2
    | .conditional c a b _ =>
      .choice (readUnder (.shape .conditional) false c.1 c.2) (readUnder (.shape .conditional) false a.1 a.2)
        (readUnder (.shape .conditional) false b.1 b.2)
    | _ => .truth false

section Equations

variable (μ : Ident → String)

theorem coalescesConditional_coalesce (l r : Tree) (ty : Ty) :
    (Tree.mk (.binary .coalesce l r ty)).coalescesConditional =
      (l.coalescesConditional || r.coalescesConditional || (l.isConditional || r.isConditional)) := by
  rw [coalescesConditional, fold_mk]
  simp only [Node.map, Node.children, withFold, List.any_cons, List.any_nil, Bool.or_false]
  rfl

theorem coalescesConditional_conditional (c a b : Tree) (ty : Ty) :
    (Tree.mk (.conditional c a b ty)).coalescesConditional =
      (c.coalescesConditional || (a.coalescesConditional || b.coalescesConditional)) := by
  rw [coalescesConditional, fold_mk]
  simp only [Node.map, Node.children, withFold, List.any_cons, List.any_nil, Bool.or_false]
  rfl

theorem alternation_var (v : Variable) : (Tree.mk (.var v)).alternation μ = .name (μ v.id) := by
  rw [alternation, fold_mk]
  rfl

theorem alternation_coalesce (l r : Tree) (ty : Ty) :
    (Tree.mk (.binary .coalesce l r ty)).alternation μ = Expr.coalesce (l.alternation μ) (r.alternation μ) := by
  rw [alternation, fold_mk]
  rfl

theorem alternation_conditional (c a b : Tree) (ty : Ty) :
    (Tree.mk (.conditional c a b ty)).alternation μ =
      .choice (readUnder (.shape .conditional) false c (c.alternation μ))
        (readUnder (.shape .conditional) false a (a.alternation μ))
        (readUnder (.shape .conditional) false b (b.alternation μ)) := by
  rw [alternation, fold_mk]
  rfl

end Equations

/-! ## The text of alternatives -/

namespace Alternatives

variable {t : Tree} {ν μ : Ident → String} (h : t.Alternatives)

include h

theorem shows : t.Shows := by
  induction h with
  | @var v _ _ _ => exact (Plain.var v).shows
  | coalesce ty _ _ ihl ihr =>
    refine ⟨by rw [isExpression, fold_mk]; rfl, fun {ν μ} hnames => ?_⟩
    rw [vars_binary] at hnames
    rw [shown_infixed ν rfl, shown_infixed μ rfl, ihl.congr fun v hv => hnames v (List.mem_append_left _ hv),
      ihr.congr fun v hv => hnames v (List.mem_append_right _ hv)]
  | conditional hty _ _ _ ihc iha ihb =>
    refine ⟨by simp [isExpression_conditional, hty, iha.isExpression, ihb.isExpression], fun {ν μ} hnames => ?_⟩
    rw [vars_conditional] at hnames
    rw [shown_conditional, shown_conditional, ihc.congr fun v hv => hnames v (by simp [hv]),
      iha.congr fun v hv => hnames v (by simp [hv]), ihb.congr fun v hv => hnames v (by simp [hv])]

theorem isPut (desk : Desk) : t.IsPut desk := by
  induction h with
  | var _ _ => exact isPut_var _
  | coalesce ty hl hr ihl ihr => exact isPut_binary ty rfl hl.shows hr.shows ihl ihr
  | conditional hty hc ha hb ihc iha ihb => exact isPut_conditional hty hc.shows ha.shows hb.shows ihc iha ihb

theorem plainNames : ∀ v ∈ t.vars, ∃ s, v.name = some s ∧ isPlainName s = true := by
  induction h with
  | @var v s hname hplain =>
    intro w hw
    rw [vars_var, List.mem_singleton] at hw
    rw [hw]
    exact ⟨s, hname, hplain⟩
  | coalesce ty _ _ ihl ihr =>
    rw [vars_binary, List.forall_mem_append]
    exact ⟨ihl, ihr⟩
  | conditional _ _ _ _ ihc iha ihb =>
    rw [vars_conditional, List.forall_mem_append, List.forall_mem_append]
    exact ⟨ihc, iha, ihb⟩

theorem two_le_precedence : 2 ≤ t.precedence := by
  cases h with
  | @var v _ _ _ => exact (Plain.var v).two_le_precedence
  | coalesce _ _ _ | conditional _ _ _ _ => exact Nat.le_refl 2

/-- The operator `??` never puts an operand into parentheses. -/
theorem shownUnder_coalesce (isRight : Bool) (s : String) :
    shownUnder (.binary .coalesce) isRight t s = s := by
  have hprecedence := h.two_le_precedence
  have hgroups : (Kind.binary .coalesce).groups t.precedence isRight = false := by
    unfold Kind.groups
    split
    · rfl
    · have hcoalesce : (Kind.binary .coalesce).precedence = 2 := rfl
      rw [hcoalesce]
      exact decide_eq_false (Nat.not_lt.mpr hprecedence)
  rw [shownUnder, hgroups]
  rfl

/-- **The text of alternatives is read as their alternation.** -/
theorem reads (hnames : NamesRead ν μ t.vars) :
    Reads (levelOf t.precedence) (tokens (t.shown ν)) (t.alternation μ) := by
  induction h with
  | @var v s _ _ =>
    have hvar := (Plain.var v).reads hnames
    rw [reading_var] at hvar
    rw [alternation_var]
    exact hvar
  | @coalesce l r ty hl hr ihl ihr =>
    rw [vars_binary] at hnames
    have hleft := ihl fun v hv => hnames v (List.mem_append_left _ hv)
    have hright := ihr fun v hv => hnames v (List.mem_append_right _ hv)
    have htoken : (Kind.binary .coalesce).token? = some (String.ofList InfixOp.coalesce.sign) := rfl
    show Reads 0 _ _
    rw [shown_infixed ν htoken, hl.shownUnder_coalesce, hr.shownUnder_coalesce, tokens_spaced (by decide),
      alternation_coalesce]
    exact (hleft.loosen (Nat.zero_le _) (levelOf_le _)).coalesce (hright.loosen (Nat.zero_le _) (levelOf_le _))
  | conditional hty hc ha hb ihc iha ihb =>
    rw [vars_conditional] at hnames
    rw [alternation_conditional]
    exact reads_conditional _ (ihc fun v hv => hnames v (by simp [hv])) (iha fun v hv => hnames v (by simp [hv]))
      (ihb fun v hv => hnames v (by simp [hv]))

/-! ## Alternations and outlines -/

/-- The alternation of a conditional is one, and so is that of a chain of `??` in which some operand is a conditional.
-/
theorem isChoice_alternation (μ : Ident → String) :
    (t.alternation μ).isChoice = (t.isConditional || t.coalescesConditional) := by
  induction h with
  | var _ _ =>
    rw [alternation_var, coalescesConditional, fold_mk]
    rfl
  | @coalesce l r ty _ _ ihl ihr =>
    have hnode : (Tree.mk (.binary .coalesce l r ty)).isConditional = false := rfl
    rw [alternation_coalesce, Expr.isChoice_coalesce, ihl, ihr, hnode, coalescesConditional_coalesce, Bool.false_or]
    ac_rfl
  | conditional _ _ _ _ _ _ _ =>
    rw [alternation_conditional]
    rfl

/-- **Alternatives are read as their outline, up to the association of `??`, exactly when no `??` has a conditional as
an operand.** -/
theorem reassociates_iff (hown : ∀ v ∈ t.vars, v.name = some (μ v.id)) :
    (t.alternation μ).ungrouped.Reassociates t.outline ↔ t.coalescesConditional = false := by
  rw [Expr.reassociates_iff]
  induction h with
  | @var v _ _ _ =>
    rw [alternation_var, outline_var (hown v (by simp [vars_var])), coalescesConditional, fold_mk]
    exact ⟨fun _ => rfl, fun _ => rfl⟩
  | @coalesce l r ty hl hr ihl ihr =>
    have hchoice := (Alternatives.coalesce ty hl hr).isChoice_alternation μ
    have houtline : (Tree.mk (.binary .coalesce l r ty)).outline.rightward =
        Expr.chained l.outline.rightward r.outline.rightward := by
      rw [outline_coalesce, Expr.rightward_coalesce]
    cases hconditional : (Tree.mk (.binary .coalesce l r ty)).coalescesConditional with
    | true =>
      -- a conditional is read where the tree is a chain
      rw [hconditional, Bool.or_true] at hchoice
      obtain ⟨x, y, hchain⟩ := Expr.exists_chained l.outline.rightward r.outline.rightward
      have hread := Expr.isChoice_rightward_ungrouped hchoice
      refine ⟨fun heq => ?_, fun heq => absurd heq (by decide)⟩
      rw [heq, houtline, hchain] at hread
      cases hread
    | false =>
      rw [coalescesConditional_coalesce, Bool.or_eq_false_iff, Bool.or_eq_false_iff, Bool.or_eq_false_iff] at hconditional
      obtain ⟨⟨hcl, hcr⟩, hil, hir⟩ := hconditional
      rw [vars_binary] at hown
      have hleft := (ihl fun v hv => hown v (List.mem_append_left _ hv)).mpr hcl
      have hright := (ihr fun v hv => hown v (List.mem_append_right _ hv)).mpr hcr
      have hlchoice : (l.alternation μ).isChoice = false := by rw [hl.isChoice_alternation, hil, hcl]; rfl
      have hrchoice : (r.alternation μ).isChoice = false := by rw [hr.isChoice_alternation, hir, hcr]; rfl
      rw [houtline, alternation_coalesce, Expr.coalesce_of_not_isChoice hlchoice hrchoice,
        Expr.rightward_ungrouped_chained, hleft, hright]
      exact ⟨fun _ => rfl, fun _ => rfl⟩
  | conditional _ _ _ _ ihc iha ihb =>
    rw [vars_conditional] at hown
    rw [alternation_conditional, outline_conditional, coalescesConditional_conditional, Expr.ungrouped, Expr.rightward,
      Expr.rightward, ungrouped_readUnder, ungrouped_readUnder, ungrouped_readUnder, Bool.or_eq_false_iff,
      Bool.or_eq_false_iff, ← ihc fun v hv => hown v (by simp [hv]), ← iha fun v hv => hown v (by simp [hv]),
      ← ihb fun v hv => hown v (by simp [hv]), Expr.choice.injEq]

end Alternatives

/-! ## The script -/

/-- **The text of alternatives is read back as the tree, up to the association of chains of `??`, exactly when no `??`
has a conditional as an operand.** -/
theorem alternatives_text_reads_back_iff {t : Tree} (ht : t.Alternatives) (hone : Naming.OneName t.vars) (w : Wrapper) :
    ∃ text e, t.WrittenAs w text ∧ read? (tokens text) = some e ∧
      (e.ungrouped.Reassociates t.outline ↔ t.coalescesConditional = false) := by
  obtain ⟨hnames, hown⟩ := names_of_plain ht.plainNames hone
  have hread := ht.reads hnames
  refine ⟨t.shown t.naming.ofVariable, t.alternation t.naming.readAs, ?_, ?_, ht.reassociates_iff hown⟩
  · exact writtenAs_of_draft fun layout => (ht.isPut ⟨w, layout⟩).draft (by cases ht <;> rfl)
  · exact read?_eq_some_iff.mpr (hread.loosen (Nat.zero_le _) (levelOf_le _))

/-- `((a ?? b) ?? c) ? (a ? b : c) : (c ?? d)`. -/
def nestedAlternatives : Tree :=
  .conditional (.binary .coalesce (.binary .coalesce (number "a") (number "b")) (number "c"))
    (.conditional (number "a") (number "b") (number "c")) (.binary .coalesce (number "c") (number "d"))

/-- `a ?? (c ? x : y)`. -/
def coalescedConditional : Tree :=
  .binary .coalesce (number "a") (.conditional (number "c") (number "x") (number "y"))

theorem alternatives_number (name : String) (h : isPlainName name = true) : (number name).Alternatives := .var rfl h

theorem alternatives_text_reads_back_nested :
    nestedAlternatives.Alternatives ∧ Naming.OneName nestedAlternatives.vars ∧
      nestedAlternatives.coalescesConditional = false ∧
      ∃ text e, nestedAlternatives.WrittenAs {} text ∧ read? (tokens text) = some e ∧
        (e.ungrouped.Reassociates nestedAlternatives.outline ↔ nestedAlternatives.coalescesConditional = false) := by
  have ha := alternatives_number "a" (by decide)
  have hb := alternatives_number "b" (by decide)
  have hc := alternatives_number "c" (by decide)
  have hd := alternatives_number "d" (by decide)
  have halternatives : nestedAlternatives.Alternatives :=
    .conditional rfl (.coalesce _ (.coalesce _ ha hb) hc) (.conditional rfl ha hb hc) (.coalesce _ hc hd)
  have hone : Naming.OneName nestedAlternatives.vars := by
    unfold Naming.OneName
    decide
  exact ⟨halternatives, hone, by decide, alternatives_text_reads_back_iff halternatives hone {}⟩

/-- **A conditional as an operand of `??` loses its parentheses, and the text is read as another tree:** what was
coalesced becomes the test. -/
theorem coalescedConditional_reads_as_conditional :
    coalescedConditional.Alternatives ∧ ∃ script e, coalescedConditional.toScript {} = .ok script ∧
      script.text = "a ?? c ? x : y" ∧ read? (tokens script.text) = some e ∧
      e = .choice (.infixed .coalesce (.name "a") (.name "c")) (.name "x") (.name "y") ∧
      ¬ e.ungrouped.Reassociates coalescedConditional.outline := by
  have halternatives : coalescedConditional.Alternatives :=
    .coalesce _ (alternatives_number _ (by decide))
      (.conditional rfl (alternatives_number _ (by decide)) (alternatives_number _ (by decide))
        (alternatives_number _ (by decide)))
  have htext : (coalescedConditional.toScript {}).toOption.map Script.text = some "a ?? c ? x : y" := by
    decide +kernel
  cases h : coalescedConditional.toScript {} with
  | error err =>
    rw [h] at htext
    cases htext
  | ok script =>
    rw [h] at htext
    have hscript : script.text = "a ?? c ? x : y" := Option.some.inj htext
    refine ⟨halternatives, script, _, rfl, hscript, ?_, rfl, by decide +kernel⟩
    rw [hscript]
    decide +kernel

end Tree

end Scribe
