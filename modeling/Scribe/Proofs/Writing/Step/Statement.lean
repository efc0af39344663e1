import Scribe.Proofs.Writing.Step.Expression
import Scribe.Writing.Jump
import Scribe.Writing.Switch
import Scribe.Writing.Try

/-!
# Steps of writing statements

Statements go on new lines. What is marked of them are the expressions: a statement from behind the
indentation to its semicolon, and the test of an `if` or a `while` between its parentheses.

A jump is an expression to the writer, although it may need several statements. It still starts on the
current line and leaves no line break open.
-/

namespace Scribe

open Writing
open Draft (LeadsTo Runs Begun Stable Settled Indented Entered)
open Text (Page)

variable {α : Type} {desk : Desk} {p : Piece} {d e : Draft} {P : Draft → Prop} {ps : List Piece}
  {value : Option Piece}

namespace Writing

/-! ## Marks -/

/-- A mark is a step when the text that it stands for has been written. -/
theorem mark_leadsTo {form : Passage.Form} {text : String} {r : Option Tree} {f : Draft}
    (hl : LeadsTo desk d e) (hc : Passage.Covers ⟨form, d.page, e.page⟩ text)
    (h : mark form d.page desk e = .ok (r, f)) : LeadsTo desk d f := by
  obtain ⟨k, e', hread, h⟩ := bind_eq_ok.mp h
  cases hread
  cases hdoc : desk.wrapper.document with
  | none =>
    rw [hdoc] at h
    cases h
    exact hl
  | some document =>
    rw [hdoc] at h
    cases h
    exact .marked form text (by simp [hdoc]) hl hc

theorem lineOf_stepwise (h : p.Steps desk) (he : p.tree.isExpression = true) (tail : Tail) :
    Stepwise desk (lineOf p tail) := by
  intro d as f hx
  obtain ⟨_, d₁, hnew, hx⟩ := bind_eq_ok.mp hx
  have hd₁ := newline_stepwise d _ d₁ hnew
  obtain ⟨start, d₂, hpage, hx⟩ := bind_eq_ok.mp hx
  cases hpage
  obtain ⟨_, d₂, hlead, hx⟩ := bind_eq_ok.mp hx
  have hd₂ := (put_inline (leadOf p.tree tail)).stepwise d₁ _ d₂ hlead
  obtain ⟨t, d₃, hvalue, hx⟩ := bind_eq_ok.mp hx
  obtain ⟨hd₃, hrun⟩ := h.inline .discard he d₂ t d₃ hvalue
  obtain ⟨_, d₄, hsemi, hx⟩ := bind_eq_ok.mp hx
  have hd₄ := (put_inline ";").stepwise d₃ _ d₄ hsemi
  obtain ⟨r, d₅, hmark, hx⟩ := bind_eq_ok.mp hx
  cases hx
  obtain ⟨v, hv⟩ := hrun.settle_text
  have hcovers : Passage.Covers ⟨.statement (leadOf p.tree tail), d₁.page, d₄.page⟩
      (leadOf p.tree tail ++ v ++ ";") := by
    cases hlead
    cases hsemi
    refine ⟨?_, Page.write_owesIndent (by decide) d₃.page, v, rfl⟩
    show (d₃.page.write ";").text = _
    rw [Page.write_text (by decide), hv, Page.settle_write_text]
    simp only [String.append_assoc]
  exact hd₁.trans (mark_leadsTo (hd₂.trans (hd₃.trans hd₄)) hcovers hmark)

end Writing

theorem Piece.test_takes (h : p.Steps desk) (hP : Stable desk P) : Takes desk (Settled P) p.test P := by
  rintro d a f ⟨hd, ho⟩ hx
  obtain ⟨start, d₁, hpage, hx⟩ := bind_eq_ok.mp hx
  cases hpage
  obtain ⟨t, d₁, hvalue, hx⟩ := bind_eq_ok.mp hx
  obtain ⟨hl, hrun⟩ := Piece.value_inline h d t d₁ hvalue
  obtain ⟨r, d₂, hmark, hx⟩ := bind_eq_ok.mp hx
  obtain ⟨ho₁, v, hv⟩ := hrun.settled ho
  have hlast : f = d₂ := by
    cases r <;> cases hx <;> rfl
  subst hlast
  have hcovers : Passage.Covers ⟨.test, d.page, d₁.page⟩ v := ⟨hv, ho₁, trivial⟩
  exact hP d f hd (mark_leadsTo hl hcovers hmark)

namespace Writing

/-! ## Lists of statements -/

theorem addTaker_inline (target : Label) (tail : Tail) : Inline desk (addTaker target tail) := by
  refine .ite ?_ (.pure _)
  refine .of_step fun d a e h => ?_
  cases h
  exact ⟨.taken d target.id tail, rfl⟩

theorem innerLabel_stepwise (target : Label) (value : Option Tree) : Stepwise desk (innerLabel target value) :=
  .bind (nameLabel_inline target).stepwise fun _ => .map (putLine_stepwise _)

theorem statement_stepwise (h : p.Steps desk) (tail : Tail) (isFirst isLast : Bool) :
    Stepwise desk (statement p tail isFirst isLast) := by
  unfold statement
  refine .ite (.pure _) ?_
  split
  · refine .read_bind ?_
    split
    · exact .pure _
    · exact .pure _
  · exact .ite (.map (h.write _)) (.map (innerLabel_stepwise _ _))
  · by_cases he : p.tree.isExpression = true
    · rw [if_pos he]
      exact lineOf_stepwise h he tail
    · rw [if_neg he]
      have hrest : Stepwise desk (do let t ← p.write tail; pure [t]) := .map (h.write tail)
      exact .ite hrest (.bind newline_stepwise fun _ => hrest)

theorem statementsFrom_stepwise (tail : Tail) (isFirst : Bool)
    (h : ∀ p ∈ ps, p.Steps desk) : Stepwise desk (statementsFrom tail isFirst ps) := by
  induction ps generalizing isFirst with
  | nil => exact .pure _
  | cons p rest ih =>
    rw [List.forall_mem_cons] at h
    exact .bind (statement_stepwise h.1 _ _ _) fun _ => .map (ih false h.2)

theorem statements_stepwise (h : ∀ p ∈ ps, p.Steps desk) (tail : Tail) : Stepwise desk (statements ps tail) := by
  have hrest := statementsFrom_stepwise tail true h
  unfold statements
  cases ps.getLast?.bind (·.tree.node.labelTarget?) with
  | some target => exact .bind (addTaker_inline _ _).stepwise fun _ => hrest
  | none => exact hrest

theorem declare_stepwise (v : Variable) (inPlace : Bool) : Stepwise desk (declare v inPlace) := by
  refine .ite (postpone_inline v).stepwise (.bind newline_stepwise fun _ => ?_)
  exact .bind (putType_inline _).stepwise fun _ => .bind (put_inline _).stepwise fun _ =>
    .bind (putVariable_inline v).stepwise fun _ => .map (put_inline _).stepwise

theorem block_stepwise (vars : List Variable) (h : ∀ p ∈ ps, p.Steps desk) (ty : Ty)
    (tail : Tail) : Stepwise desk (block vars ps ty tail) := by
  unfold block
  extract_lets tail inPlace
  refine .bind (.mapM fun v _ => declare_stepwise v _) fun ws => ?_
  have hrest : Stepwise desk (do let ts ← statements ps tail; pure (Tree.mk (.block ws ts ty))) :=
    .map (statements_stepwise h tail)
  exact .ite hrest (.bind newline_stepwise fun _ => hrest)

end Writing

namespace Piece

theorem body_stepwise (h : p.Steps desk) (tail : Tail) : Stepwise desk (p.body tail) := by
  unfold body
  split
  · exact h.write tail
  · refine .ite (.pure _) (.map (statements_stepwise ?_ tail))
    simpa using h

theorem bracedBody_stepwise (h : p.Steps desk) (tail : Tail) : Stepwise desk (p.bracedBody tail) := by
  refine .of_stable fun P hP => .bind (openBrace_takes hP) fun _ => ?_
  refine .bind ((body_stepwise h tail).takes (Draft.stable_indented desk _)) fun _ => ?_
  exact .map (closeBrace_takes hP)

end Piece

namespace Writing

/-! ## Conditionals -/

variable {test ifTrue ifFalse : Piece}

theorem ternary_inline (ht : test.Steps desk) (ha : ifTrue.Steps desk) (hb : ifFalse.Steps desk)
    (ty : Ty) : Inline desk (ternary test ifTrue ifFalse ty) :=
  .bind (Piece.operand_inline ht _ _) fun _ => .bind (put_inline _) fun _ =>
    .bind (Piece.operand_inline ha _ _) fun _ => .bind (put_inline _) fun _ =>
    .map (Piece.operand_inline hb _ _)

theorem elseBranch_stepwise (h : p.Steps desk) (tail : Tail) : Stepwise desk (elseBranch p tail) := by
  unfold elseBranch
  refine .ite (.pure _) ?_
  split
  · next b hb => exact (h.branches hb).elseIf tail
  · exact .bind (putLine_stepwise _) fun _ => Piece.bracedBody_stepwise h tail

theorem ifStatement_stepwise {lead : String} (hlead : lead ≠ "") (ht : test.Steps desk)
    (ha : ifTrue.Steps desk) (hb : ifFalse.Steps desk) (ty : Ty) (tail : Tail) :
    Stepwise desk (ifStatement lead test ifTrue ifFalse ty tail) := by
  refine .of_stable fun P hP => ?_
  unfold ifStatement
  refine .bind (putLine_settled hlead hP) fun _ => .bind (Piece.test_takes ht hP) fun _ => ?_
  refine .bind ((put_inline _).stepwise.takes hP) fun _ => ?_
  refine .bind ((Piece.bracedBody_stepwise ha _).takes hP) fun _ => ?_
  exact .map ((elseBranch_stepwise hb _).takes hP)

/-! ## Jumps -/

/-- Something may have been written on the current line, and what comes next goes on there. -/
def Open (desk : Desk) (d e : Draft) : Prop := Runs desk d e ∨ Begun desk d e

theorem Inline.takes_open {x : Writing α} (h : Inline desk x) : Takes desk (Open desk d) x (Open desk d) := by
  rintro e a f (he | he) hx
  · exact Or.inl (he.trans (h e a f hx))
  · exact Or.inr (Draft.stable_begun desk d e f he (h e a f hx).1)

theorem Inline.of_open {x : Writing α} (h : ∀ d, Takes desk (Open desk d) x (Runs desk d)) : Inline desk x :=
  .of_takes fun d e a f he => h d e a f (Or.inl he)

theorem put_open {s : String} (hs : s ≠ "") : Takes desk (Open desk d) (put s) (Runs desk d) := by
  rintro e a f (he | he) hx
  · exact (put_inline s).takes d e a f he hx
  · exact put_ended hs e a f he hx

theorem put_open_begun {s : String} (hs : s ≠ "") :
    Takes desk (Open desk d) (put s) (Begun desk d) := by
  rintro e a f (he | he) hx
  · exact put_begun hs e a f he hx
  · exact (put_inline s).stepwise.takes (Draft.stable_begun desk d) e a f he hx

theorem newline_open : Takes desk (Begun desk d) newline (Open desk d) :=
  fun e a f he hx => Or.inr (newline_stepwise.takes (Draft.stable_begun desk d) e a f he hx)

theorem clearFlags_open (flags : List String) : Takes desk (Open desk d) (clearFlags flags) (Open desk d) := by
  induction flags with
  | nil => exact .pure _
  | cons flag flags ih =>
    have hne : flag ++ " = false;" ≠ "" := by simp
    exact .bind (put_open_begun hne) fun _ => .bind newline_open fun _ => ih

theorem clearFaults_open (target : Option Label) : Takes desk (Open desk d) (clearFaults target) (Open desk d) :=
  .get_bind fun _ => clearFlags_open _

theorem putJump_open (target : Label) : Takes desk (Open desk d) (putJump target) (Runs desk d) := by
  have hgoto : ∀ name : String, "goto " ++ name ≠ "" := by simp
  intro e a f he hx
  obtain ⟨e₁, e', hget, hx⟩ := bind_eq_ok.mp hx
  cases hget
  obtain ⟨_, e₁, hflow, hx⟩ := bind_eq_ok.mp hx
  have he₁ : Open desk d e₁ := by
    have hstep : Inline desk (do
        let d ← get
        onFlow fun flow => { flow with scopes := (Flow.resolve target.id true d.flow.scopes).2 }) := by
      refine .of_step fun d a e h => ?_
      cases h
      exact ⟨.resolved d target.id, rfl⟩
    exact hstep.takes_open e _ e₁ he hflow
  revert hx
  cases (Flow.resolve target.id true e.flow.scopes).1 with
  | exit | again => exact put_open (by decide) e₁ a f he₁
  | goto => exact Takes.bind (nameLabel_inline target).takes_open (fun name => put_open (hgoto name)) e₁ a f he₁

theorem isExpression_of_isEffect {t : Tree} (h : t.node.isEffect = true) : t.isExpression = true := by
  obtain ⟨n⟩ := t
  rw [Tree.isExpression, Tree.fold_mk]
  cases n <;> first | rfl | cases h

theorem valueOrDefault_inline (h : ∀ p ∈ value, p.Steps desk) (ty : Ty) : Inline desk (valueOrDefault value ty) := by
  unfold valueOrDefault
  split
  · next p => exact Piece.value_inline (h p rfl)
  · exact .map (putDefault_inline ty)

theorem effectOf_open (h : ∀ p ∈ value, p.Steps desk) : Takes desk (Open desk d) (effectOf value) (Open desk d) := by
  unfold effectOf
  split
  · next p =>
    split
    · next he =>
      have hp := (h p rfl).inline .discard (isExpression_of_isEffect he)
      refine .bind hp.takes_open fun t => .bind (put_open_begun (by decide)) fun _ => ?_
      exact .map newline_open
    · exact .pure _
  · exact .pure _

theorem jump_inline (kind : JumpKind) (target : Label)
    (h : ∀ p ∈ value, p.Steps desk) : Inline desk (jump kind target value) := by
  have hvalue := valueOrDefault_inline h target.ty
  refine .of_open fun d => .get_bind fun e => ?_
  split
  · refine .bind (clearFaults_open none) fun _ => .bind (put_open (by decide)) fun _ => ?_
    exact .map (hvalue.takes d)
  · refine .bind (put_inline _).takes_open fun _ => .bind hvalue.takes_open fun _ => ?_
    refine .bind (put_open_begun (by decide)) fun _ => .bind newline_open fun _ => ?_
    refine .bind (clearFaults_open _) fun _ => .map (putJump_open target)
  · refine .bind (clearFaults_open none) fun _ => .bind (put_open (by decide)) fun _ => ?_
    extract_lets whole
    have hwhole : ∀ t, Inline desk (whole t) := fun _ => .pure _
    split
    · next p =>
      refine .bind ((put_inline _).takes d) fun _ => ?_
      refine .bind ((Piece.value_inline (h p rfl)).takes d) fun _ => ?_
      exact .bind (.pure _) fun t => (hwhole t).takes d
    · exact .bind (.pure _) fun t => (hwhole t).takes d
  · refine .bind (effectOf_open h) fun _ => .bind (clearFaults_open _) fun _ => ?_
    exact .map (putJump_open target)

/-! ## Labels and loops -/

theorem finalLabel_stepwise (target : Label) (h : ∀ p ∈ value, p.Steps desk)
    (tail : Tail) : Stepwise desk (finalLabel target value tail) := by
  have hvalue := (valueOrDefault_inline h target.ty).stepwise
  refine .bind (nameLabel_inline target).stepwise fun name => ?_
  split
  · exact .bind (putLine_stepwise _) fun _ => .map (put_inline _).stepwise
  · exact .bind (putLine_stepwise _) fun _ => .bind (putLine_stepwise _) fun _ =>
      .bind hvalue fun _ => .map (put_inline _).stepwise
  · exact .bind (putLine_stepwise _) fun _ => .bind hvalue fun _ =>
      .bind (put_inline _).stepwise fun _ => .map (putLine_stepwise _)

theorem enterScope_takes (scope : JumpScope) : Takes desk P (enterScope scope) (Entered desk P) := by
  intro d a e hd h
  cases h
  exact ⟨d, scope, hd, .refl _⟩

theorem leaveScope_takes (hP : Stable desk P) : Takes desk (Entered desk P) leaveScope P := by
  rintro e a f ⟨d, scope, hd, hl⟩ h
  cases h
  exact hP d _ hd (.entered scope hl)

theorem putLabel_stepwise (target : Label) : Stepwise desk (putLabel target) :=
  .bind (nameLabel_inline target).stepwise fun _ => putLine_stepwise _

theorem putAgainLabel_stepwise : Stepwise desk putAgainLabel := by
  refine .get_bind fun d => ?_
  split
  · exact putLabel_stepwise _
  · exact .pure _

theorem leaveLoop_takes (hP : Stable desk P) : Takes desk (Entered desk P) leaveLoop P := by
  refine .get_bind fun d => .bind (leaveScope_takes hP) fun _ => ?_
  split
  · exact (putLabel_stepwise _).takes hP
  · exact .pure _

theorem whileLoop_stepwise {branches : Branches} (h : branches.Steps desk) (ifFalse : Tree)
    (ty loopTy : Ty) (tail : Tail) : Stepwise desk (whileLoop branches ifFalse ty loopTy tail) := by
  refine .of_stable fun P hP => ?_
  have hi := Draft.stable_indented desk P
  unfold whileLoop
  refine .bind (putLine_settled (by decide) hP) fun _ => .bind (h.test hP) fun t => ?_
  refine .bind ((put_inline _).stepwise.takes hP) fun _ => .bind (openBrace_takes hP) fun _ => ?_
  refine .bind ((h.whenTrue _).takes hi) fun a => .bind (putAgainLabel_stepwise.takes hi) fun _ => ?_
  refine .bind (closeBrace_takes hP) fun _ => ?_
  split
  · refine .bind ((putLine_stepwise _).takes hP) fun _ => ?_
    refine .bind ((putDefault_inline _).stepwise.takes hP) fun _ => ?_
    exact .map ((put_inline _).stepwise.takes hP)
  · exact .pure _

theorem endlessLoop_stepwise (h : p.Steps desk) : Stepwise desk (endlessLoop p) := by
  refine .of_stable fun P hP => ?_
  have hi := Draft.stable_indented desk P
  refine .bind ((putLine_stepwise _).takes hP) fun _ => .bind (openBrace_takes hP) fun _ => ?_
  refine .bind ((Piece.body_stepwise h _).takes hi) fun _ => ?_
  refine .bind (putAgainLabel_stepwise.takes hi) fun _ => ?_
  exact .map (closeBrace_takes hP)

theorem loop_stepwise (h : p.Steps desk) (exit again : Option Label) (tail : Tail) :
    Stepwise desk (loop p exit again tail) := by
  refine .of_stable fun P hP => ?_
  have he := Draft.stable_entered desk P
  unfold loop
  extract_lets ty tail after rest
  have hafter : ∀ t, Takes desk (Entered desk P) (after t) P := fun t => .map (leaveLoop_takes hP)
  have hrest : ∀ u, Takes desk P (rest u) P := by
    intro u
    refine .bind (enterScope_takes _) fun _ => ?_
    split
    · next branches _ hb =>
      split
      · exact .bind ((whileLoop_stepwise (h.branches hb) _ _ _ _).takes he) hafter
      · exact .bind ((endlessLoop_stepwise h).takes he) hafter
    · exact .bind ((endlessLoop_stepwise h).takes he) hafter
  split
  · exact .bind ((addTaker_inline _ _).stepwise.takes hP) hrest
  · exact hrest ()

/-! ## Switches -/

theorem caseBody_stepwise (h : p.Steps desk) (tail : Tail) : Stepwise desk (caseBody p tail) := by
  refine .of_stable fun P hP => ?_
  have hi := Draft.stable_indented desk P
  refine .bind indent_takes fun _ => .bind ((Piece.body_stepwise h tail).takes hi) fun t => ?_
  have hrest : Takes desk (Indented desk P) (do dedent; pure t) P := .map (dedent_takes hP)
  split
  · exact .bind ((putLine_stepwise _).takes hi) fun _ => hrest
  · exact hrest

theorem switchCase_stepwise (tail : Tail) {c : Case Piece} (ht : ∀ p ∈ c.tests, p.Steps desk)
    (hb : c.body.Steps desk) : Stepwise desk (switchCase tail c) := by
  refine .bind (.mapM fun p hp => ?_) fun _ => .map (caseBody_stepwise hb tail)
  exact .bind (putLine_stepwise _) fun _ => .bind (Piece.value_inline (ht p hp)).stepwise fun _ =>
    .map (put_inline _).stepwise

theorem switch_stepwise {value : Piece} (hv : value.Steps desk) {cases : List (Case Piece)}
    (hc : ∀ c ∈ cases, (∀ p ∈ c.tests, p.Steps desk) ∧ c.body.Steps desk) {fallback : Option Piece}
    (hf : ∀ p ∈ fallback, p.Steps desk) (ty : Ty) (tail : Tail) :
    Stepwise desk (switch value cases fallback ty tail) := by
  refine .of_stable fun P hP => ?_
  have hi := Draft.stable_indented desk P
  have he := Draft.stable_entered desk (Indented desk P)
  unfold switch
  refine .bind ((putLine_stepwise _).takes hP) fun _ => ?_
  refine .bind ((Piece.value_inline hv).stepwise.takes hP) fun v => ?_
  refine .bind ((put_inline _).stepwise.takes hP) fun _ => .bind (openBrace_takes hP) fun _ => ?_
  refine .bind (enterScope_takes _) fun _ => ?_
  refine .bind ((Stepwise.mapM fun c hc' => ?_).takes he) fun cs => ?_
  · exact switchCase_stepwise _ (hc c hc').1 (hc c hc').2
  extract_lets rest
  have hrest : ∀ f, Takes desk (Entered desk (Indented desk P)) (rest f) P :=
    fun f => .bind (leaveScope_takes hi) fun _ => .map (closeBrace_takes hP)
  split
  · next p =>
    refine .bind ((putLine_stepwise _).takes he) fun _ => ?_
    refine .bind ((caseBody_stepwise (hf p rfl) _).takes he) fun _ => ?_
    exact .bind (.pure _) hrest
  · exact .bind (.pure _) hrest

/-! ## Exceptions -/

theorem handler_stepwise (tail : Tail) {h : Handler Piece} (hf : ∀ p ∈ h.filter, p.Steps desk)
    (hb : h.body.Steps desk) : Stepwise desk (handler tail h) := by
  unfold handler
  refine .bind (putLine_stepwise _) fun _ => .bind (putType_inline _).stepwise fun _ => ?_
  extract_lets rest
  have hrest : ∀ caught, Stepwise desk (rest caught) := by
    intro caught
    refine .bind (put_inline _).stepwise fun _ => ?_
    extract_lets after
    have hafter : ∀ filter, Stepwise desk (after filter) := fun _ => .map (Piece.bracedBody_stepwise hb tail)
    split
    · next p hp =>
      refine .bind (put_inline _).stepwise fun _ => ?_
      refine .bind (Piece.value_inline (hf p hp)).stepwise fun _ => ?_
      exact .bind (put_inline _).stepwise fun _ => .bind (.pure _) hafter
    · exact .bind (.pure _) hafter
  split
  · refine .bind (put_inline _).stepwise fun _ => .bind (putVariable_inline _).stepwise fun _ => ?_
    exact .bind (.pure _) hrest
  · exact .bind (.pure _) hrest

theorem flaggedBody_stepwise (h : p.Steps desk) (tail : Tail) (flag : String) :
    Stepwise desk (flaggedBody p tail flag) := by
  intro d a f hx
  obtain ⟨_, e, hguard, hx⟩ := bind_eq_ok.mp hx
  cases hguard
  obtain ⟨t, e, hbody, hx⟩ := bind_eq_ok.mp hx
  obtain ⟨_, e', hleave, hx⟩ := bind_eq_ok.mp hx
  cases hleave
  obtain ⟨_, e', hline, hx⟩ := bind_eq_ok.mp hx
  cases hx
  have hguarded : LeadsTo desk d e.unguard := .guarded ⟨flag, p.tree.labels⟩ (Piece.body_stepwise h tail _ _ e hbody)
  exact hguarded.trans (putLine_stepwise _ _ _ _ hline)

theorem tryBody_stepwise (h : p.Steps desk) (tail : Tail) (flag : Option String) :
    Stepwise desk (tryBody p tail flag) := by
  refine .of_stable fun P hP => ?_
  have hi := Draft.stable_indented desk P
  unfold tryBody
  refine .bind ((putLine_stepwise _).takes hP) fun _ => .bind (openBrace_takes hP) fun _ => ?_
  extract_lets rest
  have hrest : ∀ t, Takes desk (Indented desk P) (rest t) P := fun t => .map (closeBrace_takes hP)
  split
  · exact .bind ((flaggedBody_stepwise h tail _).takes hi) hrest
  · exact .bind ((Piece.body_stepwise h tail).takes hi) hrest

theorem finallyPart_stepwise {final fault : Option Piece} (hf : ∀ p ∈ final, p.Steps desk)
    (hu : ∀ p ∈ fault, p.Steps desk) (flag : String) : Stepwise desk (finallyPart final fault flag) := by
  refine .ite (.pure _) (.of_stable fun P hP => ?_)
  have hi := Draft.stable_indented desk P
  refine .bind ((putLine_stepwise _).takes hP) fun _ => .bind (openBrace_takes hP) fun _ => ?_
  have hclose : ∀ parts : Option Tree × Option Tree,
      Takes desk (Indented desk P) (do closeBrace; pure parts) P :=
    fun _ => .map (closeBrace_takes hP)
  extract_lets rest
  have hrest : ∀ t, Takes desk (Indented desk P) (rest t) P := by
    intro t
    dsimp only [rest]
    split
    · next p =>
      refine .bind ((putLine_stepwise _).takes hi) fun _ => ?_
      refine .bind ((Piece.bracedBody_stepwise (hu p rfl) _).takes hi) fun _ => ?_
      exact .bind (.pure _) fun _ => hclose _
    · exact .bind (.pure _) fun _ => hclose _
  split
  · next p =>
    refine .bind ((Piece.body_stepwise (hf p rfl) _).takes hi) fun _ => ?_
    exact .bind (.pure _) hrest
  · exact .bind (.pure _) hrest

section

variable {handlers : List (Handler Piece)} {final : Option Piece}
  (hb : p.Steps desk)
  (hh : ∀ h ∈ handlers, (∀ p ∈ h.filter, p.Steps desk) ∧ h.body.Steps desk)
  (hf : ∀ p ∈ final, p.Steps desk)

include hb hh hf

theorem plainTry_stepwise (ty : Ty) (tail : Tail) : Stepwise desk (plainTry p handlers final ty tail) :=
  .bind (tryBody_stepwise hb tail none) fun _ =>
    .bind (.mapM fun h hm => handler_stepwise tail (hh h hm).1 (hh h hm).2) fun _ =>
    .map (finallyPart_stepwise hf (by simp) _)

theorem faultTry_stepwise {fault : Piece} (hu : fault.Steps desk) (ty : Ty) (tail : Tail)
    (flag : String) : Stepwise desk (faultTry p handlers final fault ty tail flag) :=
  .bind (putLine_stepwise _) fun _ => .bind (tryBody_stepwise hb tail _) fun _ =>
    .bind (.mapM fun h hm => handler_stepwise tail (hh h hm).1 (hh h hm).2) fun _ =>
    .map (finallyPart_stepwise hf (by simpa using hu) _)

theorem tryCatch_stepwise {fault : Option Piece} (hu : ∀ p ∈ fault, p.Steps desk) (ty : Ty)
    (tail : Tail) : Stepwise desk (tryCatch p handlers final fault ty tail) := by
  unfold tryCatch
  split
  · exact plainTry_stepwise hb hh hf ty _
  · next fault =>
    have hfault := fun tail flag => faultTry_stepwise hb hh hf (hu fault rfl) ty tail flag
    refine .bind (fresh_inline _).stepwise fun flag => ?_
    split
    · refine .bind (fresh_inline _).stepwise fun kept => .bind newline_stepwise fun _ => ?_
      refine .bind (putType_inline ty).stepwise fun _ => .bind (put_inline _).stepwise fun _ => ?_
      exact .bind (hfault _ _) fun _ => .map (putLine_stepwise _)
    · exact hfault _ _

end

end Writing

end Scribe
