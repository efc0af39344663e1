import Scribe.Proofs.Writing.Step.Statement
import Scribe.Script.Basic

/-!
# Steps of writing trees

Every tree is written in steps, and an expression on the current line. The induction is on the tree; the
other modules have done the work of the layers.
-/

namespace Scribe

open Writing
open Draft (LeadsTo Runs Begun Stable Settled Indented)

variable {desk : Desk} {d e : Draft} {body : Piece}

namespace Writing

/-! ## Lambdas -/

theorem parameter_inline (v : Variable) : Inline desk (parameter v) := by
  have hrest : Inline desk (do putType v.ty; put " "; putVariable v) :=
    .bind (putType_inline _) fun _ => .bind (put_inline _) fun _ => putVariable_inline v
  exact .ite (.bind (put_inline _) fun _ => hrest) hrest

theorem method_stepwise (id : Ident) (access name : String) (sig : Signature) (h : body.Steps desk) :
    Stepwise desk (method id access name sig body) := by
  refine .bind (putLine_stepwise _) fun _ => .read_bind ?_
  extract_lets rest
  have hrest : ∀ u, Stepwise desk (rest u) := by
    intro u
    refine .bind (putType_inline _).stepwise fun _ => .bind (put_inline _).stepwise fun _ => ?_
    refine .bind (bracketed_inline _ _ ?_).stepwise fun _ => ?_
    · intro x hx
      obtain ⟨v, _, rfl⟩ := List.mem_map.mp hx
      exact parameter_inline v
    · exact .map (Piece.bracedBody_stepwise h _)
  exact .ite (.bind (put_inline _).stepwise hrest) (hrest ())

/-- What a method writes behind its head: its parameters and its body. -/
def methodRest (id : Ident) (name : String) (sig : Signature) (body : Piece) : Writing Tree := do
  let params ← separated false (sig.params.map parameter)
  put ")"
  let t ← body.bracedBody (Tail.atType .result sig.result)
  return .mk (.lambda { id, name := some name, params, result := sig.result } t)

theorem methodRest_stepwise (id : Ident) (name : String) (sig : Signature) (h : body.Steps desk) :
    Stepwise desk (methodRest id name sig body) :=
  .bind (separated_inline (List.forall_mem_map.mpr fun v _ => parameter_inline v)).stepwise fun _ =>
    .bind (put_inline _).stepwise fun _ => .map (Piece.bracedBody_stepwise h _)

end Writing

/-- The line of a method, up to its parameters. -/
def Draft.methodHead (d : Draft) (isStatic : Bool) (access name : String) (sig : Signature) : String :=
  access ++ (if isStatic then "static " else "") ++ ((Lexicon.spell sig.result).run d.lexicon).1 ++ " " ++ name ++ "("

/-- The draft behind the head of a method. -/
def Draft.headed (d : Draft) (desk : Desk) (access name : String) (sig : Signature) : Draft :=
  { d with
    page := d.page.writeLine (d.methodHead desk.wrapper.isStatic access name sig)
    lexicon := ((Lexicon.spell sig.result).run d.lexicon).2 }

theorem Draft.headed_text (d : Draft) (desk : Desk) (access name : String) (sig : Signature) :
    (d.headed desk access name sig).page.text =
      d.page.newline.text ++ (d.page.margin ++ d.methodHead desk.wrapper.isStatic access name sig) :=
  Text.Page.writeLine_text (by simp [methodHead]) d.page

namespace Writing

theorem method_eq (id : Ident) (access name : String) (sig : Signature) (body : Piece) (desk : Desk) (d : Draft) :
    method id access name sig body desk d = methodRest id name sig body desk (d.headed desk access name sig) := by
  unfold method bracketed Draft.headed Draft.methodHead methodRest
  rw [putLine_bind, read_bind]
  cases desk.wrapper.isStatic <;>
    simp only [Bool.false_eq_true, if_true, if_false, put_bind, putType_bind, bind_assoc, pure_bind,
      Text.Page.write_write, Text.Page.writeLine, String.append_assoc, String.append_empty]

theorem entryMethod_stepwise (sig : Signature) (h : body.Steps desk) : Stepwise desk (entryMethod sig body) :=
  .read_bind (method_stepwise _ _ _ sig h)

theorem parameterNames_inline (vs : List Variable) : Inline desk (parameterNames vs) := by
  unfold parameterNames
  split
  · exact .map (putVariable_inline _)
  · refine bracketed_inline _ _ fun x hx => ?_
    obtain ⟨v, _, rfl⟩ := List.mem_map.mp hx
    exact putVariable_inline v

theorem arrow_inline (sig : Signature) (h : body.Steps desk) : Inline desk (arrow sig body) := by
  have hturn : Inline desk (modifyGet fun d => (d.turns, { d with turns := d.turns + 1 })) := by
    refine .of_step fun d a e hx => ?_
    cases hx
    exact ⟨.turned d, rfl⟩
  refine .bind (parameterNames_inline _) fun params => ?_
  by_cases he : body.tree.isExpression = true
  · simp only [if_pos he]
    exact .bind (put_inline _) fun _ => .bind (Piece.operand_inline h _ _) fun _ => .map hturn
  · simp only [if_neg he]
    refine .of_takes fun d => .bind (put_begun (by decide)) fun _ => ?_
    refine .bind (openBraceHere_takes (Draft.stable_begun desk d)) fun _ => ?_
    refine .bind ((inFunction_stepwise ?_).takes (Draft.stable_indented desk _)) fun t => ?_
    · exact Piece.body_stepwise h _
    · exact .bind closeBrace_ended fun _ => .bind (.pure _) fun _ => .map (hturn.takes d)

theorem delegateOf_inline (sig : Signature) (h : body.Steps desk) : Inline desk (delegateOf sig body) :=
  .bind (put_inline _) fun _ => .bind (putType_inline _) fun _ => .bind (put_inline _) fun _ =>
    .bind (arrow_inline sig h) fun _ => .map (put_inline _)

theorem promote_inline (name : String) (sig : Signature) (h : body.Steps desk) :
    Inline desk (promote name sig body) := by
  have hmethod : Stepwise desk (inFunction do
      newline
      method (.promoted sig.id) "private " name sig body) :=
    inFunction_stepwise (.bind newline_stepwise fun _ => method_stepwise _ _ _ sig h)
  refine .of_step fun d t f hx => ?_
  rw [promote_apply] at hx
  split at hx
  · next e hrun =>
    cases hx
    exact ⟨.promoted sig.id t (hmethod _ _ e hrun), rfl⟩
  · cases hx

theorem nestedLambda_inline (sig : Signature) (h : body.Steps desk) : Inline desk (nestedLambda sig body) := by
  refine .ite (delegateOf_inline sig h) ?_
  refine .bind (nameLambda_inline sig) fun name => .bind (put_inline _) fun _ => .get_bind fun d => ?_
  split
  · exact .pure _
  · exact promote_inline name sig h

end Writing

/-! ## Layers -/

theorem Piece.Steps.of_conditional {test ifTrue ifFalse : Tree} (ht : test.piece.Steps desk)
    (ha : ifTrue.piece.Steps desk) (hb : ifFalse.piece.Steps desk) (ty : Ty) :
    Piece.Steps desk (.mk (.conditional test ifTrue ifFalse ty),
      Writing.conditional test.piece ifTrue.piece ifFalse.piece ty) where
  write tail :=
    .ite (ternary_inline ht ha hb ty).stepwise (ifStatement_stepwise (by decide) ht ha hb ty tail)
  inline tail he := by
    rw [Piece.tree, Tree.isExpression_conditional] at he
    show Inline desk (if _ then _ else _)
    split
    · exact ternary_inline ht ha hb ty
    · next hn => exact absurd he hn
  branches := by
    rintro b ⟨⟩
    exact ⟨Piece.test_takes ht, Piece.body_stepwise ha,
      ifStatement_stepwise (by decide) ht ha hb ty⟩
  quoted := nofun

/-- A piece with the rendition of an expression. -/
theorem Piece.Steps.of_expression {t : Tree} {x : Writing Tree} (h : Inline desk x) :
    Piece.Steps desk (t, .ofExpression x) where
  write _ := h.stepwise
  inline _ _ := h
  branches := nofun
  quoted := nofun

/-- A piece that is no expression. -/
theorem Piece.Steps.of_statement {t : Tree} {write : Tail → Writing Tree}
    (he : t.isExpression = false) (h : ∀ tail, Stepwise desk (write tail)) :
    Piece.Steps desk (t, { write }) where
  write := h
  inline _ hx := by rw [he] at hx; cases hx
  branches := nofun
  quoted := nofun

/-- When the pieces of the children take steps only, the piece of a tree does. -/
theorem Node.steps (n : Node Tree) (h : ∀ p ∈ (n.map Tree.piece).children, p.Steps desk) :
    (Tree.mk n).piece.Steps desk := by
  rw [Tree.piece_mk]
  have hlayer := fun hn hlabel => Piece.Steps.layer (n := n.map Tree.piece) hn hlabel h .discard
  cases n <;>
    simp only [Node.map, Node.children, List.forall_mem_cons, List.forall_mem_append,
      Option.mem_toList] at h
  case var v => exact .of_expression (.map (putVariable_inline v))
  case lambda sig body =>
    refine ⟨fun _ => (nestedLambda_inline sig h.1).stepwise, fun _ _ => nestedLambda_inline sig h.1,
      by rintro _ ⟨⟩, ?_⟩
    rintro x ⟨⟩
    exact arrow_inline sig h.1
  case conditional test ifTrue ifFalse ty => exact .of_conditional h.1 h.2.1 h.2.2.1 ty
  case block vars body ty => exact .of_statement rfl (block_stepwise vars h ty)
  case loop body exit again => exact .of_statement rfl (loop_stepwise h.1 exit again)
  case jump kind target value ty => exact .of_expression (jump_inline kind target h)
  case label target value => exact .of_statement rfl (finalLabel_stepwise target h)
  case switch value cases fallback ty =>
    refine .of_statement rfl (switch_stepwise h.1.1 (fun c hc => ?_) h.2 ty)
    have hc' := fun p hp => h.1.2 p (List.mem_flatMap.mpr ⟨c, hc, hp⟩)
    rw [List.forall_mem_append] at hc'
    exact ⟨hc'.1, hc'.2 _ (List.mem_singleton_self _)⟩
  case tryCatch body handlers final fault ty =>
    refine .of_statement rfl (tryCatch_stepwise h.1.1.1 (fun k hk => ?_) h.1.2 h.2 ty)
    have hk' := fun p hp => h.1.1.2 p (List.mem_flatMap.mpr ⟨k, hk, hp⟩)
    rw [List.forall_mem_append] at hk'
    exact ⟨fun p hp => hk'.1 p (Option.mem_toList.mpr hp), hk'.2 _ (List.mem_singleton_self _)⟩
  -- the other layers write their children as values
  all_goals exact .of_expression (hlayer rfl (by rintro _ _ ⟨⟩))

namespace Tree

theorem steps (t : Tree) : t.piece.Steps desk := by
  induction t using Tree.induction with
  | step n ih =>
    refine n.steps fun p hp => ?_
    rw [Node.children_map] at hp
    obtain ⟨c, hc, rfl⟩ := List.mem_map.mp hp
    exact ih c hc

theorem writeRoot_stepwise (t : Tree) : Stepwise desk t.writeRoot := by
  unfold writeRoot
  split
  · exact entryMethod_stepwise _ (steps _)
  · exact (steps t).write _

theorem draft_leadsTo {t u : Tree} {d : Draft} (h : t.draft desk = .ok (u, d)) :
    LeadsTo desk { page := desk.firstPage } d :=
  writeRoot_stepwise t _ u d h

end Tree

/-- Only a lambda can be quoted, and it is an expression. -/
theorem Tree.quoted_of_not_isExpression {t : Tree} (h : t.isExpression ≠ true) : t.rendition.quoted = none := by
  obtain ⟨n⟩ := t
  have hrendition : (Tree.mk n).rendition = (n.map Tree.piece).rendition := congrArg Prod.snd (Tree.piece_mk n)
  rw [hrendition]
  rw [isExpression, fold_mk] at h
  cases n with
  | lambda sig body => exact absurd rfl h
  | _ => rfl

end Scribe
