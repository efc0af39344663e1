import Scribe.Proofs.Tree.Map
import Scribe.Proofs.Writing.Likeness.Expression
import Scribe.Proofs.Writing.Step.Primitive

/-!
# Steps of writing expressions

The text of an expression stands on the current line: it starts there, and no line break is left open
behind it. Initializers and closures have line breaks inside, but brackets stand around those.

To be inline is a property of ways of writing that goes through what stands on a line. So it goes through every layer
that does nothing but write its children as values (`Piece.Steps.layer`).
-/

namespace Scribe

open Writing
open Draft (LeadsTo Runs Begun Stable Settled Indented)

variable {α : Type} {desk : Desk} {p : Piece} {d : Draft}

/-- The parts of a conditional take steps only. A test is written where no blanks are owed. -/
structure Branches.Steps (desk : Desk) (b : Branches) : Prop where
  test {P : Draft → Prop} : Stable desk P → Takes desk (Settled P) b.test P
  whenTrue (tail : Tail) : Stepwise desk (b.whenTrue tail)
  elseIf (tail : Tail) : Stepwise desk (b.elseIf tail)

/-- All ways of writing a piece take steps only, and an expression is written on the current line. -/
structure Piece.Steps (desk : Desk) (p : Piece) : Prop where
  write (tail : Tail) : Stepwise desk (p.write tail)
  inline (tail : Tail) : p.tree.isExpression = true → Inline desk (p.write tail)
  branches {b : Branches} : p.2.branches = some b → b.Steps desk
  quoted {x : Writing Tree} : p.2.quoted = some x → Inline desk x

namespace Piece

/-! ## Operands -/

theorem closure_inline (h : p.Steps desk) : Inline desk p.closure := by
  refine .of_takes fun d => ?_
  have hB := Draft.stable_begun desk d
  unfold closure
  refine .bind (put_begun (by decide)) fun _ => ?_
  refine .bind ((putType_inline _).stepwise.takes hB) fun _ => ?_
  refine .bind ((put_inline _).stepwise.takes hB) fun _ => ?_
  refine .bind (openBraceHere_takes hB) fun _ => ?_
  refine .bind ((inFunction_stepwise (h.write _)).takes (Draft.stable_indented desk _)) fun t => ?_
  exact .bind (closeBrace_takes hB) fun _ => .bind (put_ended (by decide)) fun _ => .pure t

theorem value_inline (h : p.Steps desk) : Inline desk p.value := by
  unfold value
  split
  · next he => exact h.inline .discard he
  · exact closure_inline h

theorem inParens_inline (h : p.Steps desk) : Inline desk p.inParens :=
  .bind (put_inline "(") fun _ => .bind (value_inline h) fun _ => .map (put_inline ")")

theorem operand_inline (h : p.Steps desk) (parent : Kind) (isRight : Bool) :
    Inline desk (p.operand parent isRight) := by
  unfold operand
  split
  · exact inParens_inline h
  · exact value_inline h

end Piece

/-! ## Layers -/

/-- What stands on a line is inline. Items in braces may go on new lines, but they end on one. -/
theorem Writing.Inline.lined (desk : Desk) : (Property.likeness fun _ => Inline desk).Lined .all where
  pure := .pure
  throw _ := .throw _
  bind := .bind
  put := put_inline
  spell _ := spell_inline _
  markDynamic := markDynamic_inline
  field value ty _ := field_inline value ty
  braced limit _ _ _ _ hs hx hxs := by
    refine .of_takes fun d => .bind (put_begun hs) fun _ => ?_
    refine .bind (hx.stepwise.takes (Draft.stable_begun desk d)) fun _ => ?_
    exact .map (braced_takes limit hxs.forall)

namespace Piece.Steps

theorem alone (h : p.Steps desk) : p.alone.Alike (Property.likeness fun _ => Inline desk) where
  value := value_inline h
  quoted := by
    cases hq : p.2.quoted with
    | none => exact .inl ⟨hq, nofun⟩
    | some x => exact .inr ⟨x, nofun, hq, nofun, h.quoted hq⟩

/-- A layer that writes its children as values is written on the current line. -/
theorem layer {n : Node Piece} (hn : n.writesValues = true) (hlabel : ∀ target value, n ≠ .label target value)
    (h : ∀ p ∈ n.children, p.Steps desk) (tail : Tail) : Inline desk (n.rendition.write tail) := by
  have hpieces : (n.map Piece.alone).map Variants.left = n := (n.map_map _ _).trans n.map_id
  have halike : ∀ p ∈ (n.map Piece.alone).children, p.Alike (Property.likeness fun _ => Inline desk) := by
    rw [Node.children_map, List.forall_mem_map]
    exact fun p hp => (h p hp).alone
  rw [← hpieces]
  refine (Inline.lined desk).layer (by rwa [Node.writesValues_map]) ?_ (fun _ _ => trivial)
    (fun ty _ => Allowance.admits_all ty) halike tail
  cases n
  case label target value => exact absurd rfl (hlabel target value)
  all_goals nofun

end Piece.Steps

end Scribe
