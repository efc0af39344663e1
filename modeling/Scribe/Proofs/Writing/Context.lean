import Mathlib.Data.List.Forall2
import Scribe.Proofs.Writing.Step.Tree

/-!
# The context of a visit

A tree is visited in one of five ways, by which node is around it. Whatever the tree and the way, a visit
leaves its context as it found it (`Draft.Restores`): the text is longer, but it is on the same page and at
the same level; no fault flag and no loop or switch was opened or closed for good; and all that the loops
around learn is that one of their labels is needed. The same is true of writing the method of a lambda, which
happens on a page of its own.

A step back at the margin does nothing, so that the way in that belongs to it would show in the end as a level
too high. The level is restored from every draft, the ones at the margin included. `Course` names steps by
which page and methods come about: none goes back behind the level of the start, on the page of the visit
or on the pages of the methods that are written in the meantime.
-/

namespace Scribe

open Text (Page Position)
open Writing
open Draft (LeadsTo)

/-! ## Visits -/

/-- The ways of visiting a tree. -/
inductive Visit where
  /-- In expression position. -/
  | expression
  /-- Where brackets or commas delimit it. -/
  | value
  /-- As an operand of another node. -/
  | operand (parent : Kind) (isRight : Bool)
  /-- In statement position. -/
  | statement (tail : Tail)
  /-- As the body of a construct in braces. -/
  | body (tail : Tail)

/-- Writes a piece in the way of the visit. -/
def Piece.visit (p : Piece) : Visit → Writing Tree
  | .expression => p.inline
  | .value => p.value
  | .operand parent isRight => p.operand parent isRight
  | .statement tail => p.write tail
  | .body tail => p.body tail

theorem Piece.Steps.visit {desk : Desk} {p : Piece} (h : p.Steps desk) (way : Visit) : Stepwise desk (p.visit way) := by
  cases way with
  | expression => exact h.write .discard
  | value => exact (Piece.value_inline h).stepwise
  | operand parent isRight => exact (Piece.operand_inline h parent isRight).stepwise
  | statement tail => exact h.write tail
  | body tail => exact Piece.body_stepwise h tail

/-! ## The page -/

/-- Page and texts of methods come about by steps of the pen that never go back behind a level.
A method has a page of its own, from `memberLevel` to `memberLevel`, and what is written there is its text. -/
inductive Course (memberLevel : Nat) : Nat → Page × List String → Page × List String → Prop where
  | refl {floor : Nat} (s : Page × List String) : Course memberLevel floor s s
  | trans {floor : Nat} {r s t : Page × List String} : Course memberLevel floor r s →
      Course memberLevel floor s t → Course memberLevel floor r t
  | write {floor : Nat} (p : Page) (ms : List String) (s : String) :
      Course memberLevel floor (p, ms) (p.write s, ms)
  | newline {floor : Nat} (p : Page) (ms : List String) : Course memberLevel floor (p, ms) (p.newline, ms)
  | indent {floor : Nat} (p : Page) (ms : List String) : Course memberLevel floor (p, ms) (p.indent, ms)
  | dedent {floor : Nat} (p : Page) (ms : List String) : floor < p.level →
      Course memberLevel floor (p, ms) (p.dedent, ms)
  | method {floor : Nat} {p q : Page} {ms ms' : List String} (origin : Position) :
      Course memberLevel memberLevel (.part memberLevel origin, ms ++ [""]) (q, ms') → q.level = memberLevel →
      Course memberLevel floor (p, ms) (p, ms'.set ms.length q.text)

/-- Who stays in front of a level stays in front of a lower one. -/
theorem Course.lower {memberLevel floor floor' : Nat} {r s : Page × List String}
    (h : Course memberLevel floor r s) (hle : floor' ≤ floor) : Course memberLevel floor' r s := by
  induction h with
  | refl s => exact .refl s
  | trans _ _ ih₁ ih₂ => exact (ih₁ hle).trans (ih₂ hle)
  | write p ms s => exact .write p ms s
  | newline p ms => exact .newline p ms
  | indent p ms => exact .indent p ms
  | dedent p ms hlt => exact .dedent p ms (Nat.lt_of_le_of_lt hle hlt)
  | method origin hcourse hlevel _ => exact .method origin hcourse hlevel

/-! ## Loops and switches -/

/-- The scopes have the same labels, and what was known of jumps to them is still known. -/
inductive JumpScope.LearnsTo : JumpScope → JumpScope → Prop where
  | loop (exit again : Option Label) {exitByGoto againByGoto exitByGoto' againByGoto' : Bool} :
      (exitByGoto = true → exitByGoto' = true) → (againByGoto = true → againByGoto' = true) →
      LearnsTo (.loop exit again exitByGoto againByGoto) (.loop exit again exitByGoto' againByGoto')
  | switch : LearnsTo .switch .switch

namespace JumpScope.LearnsTo

variable {r s t : JumpScope}

theorem refl (s : JumpScope) : s.LearnsTo s := by
  cases s with
  | loop exit again exitByGoto againByGoto => exact .loop exit again id id
  | switch => exact .switch

theorem trans (h₁ : r.LearnsTo s) (h₂ : s.LearnsTo t) : r.LearnsTo t := by
  cases h₁ with
  | loop exit again hexit hagain =>
    obtain ⟨_, _, hexit', hagain'⟩ := h₂
    exact .loop exit again (hexit' ∘ hexit) (hagain' ∘ hagain)
  | switch => exact h₂

end JumpScope.LearnsTo

/-- Scope by scope. -/
abbrev Flow.LearnTo : List JumpScope → List JumpScope → Prop := List.Forall₂ JumpScope.LearnsTo

theorem Flow.LearnTo.refl (scopes : List JumpScope) : Flow.LearnTo scopes scopes :=
  List.forall₂_same.mpr fun s _ => .refl s

theorem Flow.LearnTo.trans {r s t : List JumpScope} (h₁ : Flow.LearnTo r s) (h₂ : Flow.LearnTo s t) :
    Flow.LearnTo r t := by
  induction h₁ generalizing t with
  | nil => exact h₂
  | cons hhead _ ih =>
    obtain _ | ⟨hhead', htail'⟩ := h₂
    exact .cons (hhead.trans hhead') (ih htail')

/-- A jump tells a loop further out that its label is needed, and changes nothing else. -/
theorem Flow.learnTo_resolve (target : Ident) (innermost : Bool) (scopes : List JumpScope) :
    Flow.LearnTo scopes (Flow.resolve target innermost scopes).2 := by
  induction scopes generalizing innermost with
  | nil => exact .nil
  | cons scope outer ih =>
    cases scope with
    | switch => exact .cons .switch (ih false)
    | loop exit again exitByGoto againByGoto =>
      unfold Flow.resolve
      split
      · split
        · exact .refl _
        · exact .cons (.loop exit again (fun _ => rfl) id) (Flow.LearnTo.refl outer)
      · split
        · split
          · exact .refl _
          · exact .cons (.loop exit again id fun _ => rfl) (Flow.LearnTo.refl outer)
        · exact .cons (.refl _) (ih false)

/-! ## Drafts -/

/-- Between the two drafts the context of what is written is restored. -/
structure Draft.Restores (desk : Desk) (d e : Draft) : Prop where
  page : d.page.Extends e.page
  level : e.page.level = d.page.level
  faults : e.flow.faults = d.flow.faults
  scopes : Flow.LearnTo d.flow.scopes e.flow.scopes
  course : Course desk.wrapper.memberLevel d.page.level (d.page, d.methods) (e.page, e.methods)

namespace Draft.LeadsTo

variable {desk : Desk} {d e : Draft}

theorem faults (h : LeadsTo desk d e) : e.flow.faults = d.flow.faults := by
  induction h with
  | trans _ _ ih₁ ih₂ => exact ih₂.trans ih₁
  | indented _ ih | entered _ _ ih => exact ih
  | guarded _ _ ih => exact congrArg (List.drop 1) ih
  | marked _ _ _ _ _ ih | promoted _ _ _ ih => exact ih
  | _ => rfl

theorem scopes (h : LeadsTo desk d e) : Flow.LearnTo d.flow.scopes e.flow.scopes := by
  induction h with
  | trans _ _ ih₁ ih₂ => exact ih₁.trans ih₂
  | resolved d target => exact Flow.learnTo_resolve target true d.flow.scopes
  | indented _ ih => exact ih
  | entered _ _ ih => exact List.forall₂_drop 1 ih
  | guarded _ _ ih | marked _ _ _ _ _ ih | promoted _ _ _ ih => exact ih
  | _ => exact .refl _

theorem course (h : LeadsTo desk d e) :
    Course desk.wrapper.memberLevel d.page.level (d.page, d.methods) (e.page, e.methods) := by
  induction h with
  | trans h₁ _ ih₁ ih₂ => exact ih₁.trans (h₁.level ▸ ih₂)
  | put d s => exact .write d.page d.methods s
  | newline d => exact .newline d.page d.methods
  | @indented d e h ih =>
    -- the way back starts a level in front of where the way in did
    have hlevel : d.page.level < e.page.level := by
      rw [h.level]
      exact Nat.lt_succ_self _
    exact (Course.indent _ _).trans ((ih.lower (Nat.le_succ _)).trans (.dedent _ _ hlevel))
  | entered _ _ ih | guarded _ _ ih | inFunction _ ih | marked _ _ _ _ _ ih => exact ih
  | promoted _ _ h ih => exact .method _ ih h.level
  | _ => exact .refl _

end Draft.LeadsTo

/-- Steps restore the context. -/
theorem Draft.LeadsTo.restores {desk : Desk} {d e : Draft} (h : LeadsTo desk d e) : d.Restores desk e :=
  ⟨h.extends_page, h.level, h.faults, h.scopes, h.course⟩

/-- **A visit restores its context**, and so does writing a method. -/
theorem Tree.visit_restores (t : Tree) (desk : Desk) (d : Draft) :
    (∀ way u e, t.piece.visit way desk d = .ok (u, e) → d.Restores desk e) ∧
      ∀ id access name sig u e, method id access name sig t.piece desk d = .ok (u, e) → d.Restores desk e := by
  constructor
  · intro way u e h
    have hvisit : LeadsTo desk d e := t.steps.visit way d u e h
    exact hvisit.restores
  · intro id access name sig u e h
    have hmethod : LeadsTo desk d e := method_stepwise id access name sig t.steps d u e h
    exact hmethod.restores

/-- A jump out of a switch, in a body with a fault handler: the loop around learns that its label is needed, and all
else is as before. A method around the switch, at the margin, is back at the margin. -/
theorem Tree.visit_restores_switch :
    let l : Label := { id := .given "l", ty := .void }
    let t : Tree := .mk (.switch (.constant (.int 1)) [⟨[.constant (.int 1)], .jump .goto l none⟩] none .void)
    let sig : Signature := { id := .given "f", params := [], result := .void }
    let desk : Desk := ⟨{}, {}⟩
    let flow : Flow := { scopes := [.loop (some l) none false false], faults := [⟨"failed1", []⟩] }
    let d : Draft := { page := {}, flow := flow }
    (∃ u e, t.piece.visit (.statement .discard) desk d = .ok (u, e) ∧ d.Restores desk e ∧
      e.flow.scopes = [.loop (some l) none true false] ∧
      e.page.text =
        "\nswitch (1)\n\x7b\n    case 1:\n        failed1 = false;\n        goto label1;\n        break;\n\x7d") ∧
    ∃ u e, method sig.id "private " "f" sig t.piece desk d = .ok (u, e) ∧ d.Restores desk e := by
  intro l t sig desk flow d
  have hscopes : (t.piece.visit (.statement .discard) desk d).toOption.map (·.2.flow.scopes) =
      some [.loop (some l) none true false] := rfl
  have htext : (t.piece.visit (.statement .discard) desk d).toOption.map (·.2.page.text) = some
      "\nswitch (1)\n\x7b\n    case 1:\n        failed1 = false;\n        goto label1;\n        break;\n\x7d" := by
    decide +kernel
  have hmethod : (method sig.id "private " "f" sig t.piece desk d).isOk = true := by decide +kernel
  constructor
  · cases h : t.piece.visit (.statement .discard) desk d with
    | error err =>
      rw [h] at hscopes
      cases hscopes
    | ok r =>
      obtain ⟨u, e⟩ := r
      rw [h] at hscopes htext
      exact ⟨u, e, rfl, (t.visit_restores desk d).1 _ u e h, Option.some.inj hscopes, Option.some.inj htext⟩
  · cases h : method sig.id "private " "f" sig t.piece desk d with
    | error err =>
      rw [h] at hmethod
      cases hmethod
    | ok r =>
      obtain ⟨u, e⟩ := r
      exact ⟨u, e, rfl, (t.visit_restores desk d).2 _ _ _ _ u e h⟩

end Scribe
