import Scribe.Proofs.Writing.Likeness.Construct
import Scribe.Proofs.Writing.Step.Statement

/-!
# Computations that agree where an assertion holds

Two computations *agree* where an assertion holds when they do the same from every draft of which it is true, down to
the error. `Writing.Agree` also says what is true where they end, so that a chain of computations can be compared step
by step.

The assertions of interest say something of the constructs around a statement. Most steps leave such an assertion alone
(`Draft.Steady`): they put text on the page, ask for names and the like. So to agree where a steady assertion holds is a
congruent likeness (`Agree.likeness`), of a way of writing and one other. What is left to be shown is in the module
behind this one: how the assertion changes where a construct is entered.
-/

namespace Scribe

open Text (Page)
open Draft (Stable)

/-- An assertion that neither a step nor a change of the page or of the marks makes false. -/
structure Draft.Steady (desk : Desk) (P : Draft → Prop) : Prop where
  stable : Stable desk P
  page (d : Draft) (p : Page) : P d → P { d with page := p }
  passages (d : Draft) (gs : List Passage) : P d → P { d with passages := gs }

/-- What is true of every draft that comes later among the same constructs: each steady assertion that holds of `d`
holds of `e`. -/
def Draft.Onward (desk : Desk) (d e : Draft) : Prop := ∀ P, Steady desk P → P d → P e

theorem Draft.Onward.refl (desk : Desk) (d : Draft) : d.Onward desk d := fun _ _ h => h

theorem Draft.steady_onward (desk : Desk) (d : Draft) : Steady desk (d.Onward desk) where
  stable e f h hstep P hP hd := hP.stable e f (h P hP hd) hstep
  page e p h P hP hd := hP.page e p (h P hP hd)
  passages e gs h P hP hd := hP.passages e gs (h P hP hd)

/-- The assertion that holds everywhere. -/
def Draft.anywhere (_ : Draft) : Prop := True

namespace Writing

open Draft (Steady anywhere)

variable {α β : Type} {desk : Desk} {P Q R : Draft → Prop} {x y : Writing α} {f g : α → Writing β}

/-- Where `P` holds, the two computations do the same, and a successful run of them ends where `Q` holds. -/
structure Agree (desk : Desk) (P : Draft → Prop) (x y : Writing α) (Q : Draft → Prop) : Prop where
  same (d : Draft) : P d → y desk d = x desk d
  takes : Takes desk P x Q

namespace Agree

/-! ## Composition -/

theorem refl (h : Takes desk P x Q) : Agree desk P x x Q := ⟨fun _ _ => rfl, h⟩

theorem bind (hx : Agree desk P x y Q) (hf : ∀ a, Agree desk Q (f a) (g a) R) :
    Agree desk P (x >>= f) (y >>= g) R where
  same d hd := by
    rw [bind_apply, bind_apply, hx.same d hd]
    cases hrun : x desk d with
    | error err => rfl
    | ok r =>
      obtain ⟨a, e⟩ := r
      exact (hf a).same e (hx.takes d a e hd hrun)
  takes := hx.takes.bind fun a => (hf a).takes

theorem pure (a : α) : Agree desk P (Pure.pure a) (Pure.pure a) P := .refl (.pure a)

theorem throw (err : ScriptError) : Agree desk P (throw err : Writing α) (throw err) Q :=
  .refl fun _ _ _ _ h => nomatch h

theorem get_bind {f g : Draft → Writing β} (hf : ∀ d, Agree desk P (f d) (g d) Q) :
    Agree desk P (get >>= f) (get >>= g) Q where
  same d hd := (hf d).same d hd
  takes := .get_bind fun d => (hf d).takes

theorem read_bind {f g : Desk → Writing β} (hf : Agree desk P (f desk) (g desk) Q) :
    Agree desk P (read >>= f) (read >>= g) Q where
  same d hd := hf.same d hd
  takes d := hf.takes d

theorem page_bind {f g : Page → Writing β} (hf : ∀ p, Agree desk P (f p) (g p) Q) :
    Agree desk P (page >>= f) (page >>= g) Q where
  same d hd := (hf d.page).same d hd
  takes d := (hf d.page).takes d

theorem ends (h : Agree desk P x y Q) (ht : Takes desk P x R) : Agree desk P x y R := ⟨h.same, ht⟩

/-- What agrees where `P` holds agrees where more is known. -/
theorem mono (h : Agree desk P x y Q) (hR : ∀ d, R d → P d) : Agree desk R x y Q :=
  ⟨fun d hd => h.same d (hR d hd), fun d a e hd => h.takes d a e (hR d hd)⟩

/-- Nothing is said of where a computation ends. -/
theorem rest (x : Writing α) : Agree desk P x x anywhere := .refl fun _ _ _ _ _ => trivial

/-! ## Steps that are the same on both sides -/

theorem of_stepwise (hP : Steady desk P) (h : Stepwise desk x) : Agree desk P x x P := .refl (h.takes hP.stable)

theorem of_inline (hP : Steady desk P) (h : Inline desk x) : Agree desk P x x P := of_stepwise hP h.stepwise

theorem onPage (hP : Steady desk P) (f : Page → Page) : Agree desk P (onPage f) (onPage f) P :=
  .refl fun d _ _ hd h => by
    cases h
    exact hP.page d _ hd

theorem mark (hP : Steady desk P) (form : Passage.Form) (start : Page) :
    Agree desk P (mark form start) (mark form start) P := by
  unfold Writing.mark
  refine .read_bind ?_
  cases desk.wrapper.document with
  | none => exact .pure _
  | some document =>
    refine .page_bind fun p => .bind (.refl fun d _ _ hd h => ?_) fun _ => .pure _
    cases h
    exact hP.passages d _ hd

/-- Agreeing where a steady assertion holds, as a likeness. -/
def likeness (desk : Desk) (P : Draft → Prop) : Likeness Unit := fun _ x y => Agree desk P x (y ()) P

theorem congruent (hP : Steady desk P) : (likeness desk P).Congruent .all where
  pure a := .pure a
  throw _ := .throw _
  bind hx hf := .bind hx hf
  onPage f := .onPage hP f
  spell _ := .of_inline hP (spell_inline _)
  markDynamic := .of_inline hP markDynamic_inline
  field value _ _ := .of_inline hP (field_inline value _)
  fresh stem := .of_inline hP (fresh_inline stem)
  nameLabel l := .of_inline hP (nameLabel_inline l)
  addTaker target tail := .of_inline hP (addTaker_inline target tail)
  mark form start := .mark hP form start
  turn := by
    refine .of_inline hP (.of_step fun d a e hx => ?_)
    cases hx
    exact ⟨.turned d, rfl⟩
  get_bind hf := .get_bind hf
  read_bind hf := .read_bind (hf desk)

end Agree

/-! ## Functions -/

/-- The body of a function is written where nothing of the flow around it counts. -/
theorem inFunction_same (hQ : ∀ d, P d → Q { d with flow := {} }) (h : Agree desk Q x y R) :
    Agree desk P (inFunction x) (inFunction y) anywhere := by
  have henter : Takes desk P (onFlow fun _ => {}) Q := by
    intro d _ e hd hrun
    cases hrun
    exact hQ d hd
  exact .get_bind fun d => .bind (.refl henter) fun _ => .bind h fun _ => .rest _

theorem inFunction_agree (hP : Steady desk P) (hstep : Stepwise desk x) (hQ : ∀ d, P d → Q { d with flow := {} })
    (h : Agree desk Q x y R) : Agree desk P (inFunction x) (inFunction y) P :=
  (inFunction_same hQ h).ends ((inFunction_stepwise hstep).takes hP.stable)

end Writing

end Scribe
