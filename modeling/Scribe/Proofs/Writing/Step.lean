import Scribe.Proofs.Text.Page
import Scribe.Proofs.Writing.Run
import Scribe.Writing.Piece

/-!
# What writing can do to a draft

`Draft.LeadsTo` lists the steps in which a draft changes: text is put on the page, a type is spelled, a
name is asked for, and so on. Steps that are taken back later (an indentation, a loop that is entered, a
page of its own for a method) are one step together with everything that happens in between.

A computation is *stepwise* when every successful run of it is such a chain of steps, and *inline* when
moreover its text stands on the current line, as that of an expression does. The modules behind this one
show it of every tree, so that an invariant of drafts has to be checked step by step only.

Assertions are predicates of drafts. `Writing.Takes` is the triple of two assertions around a computation,
and an assertion is *stable* when no step can make it false. What happens between the two halves of a step
that is taken back is an assertion as well (`Draft.Indented` and its like).
-/

namespace Scribe

open Text (Page Position)

/-- Whether a text has the form of what is marked: a statement has its lead in front and a semicolon at
the end. -/
def Passage.Form.Fits : Passage.Form → String → Prop
  | .statement lead, text => ∃ s, text = lead ++ s ++ ";"
  | .test, _ => True

/-- The passage is `text`: it was written behind the page in front of it, and no blanks are owed behind
it. -/
structure Passage.Covers (g : Passage) (text : String) : Prop where
  stop_text : g.stop.text = g.start.settle.text ++ text
  settled : g.stop.owesIndent = false
  fits : g.form.Fits text

/-- What the name of a value's field recalls: the type of an object, or the name of a method. -/
def Hoisted.hint : Hoisted → String
  | .object o => o.ty.runtimeName
  | .method m => m.name
  | .varSet _ => "RuntimeVariables"

namespace Draft

/-- The draft inside a loop or a switch. -/
def enter (d : Draft) (scope : JumpScope) : Draft :=
  { d with flow := { d.flow with scopes := scope :: d.flow.scopes } }

/-- The draft behind the innermost loop or switch. -/
def leave (d : Draft) : Draft :=
  { d with flow := { d.flow with scopes := d.flow.scopes.drop 1 } }

/-- The draft inside a body with a fault handler. -/
def guard (d : Draft) (scope : FaultScope) : Draft :=
  { d with flow := { d.flow with faults := scope :: d.flow.faults } }

/-- The draft behind the innermost body with a fault handler. -/
def unguard (d : Draft) : Draft :=
  { d with flow := { d.flow with faults := d.flow.faults.drop 1 } }

/-- The steps of writing. -/
inductive LeadsTo (desk : Desk) : Draft → Draft → Prop where
  | refl (d : Draft) : LeadsTo desk d d
  | trans {d e f : Draft} : LeadsTo desk d e → LeadsTo desk e f → LeadsTo desk d f
  | put (d : Draft) (s : String) : LeadsTo desk d { d with page := d.page.write s }
  | newline (d : Draft) : LeadsTo desk d { d with page := d.page.newline }
  | indented {d e : Draft} : LeadsTo desk { d with page := d.page.indent } e →
      LeadsTo desk d { e with page := e.page.dedent }
  | spelled (d : Draft) (ty : Ty) :
      LeadsTo desk d { d with lexicon := ((Lexicon.spell ty).run d.lexicon).2 }
  | lateBound (d : Draft) : LeadsTo desk d { d with lexicon := d.lexicon.markDynamic }
  | fresh (d : Draft) (stem : String) : LeadsTo desk d { d with naming := (d.naming.fresh stem).2 }
  | namedVariable (d : Draft) (v : Variable) :
      LeadsTo desk d { d with naming := (d.naming.nameVariable v).2 }
  | namedLabel (d : Draft) (l : Label) :
      LeadsTo desk d { d with naming := (d.naming.nameLabel l).2 }
  | namedLambda (d : Draft) (sig : Signature) :
      LeadsTo desk d { d with naming := (d.naming.nameLambda sig).2 }
  | hoisted (d : Draft) (value : Hoisted) (ty : Ty) :
      LeadsTo desk d
        { d with
          fields := (Field.request d.fields d.naming value ty value.hint).2.1
          naming := (Field.request d.fields d.naming value ty value.hint).2.2 }
  | declared (d : Draft) (v : Ident) :
      LeadsTo desk d { d with undeclared := d.undeclared.filter (· != v) }
  | postponed (d : Draft) (v : Ident) :
      LeadsTo desk d { d with undeclared := v :: d.undeclared.filter (· != v) }
  | taken (d : Draft) (target : Ident) (tail : Tail) :
      LeadsTo desk d { d with flow := { d.flow with takers := (target, tail) :: d.flow.takers } }
  | resolved (d : Draft) (target : Ident) :
      LeadsTo desk d
        { d with flow := { d.flow with scopes := (Flow.resolve target true d.flow.scopes).2 } }
  | entered {d e : Draft} (scope : JumpScope) : LeadsTo desk (d.enter scope) e → LeadsTo desk d e.leave
  | guarded {d e : Draft} (scope : FaultScope) :
      LeadsTo desk (d.guard scope) e → LeadsTo desk d e.unguard
  | inFunction {d e : Draft} : LeadsTo desk { d with flow := {} } e →
      LeadsTo desk d { e with flow := d.flow }
  | turned (d : Draft) : LeadsTo desk d { d with turns := d.turns + 1 }
  | marked {d e : Draft} (form : Passage.Form) (text : String) :
      desk.wrapper.document ≠ none → LeadsTo desk d e →
      Passage.Covers ⟨form, d.page, e.page⟩ text →
      LeadsTo desk d { e with passages := e.passages ++ [⟨form, d.page, e.page⟩] }
  | promoted {d e : Draft} (source : Ident) (t : Tree) : LeadsTo desk (d.onMethodPage desk) e →
      LeadsTo desk d (d.endMethod e source t)

variable {desk : Desk} {d e f : Draft}

/-- Steps only add text at the end of the page. -/
theorem LeadsTo.extends_page (h : LeadsTo desk d e) : d.page.Extends e.page := by
  induction h with
  | trans _ _ ih₁ ih₂ => exact ih₁.trans ih₂
  | put d s => exact .write d.page s
  | newline d => exact .newline d.page
  | indented _ ih => exact ⟨ih.text, ih.opensDocument⟩
  | entered _ _ ih | guarded _ _ ih | inFunction _ ih | marked _ _ _ _ _ ih => exact ih
  | _ => exact .refl _

theorem LeadsTo.text (h : LeadsTo desk d e) : ∃ s, e.page.text = d.page.text ++ s :=
  h.extends_page.text.imp fun _ hs => hs.1

/-- Steps go back to the level that they started from. -/
theorem LeadsTo.level (h : LeadsTo desk d e) : e.page.level = d.page.level := by
  induction h with
  | trans _ _ ih₁ ih₂ => exact ih₂.trans ih₁
  | put d s => exact d.page.write_level s
  | newline d => exact d.page.newline_level
  | indented _ ih => exact congrArg (· - 1) ih
  | entered _ _ ih | guarded _ _ ih | inFunction _ ih | marked _ _ _ _ _ ih => exact ih
  | _ => rfl

/-! ## Assertions -/

/-- Steps that put their text on the current line. -/
def Runs (desk : Desk) (d e : Draft) : Prop := LeadsTo desk d e ∧ d.page.RunsOn e.page

/-- Steps whose text starts on the current line. -/
def Begun (desk : Desk) (d e : Draft) : Prop :=
  LeadsTo desk d e ∧ ∃ s, e.page.text = d.page.settle.text ++ s

theorem Runs.refl (d : Draft) : Runs desk d d := ⟨.refl d, .refl d.page⟩

theorem Runs.trans (h₁ : Runs desk d e) (h₂ : Runs desk e f) : Runs desk d f :=
  ⟨h₁.1.trans h₂.1, h₁.2.trans h₂.2⟩

/-- An assertion that steps do not make false. -/
def Stable (desk : Desk) (P : Draft → Prop) : Prop := ∀ d e, P d → LeadsTo desk d e → P e

theorem stable_leadsTo (desk : Desk) (d : Draft) : Stable desk (LeadsTo desk d) := fun _ _ h h' => h.trans h'

theorem stable_begun (desk : Desk) (d : Draft) : Stable desk (Begun desk d) := by
  rintro e f ⟨h, s, hs⟩ h'
  obtain ⟨t, ht⟩ := h'.text
  exact ⟨h.trans h', s ++ t, by rw [ht, hs, String.append_assoc]⟩

/-- `P`, and no blanks are owed. -/
def Settled (P : Draft → Prop) (d : Draft) : Prop := P d ∧ d.page.owesIndent = false

/-- A level deeper than where `P` was. -/
def Indented (desk : Desk) (P : Draft → Prop) (e : Draft) : Prop :=
  ∃ d, P d ∧ LeadsTo desk { d with page := d.page.indent } e

/-- Inside a loop or a switch that was entered where `P` was. -/
def Entered (desk : Desk) (P : Draft → Prop) (e : Draft) : Prop :=
  ∃ d scope, P d ∧ LeadsTo desk (d.enter scope) e

variable {P : Draft → Prop}

theorem stable_indented (desk : Desk) (P : Draft → Prop) : Stable desk (Indented desk P) :=
  fun _ _ ⟨d, hd, h⟩ h' => ⟨d, hd, h.trans h'⟩

theorem stable_entered (desk : Desk) (P : Draft → Prop) : Stable desk (Entered desk P) :=
  fun _ _ ⟨d, scope, hd, h⟩ h' => ⟨d, scope, hd, h.trans h'⟩

end Draft

namespace Writing

open Draft (LeadsTo Runs Begun Stable Settled Indented Entered)

variable {α β : Type} {desk : Desk} {P Q R : Draft → Prop} {x : Writing α} {f : α → Writing β}

/-! ## Triples -/

/-- Where `P` holds, a successful run of `x` ends where `Q` holds. -/
def Takes (desk : Desk) (P : Draft → Prop) (x : Writing α) (Q : Draft → Prop) : Prop :=
  ∀ d a e, P d → x desk d = .ok (a, e) → Q e

/-- Every successful run is a chain of steps. -/
def Stepwise (desk : Desk) (x : Writing α) : Prop :=
  ∀ d a e, x desk d = .ok (a, e) → LeadsTo desk d e

/-- Every successful run is a chain of steps that put their text on the current line. -/
def Inline (desk : Desk) (x : Writing α) : Prop :=
  ∀ d a e, x desk d = .ok (a, e) → Runs desk d e

theorem Takes.bind (hx : Takes desk P x Q) (hf : ∀ a, Takes desk Q (f a) R) : Takes desk P (x >>= f) R := by
  intro d b e hd h
  obtain ⟨a, d', h₁, h₂⟩ := bind_eq_ok.mp h
  exact hf a d' b e (hx d a d' hd h₁) h₂

theorem Takes.pure (a : α) : Takes desk P (Pure.pure a) P := by
  intro d b e hd h
  cases h
  exact hd

theorem Takes.map {g : α → β} (hx : Takes desk P x Q) : Takes desk P (x >>= fun a => Pure.pure (g a)) Q :=
  .bind hx fun _ => .pure _

theorem Takes.get_bind {f : Draft → Writing β} (hf : ∀ a, Takes desk P (f a) Q) : Takes desk P (get >>= f) Q := by
  intro d b e hd h
  exact hf d d b e hd h

/-- A stepwise computation keeps what is stable. -/
theorem Stepwise.takes (h : Stepwise desk x) (hP : Stable desk P) : Takes desk P x P :=
  fun d a e hd hx => hP d e hd (h d a e hx)

/-- A computation is stepwise when it keeps what is stable. -/
theorem Stepwise.of_stable (h : ∀ P, Stable desk P → Takes desk P x P) : Stepwise desk x :=
  fun d a e hx => h _ (Draft.stable_leadsTo desk d) d a e (.refl d) hx

theorem Inline.takes (h : Inline desk x) (d : Draft) : Takes desk (Runs desk d) x (Runs desk d) :=
  fun e a e' he hx => he.trans (h e a e' hx)

theorem Inline.of_takes (h : ∀ d, Takes desk (Runs desk d) x (Runs desk d)) : Inline desk x :=
  fun d a e hx => h d d a e (.refl d) hx

theorem Inline.stepwise (h : Inline desk x) : Stepwise desk x := fun d a e hx => (h d a e hx).1

theorem Stepwise.bind (hx : Stepwise desk x) (hf : ∀ a, Stepwise desk (f a)) : Stepwise desk (x >>= f) := by
  refine .of_stable fun P hP => .bind (hx.takes hP) fun a => ?_
  exact (hf a).takes hP

theorem Inline.bind (hx : Inline desk x) (hf : ∀ a, Inline desk (f a)) : Inline desk (x >>= f) :=
  .of_takes fun d => .bind (hx.takes d) fun a => (hf a).takes d

/-- Every result of a successful run has the property `R`. -/
def Gives (desk : Desk) (x : Writing α) (R : α → Prop) : Prop :=
  ∀ d a e, x desk d = .ok (a, e) → R a

theorem Gives.bind {R : β → Prop} (h : ∀ a, Gives desk (f a) R) : Gives desk (x >>= f) R := by
  intro d b e hx
  obtain ⟨a, d', _, hf⟩ := bind_eq_ok.mp hx
  exact h a d' b e hf

theorem Gives.pure {R : α → Prop} {a : α} (h : R a) : Gives desk (Pure.pure a) R := by
  intro d b e hx
  cases hx
  exact h

theorem Inline.pure (a : α) : Inline desk (Pure.pure a : Writing α) := by
  intro d b e h
  cases h
  exact .refl d

theorem Stepwise.pure (a : α) : Stepwise desk (Pure.pure a : Writing α) := (Inline.pure a).stepwise

theorem Inline.map {g : α → β} (hx : Inline desk x) : Inline desk (x >>= fun a => Pure.pure (g a)) :=
  .bind hx fun _ => .pure _

theorem Stepwise.map {g : α → β} (hx : Stepwise desk x) : Stepwise desk (x >>= fun a => Pure.pure (g a)) :=
  .bind hx fun _ => .pure _

theorem Inline.throw (err : ScriptError) : Inline desk (MonadExcept.throw err : Writing α) := by
  intro d a e h
  cases h

theorem Inline.ite {c : Prop} [Decidable c] {x y : Writing α} (hx : Inline desk x)
    (hy : Inline desk y) : Inline desk (if c then x else y) := by
  split
  · exact hx
  · exact hy

theorem Stepwise.ite {c : Prop} [Decidable c] {x y : Writing α} (hx : Stepwise desk x)
    (hy : Stepwise desk y) : Stepwise desk (if c then x else y) := by
  split
  · exact hx
  · exact hy

theorem Stepwise.mapM {γ : Type} {g : γ → Writing α} {cs : List γ}
    (h : ∀ c ∈ cs, Stepwise desk (g c)) : Stepwise desk (cs.mapM g) := by
  induction cs with
  | nil => exact .pure _
  | cons c cs ih =>
    rw [List.mapM_cons]
    exact .bind (h c (by simp)) fun _ => .map (ih fun c hc => h c (by simp [hc]))

theorem Inline.get_bind {f : Draft → Writing β} (hf : ∀ a, Inline desk (f a)) : Inline desk (get >>= f) := by
  intro d b e h
  exact hf d d b e h

theorem Stepwise.get_bind {f : Draft → Writing β} (hf : ∀ a, Stepwise desk (f a)) : Stepwise desk (get >>= f) := by
  intro d b e h
  exact hf d d b e h

theorem Stepwise.read_bind {f : Desk → Writing β} (hf : Stepwise desk (f desk)) : Stepwise desk (read >>= f) := by
  intro d b e h
  exact hf d b e h

/-- A computation that changes something else than the page, in one step. -/
theorem Inline.of_step (h : ∀ d a e, x desk d = .ok (a, e) → LeadsTo desk d e ∧ e.page = d.page) : Inline desk x := by
  intro d a e hx
  obtain ⟨hs, hp⟩ := h d a e hx
  exact ⟨hs, Or.inl hp⟩

end Writing

end Scribe
