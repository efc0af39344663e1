import Scribe.Proofs.Writing.Context

/-!
# Leaving by a jump

The text of a jump has up to three parts: what becomes of its value, the lines that clear the fault flags of the bodies
that it leaves, and the jump itself. A `return` takes its value along; then the value comes last.

`Tree.jump_evaluates_value_first` says what is written for a jump in each of these cases, from every draft. A value is
evaluated in front of all the lines that clear flags exactly when it is assigned to a variable or is written for its
effect.
-/

namespace Scribe

open Writing
open Text (Page)
open Draft (LeadsTo Runs)

variable {flow : Flow} {name : String}

/-! ## Clearing flags -/

/-- The page behind the lines that clear flags. -/
def Text.Page.cleared (p : Page) : List String → Page
  | [] => p
  | flag :: flags => (p.write (flag ++ " = false;")).newline.cleared flags

/-- The lines that clear flags, with the blanks of the line that comes next. -/
def resets (margin : String) : List String → String
  | [] => ""
  | flag :: flags => flag ++ " = false;" ++ ("\n" ++ margin) ++ resets margin flags

theorem Text.Page.settle_cleared_text (p : Page) (flags : List String) :
    (p.cleared flags).settle.text = p.settle.text ++ resets p.margin flags := by
  induction flags generalizing p with
  | nil => exact String.append_empty.symm
  | cons flag flags ih =>
    have hne : flag ++ " = false;" ≠ "" := by simp
    have hmargin : (p.write (flag ++ " = false;")).newline.margin = p.margin :=
      margin_congr ((newline_level _).trans (p.write_level _))
    rw [cleared, ih, settle_endLine_text hne, hmargin, resets]
    simp only [String.append_assoc]

namespace Writing

theorem clearFlags_apply (flags : List String) (desk : Desk) (d : Draft) :
    clearFlags flags desk d = .ok ((), { d with page := d.page.cleared flags }) := by
  induction flags generalizing d with
  | nil => rfl
  | cons flag flags ih =>
    rw [clearFlags, bind_apply]
    exact ih _

theorem clearFaults_bind {α : Type} (target : Option Label) (f : Unit → Writing α) (desk : Desk) (d : Draft) :
    (clearFaults target >>= f) desk d =
      f () desk { d with page := d.page.cleared (d.flow.flagsLeft (target.map (·.id))) } := by
  have hclear : clearFaults target desk d =
      .ok ((), { d with page := d.page.cleared (d.flow.flagsLeft (target.map (·.id))) }) :=
    clearFlags_apply _ desk d
  rw [bind_apply, hclear]

end Writing

/-! ## The jump itself -/

/-- How a jump is spelled; `name` is the name of its label. -/
def JumpForm.word (name : String) : JumpForm → String
  | .exit => "break"
  | .again => "continue"
  | .goto => "goto " ++ name

theorem JumpForm.word_ne (name : String) (form : JumpForm) : form.word name ≠ "" := by
  cases form <;> simp [word]

/-- The form in which a jump to the label is written in this flow. -/
def Flow.formOf (flow : Flow) (target : Label) : JumpForm := (Flow.resolve target.id true flow.scopes).1

theorem Writing.putJump_apply (target : Label) (desk : Desk) (d : Draft) :
    ∃ naming flow, putJump target desk d =
      .ok ((), { d with
        page := d.page.write ((d.flow.formOf target).word (d.naming.nameLabel target).1)
        naming, flow }) := by
  unfold putJump Flow.formOf
  simp only [bind_apply, get_apply]
  cases (Flow.resolve target.id true d.flow.scopes).1 with
  | exit | again | goto => exact ⟨_, _, rfl⟩

/-! ## The value -/

/-- From `d` to `e` the piece is written as a value, and `v` is its text. -/
structure Piece.Evaluates (desk : Desk) (p : Piece) (d : Draft) (v : String) (e : Draft) : Prop where
  run : ∃ u, p.value desk d = .ok (u, e)
  text : e.page.settle.text = d.page.settle.text ++ v

/-- Between the drafts `v` is written on the current line. -/
structure Draft.Prints (desk : Desk) (d : Draft) (v : String) (e : Draft) : Prop where
  runs : Runs desk d e
  text : e.page.settle.text = d.page.settle.text ++ v

theorem Draft.Prints.of_runs {desk : Desk} {d e : Draft} (h : Runs desk d e) : ∃ v, d.Prints desk v e := by
  obtain ⟨v, hv⟩ := h.2.settle_text
  exact ⟨v, h, hv⟩

/-- From `d` to `e` a value, or the default of a type that stands for it, is written, and `v` is its text. -/
structure Draft.Supplies (desk : Desk) (value : Option Piece) (ty : Ty) (d : Draft) (v : String) (e : Draft) :
    Prop where
  run : ∃ u, valueOrDefault value ty desk d = .ok (u, e)
  text : e.page.settle.text = d.page.settle.text ++ v

theorem Draft.Supplies.evaluates {desk : Desk} {p : Piece} {ty : Ty} {d e : Draft} {v : String}
    (h : Supplies desk (some p) ty d v e) : p.Evaluates desk d v e :=
  ⟨h.run, h.text⟩

/-- A value, or the default that stands for it, is written on the current line. -/
theorem Writing.valueOrDefault_prints {desk : Desk} {value : Option Piece} (hvalue : ∀ p ∈ value, p.Steps desk)
    {ty : Ty} {d e : Draft} {u : Tree} (h : valueOrDefault value ty desk d = .ok (u, e)) :
    ∃ v, d.Prints desk v e ∧ d.Supplies desk value ty v e := by
  obtain ⟨v, hv⟩ := Draft.Prints.of_runs (valueOrDefault_inline hvalue ty d u e h)
  exact ⟨v, hv, ⟨u, h⟩, hv.text⟩

/-! ## The four ways of writing a jump -/

/-- The end of a statement, with the blanks of the line that comes next. -/
def Text.Page.lineEnd (p : Page) : String := ";\n" ++ p.margin

/-- From `d` to `e`, `lead` is written, then a line for each of the flags that clears it, and then `last`. -/
def Draft.Clears (flags : List String) (lead last : String) (d e : Draft) : Prop :=
  e.page.text = d.page.settle.text ++ (lead ++ (resets d.page.margin flags ++ last))

/-- A jump is written as a `return` when its label hands on the value as the result, or when no label assigns the
value and the jump is a return itself. -/
def Flow.Returns (flow : Flow) (kind : JumpKind) (target : Label) : Prop :=
  flow.takers.lookup target.id = some .result ∨
    kind = .returnTo ∧ ∀ name, flow.takers.lookup target.id ≠ some (.assign name)

theorem Flow.flagsLeft_congr {flow' : Flow} (h : flow.faults = flow'.faults) (target : Option Ident) :
    flow.flagsLeft target = flow'.flagsLeft target := by
  unfold Flow.flagsLeft
  rw [h]

namespace Writing

variable {desk : Desk} {d e m : Draft} {kind : JumpKind} {target : Label} {value : Option Piece} {u t : Tree}
  {lead : String}

/-- Clears flags and jumps to the label. -/
def depart (target : Label) (u : Tree) : Writing Tree := do
  clearFaults (some target)
  putJump target
  return u

/-- Behind `lead`, the flags of the bodies around are cleared in front of the jump. -/
theorem depart_clears (hm : LeadsTo desk d m) (hlead : m.page.settle.text = d.page.settle.text ++ lead)
    (h : depart target u desk m = .ok (t, e)) :
    d.Clears (d.flow.flagsLeft (some target.id)) lead
      ((m.flow.formOf target).word (m.naming.nameLabel target).1) e := by
  obtain ⟨naming, flow, hjump⟩ := putJump_apply target desk
    { m with page := m.page.cleared (m.flow.flagsLeft (some target.id)) }
  rw [depart, clearFaults_bind, Option.map_some, bind_apply, hjump] at h
  cases h
  have hflags : m.flow.flagsLeft (some target.id) = d.flow.flagsLeft (some target.id) :=
    Flow.flagsLeft_congr hm.faults _
  have hmargin : m.page.margin = d.page.margin := Page.margin_congr hm.level
  unfold Draft.Clears
  rw [Page.write_text (JumpForm.word_ne _ _), Page.settle_cleared_text, hlead, hflags, hmargin]
  simp only [String.append_assoc]

/-- The same, when the line of `lead` has to be ended first. -/
theorem endLine_clears (hm : LeadsTo desk d m) (hlead : m.page.settle.text = d.page.settle.text ++ lead)
    (h : (do put ";"; newline; depart target u) desk m = .ok (t, e)) :
    d.Clears (d.flow.flagsLeft (some target.id)) (lead ++ d.page.lineEnd)
      ((m.flow.formOf target).word (m.naming.nameLabel target).1) e := by
  have hended : LeadsTo desk d { m with page := (m.page.write ";").newline } :=
    hm.trans ((LeadsTo.put m ";").trans (.newline _))
  have hmargin : m.page.margin = d.page.margin := Page.margin_congr hm.level
  have hline : (m.page.write ";").newline.settle.text = d.page.settle.text ++ (lead ++ d.page.lineEnd) := by
    rw [Page.settle_endLine_text (by decide), hlead, hmargin, Page.lineEnd, String.append_assoc]
    rfl
  exact depart_clears (m := { m with page := (m.page.write ";").newline }) hended hline h

/-- The value of a label that hands it on as the result is returned. -/
theorem jump_of_result (hresult : d.flow.takers.lookup target.id = some .result) :
    jump kind target value desk d = (do
      clearFaults none
      put "return "
      let t ← valueOrDefault value target.ty
      return Tree.jump kind target (some t)) desk d := by
  unfold jump
  simp only [bind_apply, get_apply, hresult]

theorem jump_of_assign (hname : d.flow.takers.lookup target.id = some (.assign name)) :
    jump kind target value desk d = (do
      put (name ++ " = ")
      let t ← valueOrDefault value target.ty
      put ";"
      newline
      depart target (.jump kind target (some t))) desk d := by
  unfold jump depart
  simp only [bind_apply, get_apply, hname]

section Untaken

variable (hresult : d.flow.takers.lookup target.id ≠ some .result)
  (hassign : ∀ name, d.flow.takers.lookup target.id ≠ some (.assign name))

include hresult hassign

/-- A return whose value no label takes over. -/
theorem jump_of_returnTo : jump .returnTo target value desk d = (do
    clearFaults none
    put "return"
    let t ← match value with
      | some p => do
        put " "
        let t ← p.value
        pure (some t)
      | none => pure none
    return Tree.jump .returnTo target t) desk d := by
  cases value <;> simp only [jump, bind_apply, get_apply]

/-- Any other jump whose value no label takes over. -/
theorem jump_of_untaken (hkind : kind ≠ .returnTo) : jump kind target value desk d = (do
    let t ← effectOf value
    depart target (.jump kind target t)) desk d := by
  unfold jump depart
  simp only [bind_apply, get_apply]

end Untaken

/-- Behind a `return`, the value goes on with the line. -/
theorem returned_clears {v : String} (flags : List String)
    (hv : Draft.Prints desk { d with page := (d.page.cleared flags).write "return " } v e) :
    d.Clears flags "" ("return" ++ (" " ++ v)) e := by
  have hstart : ((d.page.cleared flags).write "return ").owesIndent = false := Page.write_owesIndent (by decide) _
  obtain ⟨hend, -⟩ := hv.runs.2.settled hstart
  unfold Draft.Clears
  rw [← Page.settle_of_settled hend, hv.text, Page.settle_of_settled hstart, Page.write_text (by decide),
    Page.settle_cleared_text, String.empty_append, String.append_assoc, String.append_assoc]
  rfl

/-- A `return` clears the flags of all bodies around, and takes its value along. -/
theorem jump_returns (hvalue : ∀ p ∈ value, p.Steps desk) (hreturns : d.flow.Returns kind target)
    (h : jump kind target value desk d = .ok (t, e)) :
    ∃ w, d.Clears (d.flow.flagsLeft none) "" ("return" ++ w) e ∧
      (value = none ∧ w = "" ∨ ∃ v, w = " " ++ v ∧
        Draft.Supplies desk value target.ty
          { d with page := (d.page.cleared (d.flow.flagsLeft none)).write "return " } v e) := by
  by_cases hresult : d.flow.takers.lookup target.id = some .result
  · rw [jump_of_result hresult, clearFaults_bind, put_bind] at h
    obtain ⟨a, m, hrun, h⟩ := bind_eq_ok.mp h
    cases h
    obtain ⟨v, hprints, hsupplies⟩ := valueOrDefault_prints hvalue hrun
    exact ⟨" " ++ v, returned_clears _ hprints, .inr ⟨v, rfl, hsupplies⟩⟩
  · obtain ⟨rfl, hassign⟩ := hreturns.resolve_left hresult
    rw [jump_of_returnTo hresult hassign, clearFaults_bind, put_bind] at h
    cases value with
    | none =>
      cases h
      refine ⟨"", ?_, .inl ⟨rfl, rfl⟩⟩
      unfold Draft.Clears
      rw [Page.write_text (by decide), Page.settle_cleared_text, String.empty_append, String.append_assoc]
      rfl
    | some p =>
      simp only [put_bind, Page.write_write] at h
      obtain ⟨b, m, hrun, h⟩ := bind_eq_ok.mp h
      cases h
      obtain ⟨v, hprints⟩ := Draft.Prints.of_runs (Piece.value_inline (hvalue p rfl) _ _ _ hrun)
      exact ⟨" " ++ v, returned_clears _ hprints, .inr ⟨v, rfl, ⟨b, hrun⟩, hprints.text⟩⟩

/-- An assigned value is evaluated in front of the cleared flags. -/
theorem jump_assigns (hvalue : ∀ p ∈ value, p.Steps desk)
    (hname : d.flow.takers.lookup target.id = some (.assign name)) (h : jump kind target value desk d = .ok (t, e)) :
    ∃ v m, d.Clears (d.flow.flagsLeft (some target.id)) (name ++ " = " ++ v ++ d.page.lineEnd)
        ((m.flow.formOf target).word (m.naming.nameLabel target).1) e ∧
      Draft.Supplies desk value target.ty { d with page := d.page.write (name ++ " = ") } v m := by
  rw [jump_of_assign hname, put_bind] at h
  obtain ⟨a, m, hrun, h⟩ := bind_eq_ok.mp h
  obtain ⟨v, hprints, hsupplies⟩ := valueOrDefault_prints hvalue hrun
  have hlead : m.page.settle.text = d.page.settle.text ++ (name ++ " = " ++ v) := by
    rw [hprints.text, Page.settle_write_text, String.append_assoc]
  exact ⟨v, m, endLine_clears ((LeadsTo.put d _).trans hprints.runs.1) hlead h, hsupplies⟩

section Untaken

variable (hresult : d.flow.takers.lookup target.id ≠ some .result)
  (hassign : ∀ name, d.flow.takers.lookup target.id ≠ some (.assign name)) (hkind : kind ≠ .returnTo)

include hresult hassign hkind

/-- A value that is written for its effect is evaluated in front of the cleared flags. -/
theorem jump_effects {p : Piece} (hp : p.Steps desk) (heffect : p.tree.node.isEffect = true)
    (h : jump kind target (some p) desk d = .ok (t, e)) :
    ∃ v m, d.Clears (d.flow.flagsLeft (some target.id)) (v ++ d.page.lineEnd)
        ((m.flow.formOf target).word (m.naming.nameLabel target).1) e ∧ p.Evaluates desk d v m := by
  have hexpression : p.tree.isExpression = true := isExpression_of_isEffect heffect
  have hvalue : p.value = p.inline := if_pos hexpression
  rw [jump_of_untaken hresult hassign hkind] at h
  simp only [effectOf, if_pos heffect] at h
  rw [bind_assoc] at h
  obtain ⟨a, m, hrun, h⟩ := bind_eq_ok.mp h
  obtain ⟨v, hprints⟩ := Draft.Prints.of_runs (hp.inline .discard hexpression _ _ _ hrun)
  have hend : (do put ";"; newline; depart target (Tree.jump kind target (some a))) desk m = .ok (t, e) := h
  exact ⟨v, m, endLine_clears hprints.runs.1 hprints.text hend, ⟨a, hvalue ▸ hrun⟩, hprints.text⟩

/-- Without a value that is written, the flags are cleared at once. -/
theorem jump_goes (heffect : ∀ p ∈ value, p.tree.node.isEffect = false)
    (h : jump kind target value desk d = .ok (t, e)) :
    d.Clears (d.flow.flagsLeft (some target.id)) "" ((d.flow.formOf target).word (d.naming.nameLabel target).1) e := by
  rw [jump_of_untaken hresult hassign hkind] at h
  have heffectOf : effectOf value desk d = .ok (value.map (·.tree), d) := by
    cases value with
    | none => rfl
    | some p =>
      simp only [effectOf, heffect p rfl]
      rfl
  rw [bind_apply, heffectOf] at h
  exact depart_clears (.refl d) String.append_empty.symm h

end Untaken

end Writing

/-! ## The value of a jump -/

/-- What is written in front of the value of a jump to the label. -/
def Flow.leadTo (flow : Flow) (target : Label) : String :=
  match flow.takers.lookup target.id with
  | some (.assign name) => name ++ " = "
  | _ => ""

theorem Flow.leadTo_of_assign {target : Label}
    (h : flow.takers.lookup target.id = some (.assign name)) : flow.leadTo target = name ++ " = " := by
  rw [leadTo, h]

theorem Flow.leadTo_of_not_assign {target : Label}
    (h : ∀ name, flow.takers.lookup target.id ≠ some (.assign name)) : flow.leadTo target = "" := by
  unfold leadTo
  split
  · next name hname => exact absurd hname (h name)
  · rfl

/-- The value of a jump that does not return is written in a statement of its own: a variable takes it over, or it is
written for its effect. -/
def Flow.Keeps (flow : Flow) (target : Label) (value : Tree) : Prop :=
  (∃ name, flow.takers.lookup target.id = some (.assign name)) ∨ value.node.isEffect = true

namespace Tree

variable {kind : JumpKind} {target : Label} {c u : Tree} {ty : Ty} {tail : Tail} {desk : Desk} {d e : Draft}

/-- **A value that is assigned or written for its effect is evaluated before flags are cleared.** It is a whole
statement in front of all the lines that clear the flags of the bodies that the jump leaves. Any other value of a jump
that does not return is not written at all, and the value of a `return` comes behind the flags of all bodies around. -/
theorem jump_evaluates_value_first
    (h : (Tree.mk (.jump kind target (some c) ty)).piece.write tail desk d = .ok (u, e)) :
    (¬d.flow.Returns kind target → d.flow.Keeps target c →
      ∃ v m form name, c.piece.Evaluates desk { d with page := d.page.write (d.flow.leadTo target) } v m ∧
        d.Clears (d.flow.flagsLeft (some target.id)) (d.flow.leadTo target ++ v ++ d.page.lineEnd)
          (JumpForm.word name form) e) ∧
    (¬d.flow.Returns kind target → ¬d.flow.Keeps target c →
      ∃ form name, d.Clears (d.flow.flagsLeft (some target.id)) "" (JumpForm.word name form) e) ∧
    (d.flow.Returns kind target →
      ∃ v, d.Clears (d.flow.flagsLeft none) "" ("return " ++ v) e ∧
        c.piece.Evaluates desk { d with page := (d.page.cleared (d.flow.flagsLeft none)).write "return " } v e) := by
  have hsteps : ∀ p ∈ some c.piece, p.Steps desk := by
    rintro p ⟨⟩
    exact c.steps
  rw [Tree.piece_mk] at h
  have hrun : Writing.jump kind target (some c.piece) desk d = .ok (u, e) := h
  have hresult (hreturns : ¬d.flow.Returns kind target) : d.flow.takers.lookup target.id ≠ some .result :=
    fun hresult => hreturns (.inl hresult)
  have hkind (hreturns : ¬d.flow.Returns kind target)
      (hassign : ∀ name, d.flow.takers.lookup target.id ≠ some (.assign name)) : kind ≠ .returnTo :=
    fun hkind => hreturns (.inr ⟨hkind, hassign⟩)
  refine ⟨fun hreturns hkeeps => ?_, fun hreturns hkeeps => ?_, fun hreturns => ?_⟩
  · by_cases hassign : ∃ name, d.flow.takers.lookup target.id = some (.assign name)
    · obtain ⟨name, hname⟩ := hassign
      obtain ⟨v, m, hclears, hsupplies⟩ := jump_assigns hsteps hname hrun
      rw [Flow.leadTo_of_assign hname]
      exact ⟨v, m, _, _, hsupplies.evaluates, hclears⟩
    · have heffect := hkeeps.resolve_left hassign
      rw [not_exists] at hassign
      obtain ⟨v, m, hclears, hevaluates⟩ :=
        jump_effects (hresult hreturns) hassign (hkind hreturns hassign) c.steps heffect hrun
      simp only [Flow.leadTo_of_not_assign hassign, String.empty_append, Page.write_empty]
      exact ⟨v, m, _, _, hevaluates, hclears⟩
  · obtain ⟨hassign, heffect⟩ := not_or.mp hkeeps
    rw [not_exists] at hassign
    have hdropped : ∀ p ∈ some c.piece, p.tree.node.isEffect = false := by
      rintro p ⟨⟩
      exact Bool.eq_false_iff.mpr heffect
    exact ⟨_, _, jump_goes (hresult hreturns) hassign (hkind hreturns hassign) hdropped hrun⟩
  · obtain ⟨w, hclears, ⟨hnone, -⟩ | ⟨v, rfl, hsupplies⟩⟩ := jump_returns hsteps hreturns hrun
    · cases hnone
    · exact ⟨v, hclears, hsupplies.evaluates⟩

/-- A jump out of two guarded bodies, to a label whose value a variable takes over: the call is on the first line, and
the flags are cleared behind it. -/
theorem jump_evaluates_value_first_assigned :
    let m : Method := { id := .given "m", owner := Ty.system "Environment", name := "Next", result := .int }
    let l : Label := { id := .given "l", ty := .int }
    let call : Tree := .mk (.call none m [])
    let faults : List FaultScope := [⟨"fault2", []⟩, ⟨"fault1", []⟩]
    let d : Draft := { page := {}, flow := { faults := faults, takers := [(l.id, .assign "result1")] } }
    let desk : Desk := ⟨{}, {}⟩
    ∃ u e, (Tree.jump .goto l (some call)).piece.write .discard desk d = .ok (u, e) ∧
      e.page.text = "result1 = Environment.Next();\nfault2 = false;\nfault1 = false;\ngoto label1" ∧
      ∃ v k form name, call.piece.Evaluates desk { d with page := d.page.write "result1 = " } v k ∧
        d.Clears ["fault2", "fault1"] ("result1 = " ++ v ++ d.page.lineEnd) (JumpForm.word name form) e := by
  intro m l call faults d desk
  have htext : ((Tree.jump .goto l (some call)).piece.write .discard desk d).toOption.map (·.2.page.text) =
      some "result1 = Environment.Next();\nfault2 = false;\nfault1 = false;\ngoto label1" := by
    decide +kernel
  have hreturns : ¬d.flow.Returns .goto l := by
    rintro (hresult | ⟨hkind, -⟩)
    · cases hresult
    · cases hkind
  cases h : (Tree.jump .goto l (some call)).piece.write .discard desk d with
  | error err =>
    rw [h] at htext
    cases htext
  | ok r =>
    obtain ⟨u, e⟩ := r
    rw [h] at htext
    have hfirst := (jump_evaluates_value_first h).1 hreturns (.inl ⟨"result1", rfl⟩)
    exact ⟨u, e, rfl, Option.some.inj htext, hfirst⟩

/-- A `return` in a guarded body whose value is a call: the flag is cleared first, so that the handler does not run when
the call fails. -/
theorem returned_call_behind_flag :
    let m : Method := { id := .given "m", owner := Ty.system "Environment", name := "Next", result := .int }
    let undo : Method := { id := .given "f", owner := Ty.system "Environment", name := "Undo", result := .void }
    let l : Label := { id := .given "l", ty := .int }
    let t : Tree := .tryCatch (.jump .returnTo l (some (.mk (.call none m [])))) [] none (some (.mk (.call none undo [])))
    (t.toScript {}).toOption.map (·.text) = some
      ("bool fault1 = true;\ntry\n\x7b\n" ++
        "    fault1 = false;\n    return Environment.Next();\n    fault1 = false;\n\x7d\n" ++
        "finally\n\x7b\n    if (fault1)\n    \x7b\n        Environment.Undo();\n    \x7d\n\x7d") := by
  decide +kernel

end Tree

end Scribe
