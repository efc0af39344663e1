import Scribe.Proofs.Script.Text
import Scribe.Proofs.Writing.Safe

/-!
# Errors of a script

Every error has its cause in the tree, and a tree without defects whose types have full names always has a
script.
-/

namespace Scribe

variable {t : Tree} {w : Wrapper}

/-- Where the types of the draft and of the wrapper have full names, a script is put together. -/
theorem Draft.assemble_of_ranked {d : Draft} (h : d.Ranked) (hw : ∀ ty ∈ w.bases, ty.isRanked = true)
    (t : Tree) : ∃ r, d.assemble w t = .ok r := by
  have hbases : ∀ ty ∈ w.orderedBases, ty.isRanked = true := by
    intro ty hty
    rcases List.mem_append.mp hty with hty | hty <;> exact hw ty (List.mem_filter.mp hty).1
  have hspelled : ((w.orderedBases.mapM Lexicon.spell).run d.lexicon).2.Ranked :=
    Lexicon.ranked_mapM_spell id hbases h.lexicon
  have hall : (d.spelled w).2.2.Ranked := Lexicon.ranked_mapM_spell Field.ty h.fields hspelled
  obtain ⟨aliases, haliases⟩ := Option.isSome_iff_exists.mp (Lexicon.aliases?_isSome hall)
  rw [assemble_eq, text?]
  cases w.typeName with
  | none => exact ⟨_, rfl⟩
  | some name =>
    simp only [haliases]
    exact ⟨_, rfl⟩

/-- The only error of putting a script together is a missing full name. -/
theorem Draft.error_of_assemble {d : Draft} {err : ScriptError} (h : d.assemble w t = .error err) :
    err = .noFullName := by
  rw [assemble_eq] at h
  cases htext : d.text? w with
  | none =>
    rw [htext] at h
    cases h
    rfl
  | some r =>
    rw [htext] at h
    cases h

namespace Tree

/-- A script is refused where some pass is. -/
theorem exists_pass_of_error {err : ScriptError} (h : t.toScript w = .error err) :
    ∃ layout, t.pass ⟨w, layout⟩ = .error err := by
  unfold toScript at h
  cases hfirst : t.pass ⟨w, {}⟩ with
  | error err' =>
    rw [hfirst] at h
    cases h
    exact ⟨{}, hfirst⟩
  | ok r =>
    rw [hfirst] at h
    cases hd : w.document with
    | none =>
      simp only [hd, bind, Except.bind] at h
      cases h
    | some name =>
      simp only [hd, bind, Except.bind] at h
      cases hsecond : t.pass ⟨w, r.2⟩ with
      | error err' =>
        rw [hsecond] at h
        cases h
        exact ⟨r.2, hsecond⟩
      | ok r' =>
        rw [hsecond] at h
        cases h

/-- The draft in front of a tree has no types. -/
theorem ranked_firstPage (desk : Desk) : Draft.Ranked { page := desk.firstPage } := ⟨nofun, nofun⟩

/-- A pass is refused for a defect of the tree, or for a type without a full name. -/
theorem error_of_pass {desk : Desk} {err : ScriptError} (h : t.pass desk = .error err) :
    err ∈ t.defects ∨
      (err = .noFullName ∧ ∃ ty ∈ t.types ++ desk.wrapper.bases, ty.isRanked = false) := by
  have hfirst := fun _ : t.allowance.ranked => ranked_firstPage desk
  rw [pass_eq] at h
  cases hdraft : t.draft desk with
  | error err' =>
    rw [hdraft] at h
    cases h
    rcases t.writeRoot_safe.of_error hfirst hdraft with hdefect | ⟨rfl, ty, hty, hranked⟩
    · exact Or.inl hdefect
    · exact Or.inr ⟨rfl, ty, List.mem_append_left _ hty, hranked⟩
  | ok r =>
    rw [hdraft] at h
    obtain rfl := Draft.error_of_assemble h
    refine Or.inr ⟨rfl, Classical.byContradiction fun hnone => ?_⟩
    -- If all types had full names, the draft would be put together.
    have hranked : ∀ ty ∈ t.types ++ desk.wrapper.bases, ty.isRanked = true := by simpa using hnone
    rw [List.forall_mem_append] at hranked
    obtain ⟨script, hscript⟩ := Draft.assemble_of_ranked
      (t.writeRoot_safe.of_ok hfirst hdraft hranked.1) hranked.2 r.1
    cases h.symm.trans hscript

/-- **Every error has its cause in the tree, and a tree without defects has a script.** An error is that of a
defect of the tree, or the one for a type without a full name. -/
theorem toScript_error_justified (t : Tree) (w : Wrapper) :
    (∀ err, t.toScript w = .error err → err ∈ t.defects ∨
      (err = .noFullName ∧ ∃ ty ∈ t.types ++ w.bases, ty.isRanked = false)) ∧
    (t.defects = [] → (∀ ty ∈ t.types ++ w.bases, ty.isRanked = true) →
      ∃ script, t.toScript w = .ok script) := by
  refine ⟨fun err h => ?_, fun hdefects hranked => ?_⟩
  · obtain ⟨layout, hpass⟩ := exists_pass_of_error h
    exact error_of_pass hpass
  · refine exists_toScript fun layout => ?_
    cases hpass : t.pass ⟨w, layout⟩ with
    | ok r => exact ⟨r, rfl⟩
    | error err =>
      rcases error_of_pass hpass with hdefect | ⟨-, ty, hty, hnot⟩
      · rw [hdefects] at hdefect
        cases hdefect
      · rw [hranked ty hty] at hnot
        cases hnot

/-- A late-bound power is refused where it stands, as an argument in a method with markers. A late-bound sum in
its place is written, although the method that it is handed to has to be bound to a field. -/
theorem toScript_error_justified_lateBound :
    let x : Tree := .mk (.var { id := .given "x", ty := .object })
    let secret : Method :=
      { id := .given "m", owner := .object, name := "Secret", result := .array .int 2, isPublic := false,
        params := [⟨"a", .object, false⟩] }
    let t (op : BinaryOp) : Tree :=
      .lambda (.given "f") [] (.mk (.call none secret [.dynamic (.binaryOperation (.binary op)) [x, x]]))
    let w : Wrapper := { typeName := some "T", bases := [Ty.exception], document := some "T.cs" }
    let err : ScriptError := .unsupportedOperator (.binary .power)
    ((t .power).toScript w = .error err ∧ err ∈ (t .power).defects) ∧
      ((t .add).defects = [] ∧ (∀ ty ∈ (t .add).types ++ w.bases, ty.isRanked = true) ∧
        ∃ script, (t .add).toScript w = .ok script) := by
  intro x secret t w err
  have hpower : (t .power).toScript w = .error err := rfl
  have hdefects : (t .add).defects = [] := by decide +kernel
  have hranked : ∀ ty ∈ (t .add).types ++ w.bases, ty.isRanked = true := by decide +kernel
  refine ⟨⟨hpower, ?_⟩, hdefects, hranked, (toScript_error_justified (t .add) w).2 hdefects hranked⟩
  rcases (toScript_error_justified (t .power) w).1 err hpower with hdefect | ⟨hname, -⟩
  · exact hdefect
  · exact absurd hname (by decide)

end Tree

end Scribe
