import Scribe.Proofs.Script.Text
import Scribe.Proofs.Writing.Step.Tree

/-!
# The document does not matter

A document asks for markers, and for nothing else. With it, every statement and every test leaves a mark,
old sequence points are dropped, and the script is written twice; none of this can be seen in what is
written. A script with a document and one without are written side by side here, and then put together: the
two differ in their trees and markers only, and without a document there are no markers at all.
-/

namespace Scribe

open Text (Page)

variable {t : Tree} {w : Wrapper}

/-- Two scripts that are the same as far as a compiler can see. -/
structure Script.ReadsAs (a b : Script) : Prop where
  text : a.text = b.text
  fields : a.fields = b.fields
  namespaces : a.namespaces = b.namespaces
  assemblies : a.assemblies = b.assemblies
  usesDynamic : a.usesDynamic = b.usesDynamic

theorem Script.ReadsAs.trans {a b c : Script} (h₁ : a.ReadsAs b) (h₂ : b.ReadsAs c) : a.ReadsAs c where
  text := h₁.text.trans h₂.text
  fields := h₁.fields.trans h₂.fields
  namespaces := h₁.namespaces.trans h₂.namespaces
  assemblies := h₁.assemblies.trans h₂.assemblies
  usesDynamic := h₁.usesDynamic.trans h₂.usesDynamic

theorem Script.AgreesWith.readsAs {document : Option String} {a b : Script} (h : a.AgreesWith document b) :
    b.ReadsAs a :=
  ⟨h.text.symm, h.fields.symm, h.namespaces.symm, h.assemblies.symm, h.usesDynamic.symm⟩

/-! ## Marks -/

theorem Draft.LeadsTo.passages_eq {desk : Desk} {d e : Draft} (h : LeadsTo desk d e)
    (hdocument : desk.wrapper.document = none) : e.passages = d.passages := by
  induction h with
  | trans _ _ ih₁ ih₂ => exact ih₂.trans ih₁
  | marked _ _ hmarks _ _ _ => exact absurd hdocument hmarks
  | indented _ ih | entered _ _ ih | guarded _ _ ih | inFunction _ ih | promoted _ _ _ ih => exact ih
  | _ => rfl

theorem Tree.markers_eq_nil {layout layout' : Layout} {script : Script} (hdocument : w.document = none)
    (h : t.pass ⟨w, layout⟩ = .ok (script, layout')) : script.markers = [] := by
  obtain ⟨u, d, hdraft, hassemble⟩ := exists_draft h
  have hpassages : d.passages = [] := (draft_leadsTo hdraft).passages_eq hdocument
  rw [(d.assemble_tree hassemble).2, hpassages]
  rfl

/-! ## Passes -/

/-- The same tree at a desk with the document of the wrapper, and at one without a document. -/
def Pairing.withoutDocument (w : Wrapper) (layout : Layout) : Pairing where
  left := ⟨w, layout⟩
  right := ⟨{ w with document := none }, layout⟩
  agree := rfl
  pt _ _ := True
  late := False

/-- Putting a script together does not look at the document. -/
theorem Draft.assemble_document (d : Draft) (w : Wrapper) (document : Option String) (t : Tree) :
    d.assemble { w with document } t = d.assemble w t := rfl

/-- A pass without a document writes what a pass with one writes. -/
theorem Tree.pass_document (t : Tree) (w : Wrapper) (layout : Layout) :
    (∃ err, t.pass ⟨w, layout⟩ = .error err ∧ t.pass ⟨{ w with document := none }, layout⟩ = .error err) ∨
    ∃ s₁ s₂ measured, t.pass ⟨w, layout⟩ = .ok (s₁, measured) ∧
      t.pass ⟨{ w with document := none }, layout⟩ = .ok (s₂, measured) ∧ s₁.ReadsAs s₂ := by
  rw [pass_eq, pass_eq]
  rcases (LateBinds.refl .delimited t).draft_alike (.withoutDocument w layout) (fun _ => rfl) nofun with
    ⟨err, h₁, h₂⟩ | ⟨u₁, d₁, u₂, d₂, h₁, h₂, hd, -⟩
  · refine Or.inl ⟨err, ?_, ?_⟩
    · rw [show t.draft ⟨w, layout⟩ = .error err from h₁]
    · rw [show t.draft ⟨{ w with document := none }, layout⟩ = .error err from h₂]
  · rw [show t.draft ⟨w, layout⟩ = .ok (u₁, d₁) from h₁,
      show t.draft ⟨{ w with document := none }, layout⟩ = .ok (u₂, d₂) from h₂]
    dsimp only
    have hassemble := d₁.assemble_update w u₁ u₂ hd.page.alike.text d₂.promoted d₂.passages
    rw [← hd.rest_of_early id] at hassemble
    rw [d₂.assemble_document w none u₂, hassemble]
    cases hresult : d₁.assemble w u₁ with
    | error err => exact Or.inl ⟨err, rfl, rfl⟩
    | ok r => exact Or.inr ⟨r.1, _, r.2, rfl, rfl, rfl, rfl, rfl, rfl, rfl⟩

/-! ## Scripts -/

/-- A script fails with its first pass, and otherwise reads as what the first pass gives. -/
theorem Tree.toScript_first (t : Tree) (w : Wrapper) :
    (∃ err, t.pass ⟨w, {}⟩ = .error err ∧ t.toScript w = .error err) ∨
    ∃ first layout script, t.pass ⟨w, {}⟩ = .ok (first, layout) ∧ t.toScript w = .ok script ∧
      script.ReadsAs first := by
  unfold Tree.toScript
  cases hfirst : t.pass ⟨w, {}⟩ with
  | error err => exact Or.inl ⟨err, rfl, rfl⟩
  | ok r =>
    obtain ⟨first, layout⟩ := r
    cases hdocument : w.document with
    | none => exact Or.inr ⟨first, layout, first, rfl, rfl, rfl, rfl, rfl, rfl, rfl⟩
    | some name =>
      -- the second pass is started with another layout, which does not matter either
      rcases t.pass_layouts w {} layout with ⟨err, herr, -⟩ | ⟨s₁, s₂, measured, h₁, h₂, hagrees⟩
      · cases hfirst.symm.trans herr
      · cases hfirst.symm.trans h₁
        refine Or.inr ⟨first, layout, s₂, rfl, ?_, hagrees.readsAs⟩
        simp only [bind, Except.bind, h₂]
        rfl

/-- **A document is transparent.** With a document and without, writing a script fails with the same error,
or it succeeds both times, with the same text, fields, namespaces, assemblies and need for late binding. The
script without a document has no markers. -/
theorem Tree.toScript_without_document (t : Tree) (w : Wrapper) (document : String) :
    (∃ err, t.toScript { w with document := some document } = .error err ∧
      t.toScript { w with document := none } = .error err) ∨
    ∃ marked plain, t.toScript { w with document := some document } = .ok marked ∧
      t.toScript { w with document := none } = .ok plain ∧ marked.ReadsAs plain ∧ plain.markers = [] := by
  have hpasses := t.pass_document { w with document := some document } {}
  rcases t.toScript_first { w with document := some document } with
    ⟨err, hpass, hscript⟩ | ⟨first, layout, marked, hpass, hscript, hreads⟩
  · rcases hpasses with ⟨err', h₁, h₂⟩ | ⟨s₁, s₂, measured, h₁, -, -⟩
    · cases hpass.symm.trans h₁
      refine Or.inl ⟨err, hscript, ?_⟩
      unfold Tree.toScript
      rw [show t.pass ⟨{ w with document := none }, {}⟩ = .error err from h₂]
      rfl
    · cases hpass.symm.trans h₁
  · rcases hpasses with ⟨err', h₁, -⟩ | ⟨s₁, plain, measured, h₁, h₂, hsame⟩
    · cases hpass.symm.trans h₁
    · cases hpass.symm.trans h₁
      refine Or.inr ⟨marked, plain, hscript, ?_, hreads.trans hsame, markers_eq_nil rfl h₂⟩
      unfold Tree.toScript
      rw [show t.pass ⟨{ w with document := none }, {}⟩ = .ok (plain, layout) from h₂]
      rfl

end Scribe
