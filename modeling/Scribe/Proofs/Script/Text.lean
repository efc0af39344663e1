import Scribe.Proofs.Script.Layout

/-!
# The text of a script without methods

A tree that needs no methods of its own is written on the main page alone. Without a type name the page is
the script, and there always is one; with a type name the page stands inside the class.
-/

namespace Scribe

/-- The tree is written as `text`: this is the script when there is no class, and part of every other
script of the tree. -/
structure Tree.WrittenAs (t : Tree) (w : Wrapper) (text : String) : Prop where
  bare : w.typeName = none → ∃ script, t.toScript w = .ok script ∧ script.text = text
  part (script : Script) : t.toScript w = .ok script →
    ∃ before behind, script.text = before ++ text ++ behind

/-- The tree is written as `text`, and there is nothing beside it: this is the script when there is no class,
and the only member of the class otherwise. Where no base types have to be spelled, there is a script. -/
structure Tree.WrittenAlone (t : Tree) (w : Wrapper) (text : String) : Prop where
  written : w.typeName = none ∨ w.bases = [] → ∃ script, t.toScript w = .ok script
  bare (script : Script) : t.toScript w = .ok script → w.typeName = none → script.text = text
  member (script : Script) (name : String) : t.toScript w = .ok script → w.typeName = some name →
    ∃ aliases bases, script.text = (Script.inClass w name script.namespaces aliases bases [] text []).1

/-- A script is what some pass has put together. -/
theorem Tree.exists_pass_of_toScript {t : Tree} {w : Wrapper} {script : Script}
    (h : t.toScript w = .ok script) : ∃ k layout, t.pass ⟨w, k⟩ = .ok (script, layout) := by
  unfold Tree.toScript at h
  cases hfirst : t.pass ⟨w, {}⟩ with
  | error err =>
    rw [hfirst] at h
    cases h
  | ok r =>
    obtain ⟨first, layout⟩ := r
    rw [hfirst] at h
    cases hd : w.document with
    | none =>
      simp only [hd, bind, Except.bind] at h
      cases h
      exact ⟨{}, layout, hfirst⟩
    | some name =>
      simp only [hd, bind, Except.bind] at h
      cases hsecond : t.pass ⟨w, layout⟩ with
      | error err =>
        rw [hsecond] at h
        cases h
      | ok r =>
        rw [hsecond] at h
        cases h
        exact ⟨layout, r.2, hsecond⟩

theorem Tree.exists_draft_of_toScript {t : Tree} {w : Wrapper} {script : Script} (h : t.toScript w = .ok script) :
    ∃ k layout u d, t.draft ⟨w, k⟩ = .ok (u, d) ∧ d.assemble w u = .ok (script, layout) := by
  obtain ⟨k, layout, hpass⟩ := exists_pass_of_toScript h
  exact ⟨k, layout, exists_draft hpass⟩

/-- Where every pass succeeds, there is a script. -/
theorem Tree.exists_toScript {t : Tree} {w : Wrapper} (h : ∀ layout, ∃ r, t.pass ⟨w, layout⟩ = .ok r) :
    ∃ script, t.toScript w = .ok script := by
  obtain ⟨⟨first, layout⟩, hfirst⟩ := h {}
  obtain ⟨⟨second, layout'⟩, hsecond⟩ := h layout
  unfold Tree.toScript
  rw [hfirst]
  cases hd : w.document with
  | none => exact ⟨first, rfl⟩
  | some name => exact ⟨second, by simp only [bind, Except.bind, hsecond]; rfl⟩

/-- Without a type name every page becomes a script. -/
theorem Draft.assemble_bare (d : Draft) {w : Wrapper} (h : w.typeName = none) (hm : d.methods = []) (t : Tree) :
    ∃ script layout, d.assemble w t = .ok (script, layout) ∧ script.text = d.page.text := by
  have hbare : (Script.bare d.page.text []).1 = d.page.text := by
    have hready : Script.Ready (Text.Page.document 0) := ⟨Text.Page.startsAt_document 0, rfl⟩
    show ((Text.Page.document 0).append d.page.text).text = _
    rw [hready.append_text]
    exact String.empty_append
  rw [assemble_eq, text?]
  simp only [h, hm]
  exact ⟨_, _, rfl, hbare⟩

/-- With a type name, a page without methods and fields becomes the only member of a class. -/
theorem Draft.assemble_inClass {d : Draft} {w : Wrapper} {name : String} (h : w.typeName = some name)
    (hm : d.methods = []) (hf : d.fields = []) {t : Tree} {script : Script} {layout : Layout}
    (hassemble : d.assemble w t = .ok (script, layout)) : ∃ aliases bases,
      script.text = (Script.inClass w name script.namespaces aliases bases [] d.page.text []).1 := by
  obtain ⟨htext, hscript⟩ := assemble_ok hassemble
  obtain ⟨aliases, heq⟩ := text?_inClass h htext
  have hnone : d.declarations (d.spelled w).2.1 = [] := by simp [declarations, hf, Text.stableSort]
  rw [hnone, hm] at heq
  refine ⟨aliases, (d.spelled w).1, ?_⟩
  rw [hscript]
  exact (congrArg Prod.fst heq).symm

/-- Where neither the page nor the wrapper needs imports, a class is put around the page. -/
theorem Draft.exists_assemble {d : Draft} {w : Wrapper} (h : w.typeName = none ∨ w.bases = [])
    (hf : d.fields = []) (hl : d.lexicon = {}) (t : Tree) : ∃ r, d.assemble w t = .ok r := by
  unfold Draft.assemble
  cases htype : w.typeName with
  | none => exact ⟨_, rfl⟩
  | some name =>
    have hbases : w.orderedBases = [] := by
      rcases h with h | h
      · rw [htype] at h
        cases h
      · simp [Wrapper.orderedBases, h]
    simp only [hbases, hf, hl]
    exact ⟨_, rfl⟩

section Drafts

variable {t : Tree} {w : Wrapper} {text : String}

/-- **What is drafted on the main page is the text of the script.** -/
theorem Tree.writtenAs_of_draft
    (h : ∀ layout, ∃ u d, t.draft ⟨w, layout⟩ = .ok (u, d) ∧ d.page.text = text ∧ d.methods = []) :
    t.WrittenAs w text where
  bare hw := by
    have hpass (layout : Layout) :
        ∃ script layout', t.pass ⟨w, layout⟩ = .ok (script, layout') ∧ script.text = text := by
      obtain ⟨u, d, hdraft, htext, hmethods⟩ := h layout
      obtain ⟨script, layout', hassemble, hscript⟩ := d.assemble_bare hw hmethods u
      refine ⟨script, layout', ?_, hscript.trans htext⟩
      rw [pass_eq, hdraft]
      exact hassemble
    obtain ⟨script, hscript⟩ := exists_toScript fun layout => by
      obtain ⟨script, layout', hpass, -⟩ := hpass layout
      exact ⟨_, hpass⟩
    obtain ⟨k, layout, hlast⟩ := exists_pass_of_toScript hscript
    obtain ⟨_, _, hpass, htext⟩ := hpass k
    cases hlast.symm.trans hpass
    exact ⟨script, hscript, htext⟩
  part script hs := by
    obtain ⟨k, layout, u, d, hdraft, hassemble⟩ := exists_draft_of_toScript hs
    obtain ⟨u', d', hdraft', htext, -⟩ := h k
    rw [hdraft] at hdraft'
    cases hdraft'
    obtain ⟨before, behind, hscript, -⟩ := (Draft.assemble_locates hassemble).1.main
    exact ⟨before, behind, by rw [hscript, htext]⟩

/-- **What is drafted without methods, fields and named types stands alone.** -/
theorem Tree.writtenAlone_of_draft
    (h : ∀ layout, ∃ u d, t.draft ⟨w, layout⟩ = .ok (u, d) ∧ d.page.text = text ∧ d.methods = [] ∧
      d.fields = [] ∧ d.lexicon = {}) : t.WrittenAlone w text := by
  -- Every script is put together from such a draft.
  have hdrafted {script : Script} (hs : t.toScript w = .ok script) : ∃ (u : Tree) (d : Draft) (layout : Layout),
      d.assemble w u = .ok (script, layout) ∧ d.page.text = text ∧ d.methods = [] ∧ d.fields = [] := by
    obtain ⟨k, layout, u, d, hdraft, hassemble⟩ := exists_draft_of_toScript hs
    obtain ⟨u', d', hdraft', htext, hmethods, hfields, -⟩ := h k
    cases hdraft.symm.trans hdraft'
    exact ⟨u, d, layout, hassemble, htext, hmethods, hfields⟩
  refine ⟨fun hw => exists_toScript fun layout => ?_, fun script hs hw => ?_, fun script name hs hw => ?_⟩
  · obtain ⟨u, d, hdraft, -, -, hfields, hlexicon⟩ := h layout
    rw [pass_eq, hdraft]
    exact Draft.exists_assemble hw hfields hlexicon u
  · obtain ⟨u, d, layout, hassemble, htext, hmethods, -⟩ := hdrafted hs
    obtain ⟨_, _, hbare, hscript⟩ := d.assemble_bare hw hmethods u
    cases hassemble.symm.trans hbare
    rw [hscript, htext]
  · obtain ⟨u, d, layout, hassemble, htext, hmethods, hfields⟩ := hdrafted hs
    rw [← htext]
    exact Draft.assemble_inClass hw hmethods hfields hassemble

end Drafts

end Scribe
