import Scribe.Proofs.Script.Assembly
import Scribe.Proofs.Writing.Parallel.Tree

/-!
# The layout does not matter

A pass reads the layout for the positions of markers and for nothing else. So all passes over a tree agree,
whatever layout they were started with, and in particular they measure the same layout. A second pass that
is started with the measured layout measures that layout again: the positions it was started with are
right.
-/

namespace Scribe

open Text (Page)

variable {w : Pairing} {t : Tree}

/-! ## Drafts -/

theorem Pairing.alike_firstPage (w : Pairing) :
    Draft.Alike w { page := w.left.firstPage } { page := w.right.firstPage } where
  page := by
    have htype : w.right.wrapper.typeName = w.left.wrapper.typeName := by rw [w.agree]
    refine ⟨?_, fun hdesk => by rw [hdesk]⟩
    unfold Desk.firstPage
    rw [htype, w.memberLevel_eq]
    split
    · exact ⟨rfl, rfl, rfl, rfl⟩
    · exact ⟨rfl, rfl, rfl, rfl⟩
  lexicon := ⟨rfl, fun _ => rfl⟩
  rest := rfl
  passages _ := rfl
  ranges _ := rfl
  moved _ := rfl
  movedTo _ _ _ _ h := by cases h
  becomes _ _ _ _ h := by cases h

/-- Drafts of a tree, and of the same tree with operations bound late, fail together, or they are alike. -/
theorem Tree.LateBinds.draft_alike {slot : Slot} {u : Tree} (w : Pairing) (h : t.LateBinds slot u)
    (hearly : ¬w.late → u = t) (hmem : ∀ whole ∈ w.whole, t ∈ whole.subtrees) :
    (∃ err, t.draft w.left = .error err ∧ u.draft w.right = .error err) ∨
    ∃ u₁ d₁ u₂ d₂, t.draft w.left = .ok (u₁, d₁) ∧ u.draft w.right = .ok (u₂, d₂) ∧
      Draft.Alike w d₁ d₂ ∧ (w.Trusts d₁ d₂ → w.Match t u₁ u₂) := by
  rcases h.writeRoot_twin hearly hmem _ _ w.alike_firstPage with
    ⟨err, h₁, h₂⟩ | ⟨u₁, d₁, u₂, d₂, h₁, h₂, _, hd, hback⟩
  · exact Or.inl ⟨err, h₁, h₂⟩
  · exact Or.inr ⟨u₁, d₁, u₂, d₂, h₁, h₂, hd, fun ht => (hback ht).2⟩

/-! ## Scripts -/

/-- Putting a script together looks at the text of the page only, and passes on the tree and the
markers. -/
theorem Draft.assemble_update (d : Draft) (w : Wrapper) (t u : Tree) {page : Page}
    (hpage : d.page.text = page.text) (promoted : List (Ident × Tree)) (passages : List Passage) :
    ({ d with page, promoted, passages } : Draft).assemble w u =
      (d.assemble w t).map fun r =>
        ({ r.1 with tree := u, markers := passages.map Passage.marker }, r.2) := by
  have htext : ({ d with page, promoted, passages } : Draft).text? w = d.text? w := by
    unfold text?
    dsimp only
    rw [← hpage]
    rfl
  rw [assemble_eq, assemble_eq, htext]
  cases d.text? w <;> rfl

theorem Draft.assemble_tree (d : Draft) {w : Wrapper} {t : Tree} {s : Script} {layout : Layout}
    (h : d.assemble w t = .ok (s, layout)) : s.tree = t ∧ s.markers = d.passages.map Passage.marker := by
  have hscript := (assemble_ok h).2
  exact ⟨congrArg Script.tree hscript, congrArg Script.markers hscript⟩

/-- Two scripts differ in nothing but the places of their markers. -/
structure Script.AgreesWith (document : Option String) (a b : Script) : Prop where
  text : a.text = b.text
  fields : a.fields = b.fields
  namespaces : a.namespaces = b.namespaces
  assemblies : a.assemblies = b.assemblies
  usesDynamic : a.usesDynamic = b.usesDynamic
  markers : a.markers.length = b.markers.length
  /-- Where the trees differ, they have the ranges of corresponding markers. -/
  tree : Tree.Respanned document
    (fun s₁ s₂ => (s₁, s₂) ∈ (a.markers.map (·.span)).zip (b.markers.map (·.span))) a.tree b.tree

/-! ## Passes -/

/-- A pass is a draft that is put together. -/
theorem Tree.pass_eq (t : Tree) (desk : Desk) :
    t.pass desk =
      match t.draft desk with
      | .ok (u, d) => d.assemble desk.wrapper u
      | .error err => .error err := by
  unfold Tree.pass
  cases t.draft desk <;> rfl

theorem Tree.exists_draft {desk : Desk} {r : Script × Layout} (h : t.pass desk = .ok r) :
    ∃ u d, t.draft desk = .ok (u, d) ∧ d.assemble desk.wrapper u = .ok r := by
  rw [pass_eq] at h
  split at h
  · next u d hdraft => exact ⟨u, d, hdraft, h⟩
  · cases h

/-- The same tree at two desks that differ in their layouts. -/
def Pairing.ofLayouts (wrapper : Wrapper) (k₁ k₂ : Layout) (pt : Span → Span → Prop) : Pairing where
  left := ⟨wrapper, k₁⟩
  right := ⟨wrapper, k₂⟩
  agree := rfl
  pt := pt
  late := False

/-- The ranges of markers with the same number. -/
def Draft.Corresponding (d₁ d₂ : Draft) (s₁ s₂ : Span) : Prop :=
  (s₁, s₂) ∈ (d₁.passages.map (·.marker.span)).zip (d₂.passages.map (·.marker.span))

/-- Drafts at two layouts are alike, and their trees differ in the ranges of markers with the same
number. -/
theorem Tree.draft_layouts (t : Tree) (wrapper : Wrapper) (k₁ k₂ : Layout) :
    (∃ err, t.draft ⟨wrapper, k₁⟩ = .error err ∧ t.draft ⟨wrapper, k₂⟩ = .error err) ∨
    ∃ u₁ d₁ u₂ d₂, t.draft ⟨wrapper, k₁⟩ = .ok (u₁, d₁) ∧ t.draft ⟨wrapper, k₂⟩ = .ok (u₂, d₂) ∧
      d₁.page.text = d₂.page.text ∧
      d₂ = { d₁ with page := d₂.page, promoted := d₂.promoted, passages := d₂.passages } ∧
      d₁.passages.length = d₂.passages.length ∧
      Tree.Respanned wrapper.document (d₁.Corresponding d₂) u₁ u₂ := by
  -- the relation of the ranges is known only when both runs are done, so they are compared twice
  have hrefl := LateBinds.refl .delimited t
  rcases hrefl.draft_alike (.ofLayouts wrapper k₁ k₂ fun _ _ => True) (fun _ => rfl) nofun with
    herr | ⟨u₁, d₁, u₂, d₂, h₁, h₂, -, -⟩
  · exact Or.inl herr
  rcases hrefl.draft_alike (.ofLayouts wrapper k₁ k₂ (d₁.Corresponding d₂)) (fun _ => rfl) nofun with
    ⟨err, herr, -⟩ | ⟨u₁', d₁', u₂', d₂', h₁', h₂', hd, hback⟩
  · cases h₁.symm.trans herr
  · cases h₁.symm.trans h₁'
    cases h₂.symm.trans h₂'
    refine Or.inr ⟨u₁, d₁, u₂, d₂, h₁, h₂, hd.page.alike.text, hd.rest_of_early id, hd.passages rfl,
      (hback ⟨id, rfl, ?_⟩).respanned⟩
    intro g hg
    show (_, _) ∈ _
    rw [List.zip_map]
    exact List.mem_map_of_mem hg

/-- Passes at two layouts agree. -/
theorem Tree.pass_layouts (t : Tree) (wrapper : Wrapper) (k₁ k₂ : Layout) :
    (∃ err, t.pass ⟨wrapper, k₁⟩ = .error err ∧ t.pass ⟨wrapper, k₂⟩ = .error err) ∨
    ∃ s₁ s₂ layout, t.pass ⟨wrapper, k₁⟩ = .ok (s₁, layout) ∧ t.pass ⟨wrapper, k₂⟩ = .ok (s₂, layout) ∧
      s₁.AgreesWith wrapper.document s₂ := by
  rw [pass_eq, pass_eq]
  rcases t.draft_layouts wrapper k₁ k₂ with
    ⟨err, h₁, h₂⟩ | ⟨u₁, d₁, u₂, d₂, h₁, h₂, htext, hrest, hlength, htree⟩
  · rw [h₁, h₂]
    exact Or.inl ⟨err, rfl, rfl⟩
  · rw [h₁, h₂]
    dsimp only
    have hassemble := d₁.assemble_update wrapper u₁ u₂ htext d₂.promoted d₂.passages
    rw [← hrest] at hassemble
    rw [hassemble]
    cases hresult : d₁.assemble wrapper u₁ with
    | error err => exact Or.inl ⟨err, rfl, rfl⟩
    | ok r =>
      obtain ⟨s₁, layout⟩ := r
      obtain ⟨htree₁, hmarkers₁⟩ := d₁.assemble_tree hresult
      refine Or.inr ⟨s₁, _, layout, rfl, rfl, rfl, rfl, rfl, rfl, rfl, ?_, ?_⟩
      · rw [hmarkers₁, List.length_map, List.length_map, hlength]
      · rw [htree₁, hmarkers₁, List.map_map, List.map_map]
        exact htree

/-- A pass that is started with the layout of another one measures it again. -/
theorem Tree.pass_again {wrapper : Wrapper} {k layout : Layout} {s : Script}
    (h : t.pass ⟨wrapper, k⟩ = .ok (s, layout)) : ∃ s', t.pass ⟨wrapper, layout⟩ = .ok (s', layout) := by
  rcases t.pass_layouts wrapper k layout with ⟨err, herr, -⟩ | ⟨s₁, s₂, measured, h₁, h₂, -⟩
  · cases h.symm.trans herr
  · cases h.symm.trans h₁
    exact ⟨s₂, h₂⟩

/-- **All passes over a tree agree.** Whatever the two layouts are, both passes fail with the same error,
or they give scripts that differ in nothing but the places of markers, and measure the same layout. A pass
that is started with this layout measures it again, and it has a position for every moved lambda. -/
theorem Tree.passes_agree (t : Tree) (wrapper : Wrapper) (k₁ k₂ : Layout) :
    (∃ err, t.pass ⟨wrapper, k₁⟩ = .error err ∧ t.pass ⟨wrapper, k₂⟩ = .error err) ∨
    ∃ s₁ s₂ layout, t.pass ⟨wrapper, k₁⟩ = .ok (s₁, layout) ∧ t.pass ⟨wrapper, k₂⟩ = .ok (s₂, layout) ∧
      s₁.AgreesWith wrapper.document s₂ ∧
      ∃ s u d, t.pass ⟨wrapper, layout⟩ = .ok (s, layout) ∧ t.draft ⟨wrapper, layout⟩ = .ok (u, d) ∧
        layout.methods.length = d.methods.length := by
  rcases t.pass_layouts wrapper k₁ k₂ with herr | ⟨s₁, s₂, layout, h₁, h₂, hagrees⟩
  · exact Or.inl herr
  · obtain ⟨s, hs⟩ := pass_again h₁
    obtain ⟨u, d, hdraft, hassemble⟩ := exists_draft hs
    have hlength := (Draft.assemble_locates hassemble).1.length
    exact Or.inr ⟨s₁, s₂, layout, h₁, h₂, hagrees, s, u, d, hs, hdraft, hlength⟩

end Scribe
