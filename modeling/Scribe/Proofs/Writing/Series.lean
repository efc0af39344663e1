import Mathlib.Data.List.Forall2
import Scribe.Proofs.Writing.Step.Primitive

/-!
# Series of items

Items with commas between them add their texts to the line, one after the other. What is known in front of an item is
handed on from item to item, so that the text of an item can be tied to what was written before it.
-/

namespace Scribe.Writing

variable {α γ : Type} {desk : Desk}

section

variable {item : γ → Writing α} {I : List γ → Draft → Prop} {P : γ → String → Prop}

/-- A series is written as the texts of its items with commas between them. `I` is what holds in front of the items that
are left, and `P` what is known of the text of an item. -/
theorem separated_texts (hput : ∀ cs d, I cs d → I cs { d with page := d.page.write ", " })
    (hitem : ∀ c cs d a e, I (c :: cs) d → d.page.owesIndent = false → item c desk d = .ok (a, e) →
      I cs e ∧ e.page.owesIndent = false ∧ ∃ text, P c text ∧ e.page.text = d.page.text ++ text)
    {cs : List γ} {d e : Draft} {as : List α} (hI : I cs d) (hd : d.page.owesIndent = false)
    (h : separated false (cs.map item) desk d = .ok (as, e)) :
    I [] e ∧ e.page.owesIndent = false ∧
      ∃ texts, List.Forall₂ P cs texts ∧ e.page.text = d.page.text ++ ", ".intercalate texts := by
  induction cs generalizing d as with
  | nil =>
    cases h
    exact ⟨hI, hd, [], .nil, by simp⟩
  | cons c cs ih =>
    simp only [List.map_cons, separated, Bool.false_eq_true, if_false] at h
    obtain ⟨a, f, hc, h⟩ := bind_eq_ok.mp h
    obtain ⟨hIf, hf, text, hP, htext⟩ := hitem c cs d a f hI hd hc
    cases cs with
    | nil =>
      cases h
      exact ⟨hIf, hf, [text], .cons hP .nil, by simp [htext]⟩
    | cons c' cs =>
      -- A comma follows, and then the items that are left.
      obtain ⟨u, g, hcomma, h⟩ := bind_eq_ok.mp h
      cases hcomma
      obtain ⟨as', e', hrest, h⟩ := bind_eq_ok.mp h
      cases h
      obtain ⟨hIe, he, texts, hPs, htexts⟩ := ih (hput _ f hIf) (Text.Page.write_owesIndent (by decide) f.page) hrest
      refine ⟨hIe, he, text :: texts, .cons hP hPs, ?_⟩
      obtain ⟨text', texts', -, -, rfl⟩ := List.forall₂_cons_left_iff.mp hPs
      rw [htexts, Text.Page.write_text_of_settled hf, htext, String.intercalate_cons_cons]
      simp only [String.append_assoc]

end

/-- A series fails with the error of one of its items. -/
theorem exists_of_separated_error {items : List (Writing α)} {d : Draft} {err : ScriptError}
    (h : separated false items desk d = .error err) : ∃ x ∈ items, ∃ d', x desk d' = .error err := by
  induction items generalizing d with
  | nil => cases h
  | cons x xs ih =>
    simp only [separated, Bool.false_eq_true, if_false] at h
    rcases bind_eq_error.mp h with hx | ⟨a, f, -, h⟩
    · exact ⟨x, List.mem_cons_self, d, hx⟩
    have hrest : ∃ d', separated false xs desk d' = .error err := by
      cases xs with
      | nil => cases h
      | cons x' xs =>
        rcases bind_eq_error.mp h with hcomma | ⟨u, g, -, h⟩
        · cases hcomma
        rcases bind_eq_error.mp h with hxs | ⟨as, e, -, h⟩
        · exact ⟨g, hxs⟩
        · cases h
    obtain ⟨d', hd'⟩ := hrest
    obtain ⟨y, hy, hfails⟩ := ih hd'
    exact ⟨y, List.mem_cons_of_mem x hy, hfails⟩

end Scribe.Writing
