import Scribe.Proofs.Text.Excerpt
import Scribe.Proofs.Writing.Step.Tree

/-!
# Where passages stand

A passage is written on the main page or on the page of a method. Either way it stays there: pages only
grow, and the text of a method is kept once it is finished. The cursors of its two pages count from where
its page will begin in the script, as far as the layout knows.

Two passages on one page are nested: what is marked later begins behind what has been written by then, or it
holds all of what was marked since it began.
-/

namespace Scribe.Text

/-! ## Ranges of bytes -/

/-- A range of bytes in a text. -/
structure Extent where
  start : Nat
  stop : Nat
deriving DecidableEq, Repr

namespace Extent

/-- One of the ranges ends where the other has not begun. -/
def Apart (a b : Extent) : Prop := a.stop ≤ b.start ∨ b.stop ≤ a.start

def Within (a b : Extent) : Prop := b.start ≤ a.start ∧ a.stop ≤ b.stop

/-- The ranges are apart, or one of them holds the other. -/
def Nests (a b : Extent) : Prop := a.Apart b ∨ a.Within b ∨ b.Within a

end Extent

namespace Page

variable {p q : Page}

theorem Extends.cursor_le (h : p.Extends q) : p.cursor.offset ≤ q.cursor.offset := by
  obtain ⟨s, -, hs⟩ := h.text
  rw [hs, Position.advance_offset]
  exact Nat.le_add_right _ _

theorem cursor_le_position (p : Page) : p.cursor.offset ≤ p.position.offset := Nat.le_add_right _ _

theorem position_le_of_level (h : p.Extends q) (ho : q.owesIndent = true) (hlevel : p.level ≤ q.level) :
    p.position.offset ≤ q.position.offset := by
  have howed : p.owed ≤ q.owed := by
    unfold owed
    rw [if_pos ho]
    split
    · exact Nat.mul_le_mul_right _ hlevel
    · exact Nat.zero_le _
  exact Nat.add_le_add h.cursor_le howed

theorem position_le_write (p : Page) (s : String) : p.position.offset ≤ (p.write s).position.offset := by
  by_cases hs : s = ""
  · exact Nat.le_of_eq (by rw [hs, write_empty])
  · rw [write_of_ne hs, position_eq_settle]
    exact Nat.le_trans (Extends.push _ _).cursor_le (cursor_le_position _)

theorem position_le_indent (p : Page) : p.position.offset ≤ p.indent.position.offset := by
  cases ho : p.owesIndent with
  | true => exact position_le_of_level ⟨(Extends.refl p).text, rfl⟩ ho (Nat.le_succ _)
  | false =>
    rw [position_of_settled ho]
    exact cursor_le_position p.indent

end Page

end Scribe.Text

namespace Scribe

open Text (Page Position Extent)

/-- The bytes of a passage, as its pages count them. -/
def Passage.extent (g : Passage) : Extent := ⟨g.start.position.offset, g.stop.position.offset⟩

/-- The passage is part of a text that begins at `origin`. -/
structure Passage.StandsIn (g : Passage) (origin : Position) (text : String) : Prop where
  start : g.start.StartsAt origin
  stop : g.stop.StartsAt origin
  stop_text : ∃ rest, text = g.stop.text ++ rest

theorem Passage.StandsIn.extend {g : Passage} {origin : Position} {text : String}
    (h : g.StandsIn origin text) (more : String) : g.StandsIn origin (text ++ more) := by
  obtain ⟨rest, hrest⟩ := h.stop_text
  exact ⟨h.start, h.stop, rest ++ more, by rw [hrest, String.append_assoc]⟩

namespace Draft

variable {desk : Desk} {d e f : Draft} {g g' : Passage} {part : Nat} {gs gs' : List (Nat × Passage)}

/-- Steps do not move the next character to the front. -/
theorem LeadsTo.position_le (h : LeadsTo desk d e) : d.page.position.offset ≤ e.page.position.offset := by
  induction h with
  | trans _ _ ih₁ ih₂ => exact Nat.le_trans ih₁ ih₂
  | put d s => exact d.page.position_le_write s
  | newline d =>
    exact Page.position_le_of_level (.newline _) d.page.newline_owesIndent (Nat.le_of_eq d.page.newline_level.symm)
  | @indented d e h ih =>
    cases ho : e.page.owesIndent with
    | true =>
      -- the blanks that are owed are those of the level in front
      have hlevel : e.page.level = d.page.level + 1 := h.level
      refine Page.position_le_of_level ⟨h.extends_page.text, h.extends_page.opensDocument⟩ ho ?_
      show d.page.level ≤ e.page.level - 1
      omega
    | false =>
      have hdedent : e.page.dedent.position = e.page.position := by
        rw [Page.position_of_settled ho, Page.position_of_settled (p := e.page.dedent) ho]
        rfl
      rw [hdedent]
      exact Nat.le_trans d.page.position_le_indent ih
  | entered _ _ ih | guarded _ _ ih | inFunction _ ih | marked _ _ _ _ _ ih => exact ih
  | _ => exact Nat.le_refl _

/-! ## Places -/

/-- Where the method of a slot begins, as far as the layout knows. -/
def origin (desk : Desk) (slot : Nat) : Position := desk.layout.methods.getD slot {}

/-- Where a new passage stands, by the number of a part: the page at hand has 0, and a new method the number
behind its slot. On the page the passage begins where no text has been before, and ends where there is text. -/
def Placed (desk : Desk) (d e : Draft) (g : Passage) : Nat → Prop
  | 0 => (∀ o, d.page.StartsAt o → g.StandsIn o e.page.text) ∧
      g.extent.Within ⟨d.page.position.offset, e.page.cursor.offset⟩
  | k + 1 => d.methods.length ≤ k ∧ ∃ m, e.methods[k]? = some m ∧ g.StandsIn (origin desk k) m

/-- What steps do to methods and passages: both are added at the end. Every new passage covers a text and is
placed in the part that goes with it, and the passages of one part are nested. -/
structure Extends (desk : Desk) (d e : Draft) (gs : List (Nat × Passage)) : Prop where
  methods : ∃ ms, e.methods = d.methods ++ ms
  passages : e.passages = d.passages ++ gs.map Prod.snd
  placed : ∀ x ∈ gs, (∃ text, x.2.Covers text) ∧ Placed desk d e x.2 x.1
  nested : ∀ x ∈ gs, ∀ y ∈ gs, x.1 = y.1 → x.2.extent.Nests y.2.extent

theorem Extends.of_eq (hmethods : e.methods = d.methods) (hpassages : e.passages = d.passages) : Extends desk d e [] :=
  ⟨⟨[], by simpa using hmethods⟩, by simpa using hpassages, by simp, by simp⟩

theorem Placed.later (h : Placed desk d e g part) (hs : LeadsTo desk e f) (hms : ∃ ms, f.methods = e.methods ++ ms) :
    Placed desk d f g part := by
  cases part with
  | zero =>
    obtain ⟨s, hs'⟩ := hs.text
    refine ⟨fun o ho => ?_, h.2.1, Nat.le_trans h.2.2 hs.extends_page.cursor_le⟩
    rw [hs']
    exact (h.1 o ho).extend s
  | succ k =>
    obtain ⟨hslot, m, hm, hg⟩ := h
    obtain ⟨ms, hms⟩ := hms
    refine ⟨hslot, m, ?_, hg⟩
    rw [hms, List.getElem?_append_left (List.getElem?_eq_some_iff.mp hm).1, hm]

theorem Placed.earlier (h : Placed desk e f g part) (hs : LeadsTo desk d e)
    (hms : ∃ ms, e.methods = d.methods ++ ms) : Placed desk d f g part := by
  cases part with
  | zero =>
    exact ⟨fun o ho => h.1 o (ho.extend hs.extends_page), Nat.le_trans hs.position_le h.2.1, h.2.2⟩
  | succ k =>
    obtain ⟨ms, hms⟩ := hms
    have hlength : d.methods.length ≤ e.methods.length := by simp [hms]
    exact ⟨Nat.le_trans hlength h.1, h.2⟩

/-- What is placed later in the same part stands behind. -/
theorem Placed.apart (h : Placed desk d e g part) (h' : Placed desk e f g' part) : g.extent.Apart g'.extent := by
  cases part with
  | zero => exact Or.inl (Nat.le_trans h.2.2 (Nat.le_trans e.page.cursor_le_position h'.2.1))
  | succ k =>
    obtain ⟨-, m, hm, -⟩ := h
    exact absurd h'.1 (Nat.not_le_of_lt (List.getElem?_eq_some_iff.mp hm).1)

theorem Extends.trans (hde : LeadsTo desk d e) (hef : LeadsTo desk e f) (h₁ : Extends desk d e gs)
    (h₂ : Extends desk e f gs') : Extends desk d f (gs ++ gs') := by
  obtain ⟨ms, hms⟩ := h₁.methods
  obtain ⟨ms', hms'⟩ := h₂.methods
  refine ⟨⟨ms ++ ms', ?_⟩, ?_, fun x hx => ?_, fun x hx y hy hxy => ?_⟩
  · rw [hms', hms, List.append_assoc]
  · rw [h₂.passages, h₁.passages, List.map_append, List.append_assoc]
  · rcases List.mem_append.mp hx with hx | hx
    · exact ⟨(h₁.placed x hx).1, (h₁.placed x hx).2.later hef h₂.methods⟩
    · exact ⟨(h₂.placed x hx).1, (h₂.placed x hx).2.earlier hde h₁.methods⟩
  · have hapart {x y : Nat × Passage} (hx : x ∈ gs) (hy : y ∈ gs') (hxy : x.1 = y.1) :
        x.2.extent.Apart y.2.extent :=
      (h₁.placed x hx).2.apart (hxy ▸ (h₂.placed y hy).2)
    rcases List.mem_append.mp hx with hx | hx <;> rcases List.mem_append.mp hy with hy | hy
    · exact h₁.nested x hx y hy hxy
    · exact Or.inl (hapart hx hy hxy)
    · exact Or.inl (hapart hy hx hxy.symm).symm
    · exact h₂.nested x hx y hy hxy

/-- A mark adds the passage that has just been written. It holds what was marked on its page since it began. -/
theorem Extends.marked {form : Passage.Form} {text : String} (hde : LeadsTo desk d e) (h : Extends desk d e gs)
    (hc : Passage.Covers ⟨form, d.page, e.page⟩ text) :
    Extends desk d { e with passages := e.passages ++ [⟨form, d.page, e.page⟩] }
      (gs ++ [(0, ⟨form, d.page, e.page⟩)]) := by
  have hstop : e.page.position.offset = e.page.cursor.offset := by rw [Page.position_of_settled hc.settled]
  have hholds {x : Nat × Passage} (hx : x ∈ gs) (h0 : x.1 = 0) :
      x.2.extent.Within (Passage.extent ⟨form, d.page, e.page⟩) := by
    have hplaced := (h.placed x hx).2
    rw [h0] at hplaced
    exact ⟨hplaced.2.1, Nat.le_trans hplaced.2.2 (Nat.le_of_eq hstop.symm)⟩
  refine ⟨h.methods, ?_, fun x hx => ?_, fun x hx y hy hxy => ?_⟩
  · show e.passages ++ _ = _
    simp [h.passages]
  · rcases List.mem_append.mp hx with hx | hx
    · exact h.placed x hx
    · rw [List.mem_singleton.mp hx]
      refine ⟨⟨text, hc⟩, fun o ho => ⟨ho, ho.extend hde.extends_page, "", ?_⟩, Nat.le_refl _, Nat.le_of_eq hstop⟩
      exact String.append_empty.symm
  · rcases List.mem_append.mp hx with hx | hx <;> rcases List.mem_append.mp hy with hy | hy
    · exact h.nested x hx y hy hxy
    · rw [List.mem_singleton.mp hy] at hxy ⊢
      exact Or.inr (Or.inl (hholds hx hxy))
    · rw [List.mem_singleton.mp hx] at hxy ⊢
      exact Or.inr (Or.inr (hholds hy hxy.symm))
    · rw [List.mem_singleton.mp hx, List.mem_singleton.mp hy]
      exact Or.inr (Or.inl ⟨Nat.le_refl _, Nat.le_refl _⟩)

/-- The page of a method becomes the text of its slot. -/
theorem Extends.promoted (h : Extends desk (d.onMethodPage desk) e gs) (source : Ident) (t : Tree) :
    Extends desk d (d.endMethod e source t)
      (gs.map fun x => (if x.1 = 0 then d.methods.length + 1 else x.1, x.2)) := by
  obtain ⟨ms, hms⟩ := h.methods
  have hslot : (d.onMethodPage desk).methods ++ ms = d.methods ++ "" :: ms := by simp [onMethodPage]
  -- the methods inside have slots behind that of the method
  have hbehind {x : Nat × Passage} (hx : x ∈ gs) (h0 : x.1 ≠ 0) : d.methods.length + 1 < x.1 := by
    have hplaced := (h.placed x hx).2
    obtain ⟨k, hk⟩ := Nat.exists_eq_succ_of_ne_zero h0
    rw [hk] at hplaced ⊢
    have hlength : (d.onMethodPage desk).methods.length = d.methods.length + 1 := by simp [onMethodPage]
    have := hplaced.1
    omega
  refine ⟨⟨e.page.text :: ms, ?_⟩, ?_, fun y hy => ?_, fun y hy z hz hyz => ?_⟩
  · show e.methods.set d.methods.length e.page.text = _
    rw [hms, hslot]
    simp
  · rw [List.map_map]
    exact h.passages
  · obtain ⟨x, hx, rfl⟩ := List.mem_map.mp hy
    refine ⟨(h.placed x hx).1, ?_⟩
    have hplaced := (h.placed x hx).2
    by_cases h0 : x.1 = 0
    · rw [if_pos h0]
      rw [h0] at hplaced
      refine ⟨Nat.le_refl _, e.page.text, ?_, hplaced.1 _ (Page.startsAt_part _ _)⟩
      show (e.methods.set d.methods.length e.page.text)[d.methods.length]? = _
      rw [List.getElem?_set_self (by rw [hms, hslot]; simp)]
    · rw [if_neg h0]
      have hlt := hbehind hx h0
      obtain ⟨k, hk⟩ := Nat.exists_eq_succ_of_ne_zero h0
      rw [hk] at hplaced hlt ⊢
      obtain ⟨-, m, hm, hg⟩ := hplaced
      refine ⟨by omega, m, ?_, hg⟩
      show (e.methods.set d.methods.length e.page.text)[k]? = _
      rw [List.getElem?_set_ne (by omega), hm]
  · obtain ⟨x, hx, rfl⟩ := List.mem_map.mp hy
    obtain ⟨x', hx', rfl⟩ := List.mem_map.mp hz
    refine h.nested x hx x' hx' ?_
    have hlt := hbehind hx
    have hlt' := hbehind hx'
    dsimp only at hyz
    split at hyz <;> split at hyz <;> omega

/-- **Steps place their passages.** -/
theorem LeadsTo.extends (h : LeadsTo desk d e) : ∃ gs, Extends desk d e gs := by
  induction h with
  | trans hde hef ih₁ ih₂ =>
    obtain ⟨gs, h₁⟩ := ih₁
    obtain ⟨gs', h₂⟩ := ih₂
    exact ⟨gs ++ gs', h₁.trans hde hef h₂⟩
  | @indented d e _ ih =>
    obtain ⟨gs, h⟩ := ih
    refine ⟨gs, h.methods, h.passages, fun x hx => ⟨(h.placed x hx).1, ?_⟩, h.nested⟩
    have hplaced := (h.placed x hx).2
    generalize x.1 = part at hplaced ⊢
    cases part with
    | zero => exact ⟨hplaced.1, Nat.le_trans d.page.position_le_indent hplaced.2.1, hplaced.2.2⟩
    | succ k => exact hplaced
  | entered _ _ ih | guarded _ _ ih | inFunction _ ih =>
    obtain ⟨gs, h⟩ := ih
    exact ⟨gs, h.methods, h.passages, h.placed, h.nested⟩
  | marked form text _ hde hc ih =>
    obtain ⟨gs, h⟩ := ih
    exact ⟨_, h.marked hde hc⟩
  | promoted source t _ ih =>
    obtain ⟨gs, h⟩ := ih
    exact ⟨_, h.promoted source t⟩
  | _ => exact ⟨[], .of_eq rfl rfl⟩

end Draft

/-- The passage was written in the part with this number, and its pages count from where the layout has the
part. The main part has the number 0, and a method the number behind its slot. -/
def Passage.IsIn (g : Passage) (layout : Layout) (d : Draft) (part : Nat) : Prop :=
  ∃ text, (d.page.text :: d.methods)[part]? = some text ∧
    g.StandsIn ((layout.main :: layout.methods).getD part {}) text

/-- Where the main page begins in the script, as far as the layout knows. -/
theorem Desk.firstPage_startsAt (desk : Desk) (h : desk.wrapper.typeName = none → desk.layout.main = {}) :
    desk.firstPage.StartsAt desk.layout.main := by
  unfold Desk.firstPage
  cases htype : desk.wrapper.typeName with
  | some name => exact Page.startsAt_part _ _
  | none =>
    rw [h htype]
    exact Page.startsAt_document _

variable {desk : Desk} {t u : Tree} {d : Draft}

/-- **Every passage of a draft covers a text and is in a part, and those of one part are nested.** -/
theorem Tree.draft_parts (h : t.draft desk = .ok (u, d))
    (hmain : desk.wrapper.typeName = none → desk.layout.main = {}) : ∃ gs : List (Nat × Passage),
      d.passages = gs.map Prod.snd ∧
      (∀ x ∈ gs, (∃ text, x.2.Covers text) ∧ x.2.IsIn desk.layout d x.1) ∧
      ∀ x ∈ gs, ∀ y ∈ gs, x.1 = y.1 → x.2.extent.Nests y.2.extent := by
  obtain ⟨gs, hgs⟩ := (Tree.draft_leadsTo h).extends
  refine ⟨gs, hgs.passages, fun x hx => ⟨(hgs.placed x hx).1, ?_⟩, hgs.nested⟩
  have hplaced := (hgs.placed x hx).2
  generalize x.1 = part at hplaced ⊢
  cases part with
  | zero => exact ⟨_, rfl, hplaced.1 _ (desk.firstPage_startsAt hmain)⟩
  | succ k => exact hplaced.2

/-- **Every passage of a draft covers a text, and stands on the main page or in a method.** -/
theorem Tree.draft_passages (h : t.draft desk = .ok (u, d))
    (hmain : desk.wrapper.typeName = none → desk.layout.main = {}) {g : Passage} (hg : g ∈ d.passages) :
    (∃ text, g.Covers text) ∧
      (g.StandsIn desk.layout.main d.page.text ∨
        ∃ k m, d.methods[k]? = some m ∧ g.StandsIn (Draft.origin desk k) m) := by
  obtain ⟨gs, hgs, hparts, -⟩ := Tree.draft_parts h hmain
  rw [hgs] at hg
  obtain ⟨⟨part, g⟩, hx, rfl⟩ := List.mem_map.mp hg
  obtain ⟨hcovers, text, htext, hin⟩ := hparts _ hx
  refine ⟨hcovers, ?_⟩
  cases part with
  | zero =>
    cases htext
    exact Or.inl hin
  | succ k => exact Or.inr ⟨k, text, htext, hin⟩

end Scribe
