import Scribe.Text.Page

/-!
# What a page knows of its place

A page that is placed at `origin` keeps its cursor behind its text: `Page.StartsAt` says so, and every
way of writing keeps it. Owed blanks are the one thing that is in the position and not yet in the text;
`Page.settle` writes them, and so `position` is the cursor of the settled page.

`Page.RunsOn` says of two pages that what was written between them stands on the current line from its
first character on, and that no blanks are owed behind it. This is what the text of an expression does.
-/

namespace Scribe.Text

variable {s : String}

/-! ## Blanks -/

/-- A text of blanks moves a position like `skip`. -/
theorem Position.advance_blanks (n : Nat) :
    ∀ p : Position, p.advance (String.ofList (List.replicate n ' ')) = p.skip n := by
  induction n with
  | zero =>
    intro p
    rfl
  | succ n ih =>
    intro p
    have hstep : p.advance (String.ofList (List.replicate (n + 1) ' '))
        = (p.skip 1).advance (String.ofList (List.replicate n ' ')) := by
      simp only [Position.advance, String.toList_ofList, List.replicate_succ, List.foldl_cons]
      rfl
    rw [hstep, ih]
    simp only [Position.skip, Nat.add_assoc, Nat.add_comm 1 n]

namespace Page

variable {p q r : Page} {origin : Position}

/-! ## More text -/

/-- The second page is the first one with more text behind. -/
structure Extends (p q : Page) : Prop where
  text : ∃ s, q.text = p.text ++ s ∧ q.cursor = p.cursor.advance s
  opensDocument : q.opensDocument = p.opensDocument

namespace Extends

theorem refl (p : Page) : p.Extends p := ⟨⟨"", by simp, rfl⟩, rfl⟩

theorem trans (h₁ : p.Extends q) (h₂ : q.Extends r) : p.Extends r := by
  obtain ⟨s, hs, hs'⟩ := h₁.text
  obtain ⟨t, ht, ht'⟩ := h₂.text
  refine ⟨⟨s ++ t, ?_, ?_⟩, h₂.opensDocument.trans h₁.opensDocument⟩
  · rw [ht, hs, String.append_assoc]
  · rw [ht', hs', Position.advance_append]

theorem push (p : Page) (s : String) : p.Extends (p.push s) := ⟨⟨s, rfl, rfl⟩, rfl⟩

theorem settle (p : Page) : p.Extends p.settle := by
  unfold Page.settle
  split
  · exact ⟨⟨_, rfl, rfl⟩, rfl⟩
  · exact refl p

theorem write (p : Page) (s : String) : p.Extends (p.write s) := by
  unfold Page.write
  split
  · exact refl p
  · exact (settle p).trans (push p.settle s)

theorem newline (p : Page) : p.Extends p.newline := by
  unfold Page.newline
  split
  · exact ⟨⟨"", by simp, rfl⟩, rfl⟩
  · exact ⟨⟨"\n", rfl, rfl⟩, rfl⟩

end Extends

/-- What is written starts behind what was there. -/
theorem exists_write_text (p : Page) (s : String) : ∃ t, (p.write s).text = p.text ++ t :=
  (Extends.write p s).text.imp fun _ h => h.1

theorem exists_newline_text (p : Page) : ∃ t, p.newline.text = p.text ++ t :=
  (Extends.newline p).text.imp fun _ h => h.1

/-! ## The cursor stands behind the text -/

/-- The cursor of the page is where its text ends when it is placed at `origin`. -/
def StartsAt (p : Page) (origin : Position) : Prop := p.cursor = origin.advance p.text

theorem StartsAt.extend (h : p.StartsAt origin) (hq : p.Extends q) : q.StartsAt origin := by
  obtain ⟨s, htext, hcursor⟩ := hq.text
  unfold StartsAt at h ⊢
  rw [hcursor, htext, h, Position.advance_append]

theorem StartsAt.push (h : p.StartsAt origin) (s : String) : (p.push s).StartsAt origin := h.extend (.push p s)

theorem StartsAt.settle (h : p.StartsAt origin) : p.settle.StartsAt origin := h.extend (.settle p)

theorem StartsAt.write (h : p.StartsAt origin) (s : String) : (p.write s).StartsAt origin :=
  h.extend (.write p s)

theorem StartsAt.newline (h : p.StartsAt origin) : p.newline.StartsAt origin := h.extend (.newline p)

/-- A page that has just been made starts at its origin. -/
theorem startsAt_part (level : Nat) (origin : Position) : (Page.part level origin).StartsAt origin :=
  rfl

theorem startsAt_document (level : Nat) : (Page.document level).StartsAt {} := rfl

/-! ## Owed blanks -/

@[simp] theorem settle_owesIndent (p : Page) : p.settle.owesIndent = false := by
  unfold settle
  split
  · rfl
  · next h => simpa using h

theorem settle_of_settled (h : p.owesIndent = false) : p.settle = p := by
  simp [settle, h]

theorem settle_text (p : Page) : p.settle.text = p.text ++ String.ofList (List.replicate p.owed ' ') := by
  unfold settle owed
  split
  · rfl
  · simp

/-- The position of a page is behind the blanks that it owes. -/
theorem position_eq_settle (p : Page) : p.position = p.settle.cursor := by
  unfold position settle
  split
  · simp only [push, Position.advance_blanks]
  · next h =>
    have hzero : p.owed = 0 := by simp [owed, h]
    rw [hzero]
    rfl

/-- A page without owed blanks is positioned at its cursor. -/
theorem position_of_settled (h : p.owesIndent = false) : p.position = p.cursor := by
  rw [position_eq_settle, settle_of_settled h]

/-! ## Writing on the current line -/

@[simp] theorem write_empty (p : Page) : p.write "" = p := rfl

theorem write_of_ne (h : s ≠ "") (p : Page) : p.write s = p.settle.push s := by
  unfold write
  rw [if_neg (by simpa using h)]

@[simp] theorem push_owesIndent (p : Page) (s : String) : (p.push s).owesIndent = p.owesIndent := rfl

theorem write_owesIndent (h : s ≠ "") (p : Page) : (p.write s).owesIndent = false := by
  rw [write_of_ne h, push_owesIndent, settle_owesIndent]

theorem write_text (h : s ≠ "") (p : Page) : (p.write s).text = p.settle.text ++ s := by
  rw [write_of_ne h]
  rfl

theorem write_text_of_settled (h : p.owesIndent = false) (s : String) : (p.write s).text = p.text ++ s := by
  by_cases hs : s = ""
  · rw [hs, write_empty, String.append_empty]
  · rw [write_text hs, settle_of_settled h]

theorem settle_write_text (p : Page) (s : String) : (p.write s).settle.text = p.settle.text ++ s := by
  by_cases h : s = ""
  · rw [h, write_empty, String.append_empty]
  · rw [settle_of_settled (write_owesIndent h p), write_text h]

theorem write_write (p : Page) (s t : String) : (p.write s).write t = p.write (s ++ t) := by
  by_cases hs : s = ""
  · rw [hs, write_empty, String.empty_append]
  by_cases ht : t = ""
  · rw [ht, write_empty, String.append_empty]
  have hst : s ++ t ≠ "" := by simp [hs]
  rw [write_of_ne ht, settle_of_settled (write_owesIndent hs p), write_of_ne hs, write_of_ne hst]
  simp only [push, String.append_assoc, Position.advance_append]

/-- What was written between two pages stands on the current line from its first character on, and leaves
no blanks owed; or nothing was written. -/
def RunsOn (p q : Page) : Prop :=
  q = p ∨ (q.owesIndent = false ∧ ∃ s, q.text = p.settle.text ++ s)

theorem RunsOn.refl (p : Page) : p.RunsOn p := Or.inl rfl

theorem RunsOn.trans (h₁ : p.RunsOn q) (h₂ : q.RunsOn r) : p.RunsOn r := by
  rcases h₁ with rfl | ⟨ho, s, hs⟩
  · exact h₂
  · rcases h₂ with rfl | ⟨ho', s', hs'⟩
    · exact Or.inr ⟨ho, s, hs⟩
    · refine Or.inr ⟨ho', s ++ s', ?_⟩
      rw [hs', settle_of_settled ho, hs, String.append_assoc]

theorem RunsOn.write (p : Page) (s : String) : p.RunsOn (p.write s) := by
  by_cases h : s = ""
  · exact Or.inl (by rw [h, write_empty])
  · exact Or.inr ⟨write_owesIndent h p, s, write_text h p⟩

theorem RunsOn.settle_text (h : p.RunsOn q) : ∃ s, q.settle.text = p.settle.text ++ s := by
  rcases h with rfl | ⟨ho, s, hs⟩
  · exact ⟨"", by rw [String.append_empty]⟩
  · exact ⟨s, by rw [settle_of_settled ho, hs]⟩

/-- Behind a page without owed blanks, what runs on leaves none owed. -/
theorem RunsOn.settled (h : p.RunsOn q) (hp : p.owesIndent = false) :
    q.owesIndent = false ∧ ∃ s, q.text = p.settle.text ++ s := by
  rcases h with rfl | h
  · exact ⟨hp, "", by rw [settle_of_settled hp, String.append_empty]⟩
  · exact h

/-! ## Lines -/

@[simp] theorem settle_level (p : Page) : p.settle.level = p.level := by
  unfold settle
  split <;> rfl

@[simp] theorem write_level (p : Page) (s : String) : (p.write s).level = p.level := by
  unfold write
  split
  · rfl
  · exact p.settle_level

@[simp] theorem newline_level (p : Page) : p.newline.level = p.level := by
  unfold newline
  split <;> rfl

/-- The blanks at the start of a line of a level. -/
def blanks (level : Nat) : String := String.ofList (List.replicate (level * levelWidth) ' ')

/-- The blanks at the start of a line. -/
def margin (p : Page) : String := blanks p.level

theorem margin_congr (h : p.level = q.level) : p.margin = q.margin := congrArg blanks h

theorem write_text_ne (hs : s ≠ "") (p : Page) : (p.write s).text ≠ "" := by
  rw [write_text hs]
  simp [hs]

theorem newline_text (h : p.text ≠ "") : p.newline.text = p.text ++ "\n" := by
  have hopens : ¬(p.opensDocument && p.text.isEmpty) = true := by simp [h]
  unfold newline
  rw [if_neg hopens]
  rfl

theorem newline_owesIndent (p : Page) : p.newline.owesIndent = true := by
  unfold newline
  split <;> rfl

theorem settle_newline_text (p : Page) : p.newline.settle.text = p.newline.text ++ p.margin := by
  rw [settle_text, owed, if_pos p.newline_owesIndent, newline_level]
  rfl

/-- The rest of a line, with the blanks of the line that comes next. -/
theorem settle_endLine_text (hs : s ≠ "") (p : Page) :
    (p.write s).newline.settle.text = p.settle.text ++ (s ++ ("\n" ++ p.margin)) := by
  rw [settle_newline_text, newline_text (write_text_ne hs p), write_text hs, margin_congr (p.write_level s)]
  simp only [String.append_assoc]

@[simp] theorem writeLine_level (p : Page) (s : String) : (p.writeLine s).level = p.level := by
  rw [writeLine, write_level, newline_level]

theorem writeLine_text (hs : s ≠ "") (p : Page) :
    (p.writeLine s).text = p.newline.text ++ (p.margin ++ s) := by
  rw [writeLine, write_text hs, settle_newline_text, String.append_assoc]

/-- A line behind others. -/
theorem writeLine_text_of_ne (h : p.text ≠ "") (hs : s ≠ "") :
    (p.writeLine s).text = p.text ++ ("\n" ++ (p.margin ++ s)) := by
  rw [writeLine_text hs, newline_text h, String.append_assoc]

theorem openBrace_text (h : p.text ≠ "") :
    (p.openBrace false).text = p.text ++ ("\n" ++ (p.margin ++ "\x7b")) := by
  show (p.writeLine "\x7b").text = _
  exact writeLine_text_of_ne h (by decide)

/-! ## Pages at different places -/

/-- Two pages are alike when they differ at most in where they are placed. -/
structure Alike (p q : Page) : Prop where
  text : p.text = q.text
  level : p.level = q.level
  owesIndent : p.owesIndent = q.owesIndent
  opensDocument : p.opensDocument = q.opensDocument

theorem Alike.owed (h : p.Alike q) : p.owed = q.owed := by
  simp only [Page.owed, h.level, h.owesIndent]

theorem Alike.push (h : p.Alike q) (s : String) : (p.push s).Alike (q.push s) :=
  ⟨congrArg (· ++ s) h.text, h.level, h.owesIndent, h.opensDocument⟩

theorem Alike.settle (h : p.Alike q) : p.settle.Alike q.settle := by
  unfold Page.settle
  rw [h.owesIndent, h.owed]
  split
  · have hpush := h.push (String.ofList (List.replicate q.owed ' '))
    exact ⟨hpush.text, hpush.level, rfl, hpush.opensDocument⟩
  · exact h

theorem Alike.write (h : p.Alike q) (s : String) : (p.write s).Alike (q.write s) := by
  unfold Page.write
  split
  · exact h
  · exact h.settle.push s

theorem Alike.newline (h : p.Alike q) : p.newline.Alike q.newline := by
  have hopens : (p.opensDocument && p.text.isEmpty) = (q.opensDocument && q.text.isEmpty) := by
    rw [h.opensDocument, h.text]
  unfold Page.newline
  rw [hopens]
  split
  · exact ⟨h.text, h.level, rfl, h.opensDocument⟩
  · have hpush := h.push "\n"
    exact ⟨hpush.text, hpush.level, rfl, hpush.opensDocument⟩

theorem Alike.indent (h : p.Alike q) : p.indent.Alike q.indent :=
  ⟨h.text, congrArg (· + 1) h.level, h.owesIndent, h.opensDocument⟩

theorem Alike.dedent (h : p.Alike q) : p.dedent.Alike q.dedent :=
  ⟨h.text, congrArg (· - 1) h.level, h.owesIndent, h.opensDocument⟩

theorem Alike.openBrace (h : p.Alike q) (onLine : Bool) : (p.openBrace onLine).Alike (q.openBrace onLine) := by
  unfold Page.openBrace
  split
  · exact (h.write _).indent
  · exact (h.newline.write _).indent

theorem Alike.closeBrace (h : p.Alike q) : p.closeBrace.Alike q.closeBrace := by
  unfold Page.closeBrace Page.writeLine
  exact h.dedent.newline.write _

end Page

end Scribe.Text
