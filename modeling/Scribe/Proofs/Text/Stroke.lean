import Scribe.Proofs.Script.Assembly
import Scribe.Proofs.Text.Excerpt

/-!
# Counting positions and looking them up

The position of a page is counted along while the page is written, and a line and a column are looked up by going
through a text from its front. The two know nothing of each other. They agree after every sequence of strokes: the
position of a page is where its text ends, owed blanks included, and looking up its line and column gives its offset.
-/

namespace Scribe.Text

/-! ## Ends of texts -/

/-- Where a text ends: its line breaks are in front, and so are the characters of its last line and all its bytes. -/
def Position.endOf (text : String) : Position where
  line := text.toList.count '\n' + 1
  column := (text.toList.reverse.takeWhile (· ≠ '\n')).length + 1
  offset := byteCount text.toList

/-- A position that moves over a text from its start is where the text ends. -/
theorem Position.advance_eq_endOf (text : String) : ({} : Position).advance text = endOf text := by
  unfold advance endOf
  -- a position is advanced at its end, so the induction adds a character behind the text
  induction text.toList using List.reverseRecOn with
  | nil => rfl
  | append_singleton cs c ih =>
    rw [List.foldl_append, ih]
    by_cases hc : c = '\n'
    · simp [step, hc]
    · simp [step, hc]

namespace Page

/-! ## Strokes -/

/-- What can be done to a page. -/
inductive Stroke where
  | write (s : String)
  | newline
  | writeLine (s : String)
  | openBrace (onLine : Bool)
  | closeBrace
  | indent
  | dedent
  | append (s : String)

/-- The page behind a stroke. -/
def stroke (p : Page) : Stroke → Page
  | .write s => p.write s
  | .newline => p.newline
  | .writeLine s => p.writeLine s
  | .openBrace onLine => p.openBrace onLine
  | .closeBrace => p.closeBrace
  | .indent => p.indent
  | .dedent => p.dedent
  | .append s => p.append s

/-- The page behind several strokes. -/
def strokes (p : Page) (ss : List Stroke) : Page := ss.foldl stroke p

variable {p : Page} {origin : Position}

theorem StartsAt.stroke (h : p.StartsAt origin) (s : Stroke) : (p.stroke s).StartsAt origin := by
  cases s with
  | write s => exact h.write s
  | newline => exact h.newline
  | writeLine s => exact StartsAt.writeLine h s
  | openBrace onLine =>
    cases onLine with
    | true => exact StartsAt.write h "\x7b"
    | false => exact StartsAt.openBrace h
  | closeBrace => exact StartsAt.writeLine (p := p.dedent) h "\x7d"
  | indent => exact h
  | dedent => exact h
  | append s => exact StartsAt.append h s

theorem StartsAt.strokes (h : p.StartsAt origin) (ss : List Stroke) : (p.strokes ss).StartsAt origin :=
  StartsAt.foldl (fun s h => StartsAt.stroke h s) ss h

/-! ## Positions -/

/-- The text of the page behind another one, up to where the next character will be written. -/
def behind (p : Page) (before : String) : String :=
  before ++ p.text ++ String.ofList (List.replicate p.owed ' ')

/-- The position of the page is right: it is where the text of the page ends behind `before`, and in every text that
begins so, its line and column lead to its offset. -/
structure RightBehind (p : Page) (before : String) : Prop where
  position : p.position = .endOf (p.behind before)
  found (rest : String) :
    byteOffset? (p.behind before ++ rest).toList p.position.line p.position.column = some p.position.offset

theorem StartsAt.rightBehind {before : String} (h : p.StartsAt (.endOf before)) : p.RightBehind before := by
  have hbehind : p.behind before = before ++ p.settle.text := by
    rw [behind, settle_text, String.append_assoc]
  have hposition : p.position = ({} : Position).advance (p.behind before) := by
    rw [position_eq_settle, hbehind, Position.advance_append, Position.advance_eq_endOf]
    exact h.settle
  refine ⟨by rw [hposition, Position.advance_eq_endOf], fun rest => ?_⟩
  rw [hposition, Position.byteOffset?_advance, Position.advance_eq_endOf]
  rfl

/-- **Positions are counted right.** A page that is placed behind any text, and a page that opens a document, have the
right position after every sequence of strokes. -/
theorem strokes_rightBehind (before : String) (level : Nat) (ss : List Stroke) :
    ((part level (.endOf before)).strokes ss).RightBehind before ∧
      ((document level).strokes ss).RightBehind "" :=
  ⟨((startsAt_part level _).strokes ss).rightBehind, ((startsAt_document level).strokes ss).rightBehind⟩

/-- Blanks that are owed count, and a character of several bytes is one column. -/
example : ((document 0).strokes [.write "é", .indent, .newline]).position = ⟨2, 5, 7⟩ := by decide

end Page

end Scribe.Text
