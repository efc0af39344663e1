import Scribe.Proofs.Reading.Token
import Scribe.Proofs.Text.Page

/-!
# The tokens of a page

Line breaks and indentation have no tokens, and they cut the text: what is written on a new line is read apart
from everything in front of it.
-/

namespace Scribe

namespace Reading

theorem lex_append_blanks {bs : List Char} (h : ∀ b ∈ bs, isBlank b = true) (cs : List Char) :
    lex (cs ++ bs) = lex cs := by
  induction bs generalizing cs with
  | nil => rw [List.append_nil]
  | cons b bs ih =>
    have hnone : lex bs = [] := ih (fun c hc => h c (List.mem_cons_of_mem b hc)) []
    rw [lex_blank (h b List.mem_cons_self), hnone, List.append_nil]

theorem lex_blanks_append {bs : List Char} (h : ∀ b ∈ bs, isBlank b = true) (cs : List Char) :
    lex (bs ++ cs) = lex cs := by
  induction bs with
  | nil => rfl
  | cons b bs ih =>
    have hcut := lex_blank (h b List.mem_cons_self) [] (bs ++ cs)
    rw [List.nil_append] at hcut
    rw [List.cons_append, hcut, ih fun c hc => h c (List.mem_cons_of_mem b hc)]
    rfl

end Reading

namespace Text.Page

open Reading (Token isBlank)

/-- The tokens of the text on a page. -/
def tokens (p : Page) : List Token := Reading.tokens p.text

variable (p : Page)

theorem isBlank_owed : ∀ b ∈ List.replicate p.owed ' ', isBlank b = true := by
  intro b hb
  rw [List.eq_of_mem_replicate hb]
  rfl

@[simp] theorem tokens_settle : p.settle.tokens = p.tokens := by
  unfold tokens Reading.tokens
  rw [settle_text, String.toList_append, String.toList_ofList, Reading.lex_append_blanks p.isBlank_owed]

@[simp] theorem tokens_newline : p.newline.tokens = p.tokens := by
  unfold newline
  split
  · rfl
  · have hbreak : ∀ b ∈ ['\n'], isBlank b = true := by
      intro b hb
      rw [List.mem_singleton.mp hb]
      rfl
    show Reading.tokens (p.text ++ "\n") = _
    unfold Reading.tokens
    rw [String.toList_append]
    exact Reading.lex_append_blanks hbreak _

/-- **A new line is read on its own.** -/
theorem tokens_writeLine (s : String) : (p.writeLine s).tokens = p.tokens ++ Reading.tokens s := by
  unfold writeLine
  by_cases hs : s = ""
  · rw [hs, write_empty, tokens_newline]
    exact (List.append_nil _).symm
  have htext : (p.newline.write s).text.toList =
      p.newline.text.toList ++ (List.replicate p.newline.owed ' ' ++ s.toList) := by
    rw [write_text hs, settle_text, String.toList_append, String.toList_append, String.toList_ofList,
      List.append_assoc]
  unfold tokens Reading.tokens
  rw [htext]
  -- Either a line break is in front of the new line, or nothing at all.
  by_cases hfirst : (p.opensDocument && p.text.isEmpty) = true
  · have hsame : p.newline.text = p.text := by rw [newline, if_pos hfirst]
    have hempty : p.text = "" := by simpa using ((Bool.and_eq_true _ _).mp hfirst).2
    rw [hsame, hempty]
    exact Reading.lex_blanks_append p.newline.isBlank_owed _
  · have hbreak : p.newline.text.toList = p.text.toList ++ ['\n'] := by
      rw [newline, if_neg hfirst]
      exact String.toList_append
    rw [hbreak, List.append_assoc, List.singleton_append, Reading.lex_blank rfl,
      Reading.lex_blanks_append p.newline.isBlank_owed]

theorem tokens_openBrace : (p.openBrace false).tokens = p.tokens ++ [.sign ['\x7b']] :=
  p.tokens_writeLine "\x7b"

theorem tokens_closeBrace : p.closeBrace.tokens = p.tokens ++ [.sign ['\x7d']] :=
  p.dedent.tokens_writeLine "\x7d"

end Text.Page

end Scribe
