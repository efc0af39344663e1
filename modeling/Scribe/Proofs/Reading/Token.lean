import Mathlib.Data.List.Basic

/-!
# Tokens

How a text of the language falls into words and signs. Blanks and line ends separate tokens. A word is as
long as it can be, and so is a sign: two signs in a row are one as long as the language has that sign.
Each beginning of a sign is a sign, so a reader that keeps one token open and extends it while it can
finds the longest ones.

Literals of strings and characters are not covered, and the two signs that open a comment are read as
signs that no rule uses.

What a text is read as depends on its neighbours only at the seams: `tokens_append` cuts a text wherever
the token that is open cannot take the next character.
-/

namespace Scribe.Reading

variable {c : Char} {cs : List Char}

/-- A word (a name, a number or a keyword) or a sign. -/
inductive Token where
  | word (text : List Char)
  | sign (text : List Char)
deriving DecidableEq, Repr

/-- The characters that separate tokens. -/
def blanks : List Char := [' ', '\n', '\t', '\x0d']

/-- The characters that signs are made of. -/
def signs : List Char :=
  ['+', '-', '*', '/', '%', '&', '|', '^', '~', '!', '<', '>', '=', '?', ':', ';', ',', '.', '(', ')',
   '[', ']', '\x7b', '\x7d']

/-- Whether the character separates tokens. -/
def isBlank (c : Char) : Bool := blanks.contains c

/-- Whether the character is part of a sign. -/
def isSign (c : Char) : Bool := signs.contains c

/-- The signs of more than one character. -/
def longSigns : List (List Char) :=
  [['+', '+'], ['-', '-'], ['&', '&'], ['|', '|'], ['=', '='], ['!', '='], ['<', '='], ['>', '='],
   ['<', '<'], ['>', '>'], ['<', '<', '='], ['>', '>', '='], ['+', '='], ['-', '='], ['*', '='],
   ['/', '='], ['%', '='], ['&', '='], ['|', '='], ['^', '='], ['?', '?'], ['?', '?', '='], ['=', '>'],
   ['-', '>'], [':', ':'], ['/', '/'], ['/', '*']]

/-- The signs that stand alone whatever is next to them. -/
def delimiters : List Char := ['(', ')', ';', ',', '\x7b', '\x7d']

theorem isSign_of_delimiter : ∀ c ∈ delimiters, isSign c = true ∧ isBlank c = false := by
  have h : (delimiters.all fun c => isSign c && !isBlank c) = true := by decide
  simpa using h

namespace Token

/-- The token that a character opens. -/
def start (c : Char) : Token := if isSign c then .sign [c] else .word [c]

/-- The token with one more character, if there is such a token. -/
def extend? (c : Char) : Token → Option Token
  | .word cs => if isSign c then none else some (.word (cs ++ [c]))
  | .sign cs => if longSigns.contains (cs ++ [c]) then some (.sign (cs ++ [c])) else none

theorem extend?_delimiter (hc : c ∈ delimiters) (t : Token) : t.extend? c = none := by
  cases t with
  | word cs =>
    rw [extend?, if_pos (isSign_of_delimiter c hc).1]
  | sign cs =>
    have hlong : (longSigns.all fun s => delimiters.all fun d => s.getLast? != some d) = true := by decide
    refine if_neg fun hmem => ?_
    have hlast := List.all_eq_true.mp (List.all_eq_true.mp hlong _ (List.contains_iff_mem.mp hmem)) c hc
    refine bne_iff_ne.mp hlast ?_
    rw [List.getLast?_append, List.getLast?_singleton, Option.some_or]

theorem delimiter_extend? (hc : c ∈ delimiters) (d : Char) : (sign [c]).extend? d = none := by
  have hlong : (longSigns.all fun s => delimiters.all fun d => s.head? != some d) = true := by decide
  refine if_neg fun hmem => ?_
  have hhead := List.all_eq_true.mp (List.all_eq_true.mp hlong _ (List.contains_iff_mem.mp hmem)) c hc
  exact bne_iff_ne.mp hhead rfl

end Token

/-! ## The reader -/

/-- One character: the token that it finishes, if any, and the token that is open behind it. -/
def step (pending : Option Token) (c : Char) : List Token × Option Token :=
  if isBlank c then (pending.toList, none)
  else
    match pending.bind (·.extend? c) with
    | some t => ([], some t)
    | none => (pending.toList, some (.start c))

/-- A text: the tokens that it finishes and the token that is open behind it. -/
def scan (pending : Option Token) : List Char → List Token × Option Token
  | [] => ([], pending)
  | c :: cs =>
    let next := step pending c
    let after := scan next.2 cs
    (next.1 ++ after.1, after.2)

/-- The tokens of a list of characters. -/
def lex (cs : List Char) : List Token := (scan none cs).1 ++ (scan none cs).2.toList

/-- The tokens of a text. -/
def tokens (s : String) : List Token := lex s.toList

/-- The token that is open behind a text. -/
def pending (cs : List Char) : Option Token := (scan none cs).2

/-! ## Seams -/

theorem scan_append (p : Option Token) (cs ds : List Char) :
    scan p (cs ++ ds) = ((scan p cs).1 ++ (scan (scan p cs).2 ds).1, (scan (scan p cs).2 ds).2) := by
  induction cs generalizing p with
  | nil => rfl
  | cons c cs ih => simp only [List.cons_append, scan, ih, List.append_assoc]

/-- The characters `ds` do not go on with the open token `p`. -/
def Apart (p : Option Token) (ds : List Char) : Prop :=
  ∀ c ∈ ds.head?, isBlank c = true ∨ p.bind (·.extend? c) = none

/-- Where the open token cannot go on, reading starts anew. -/
theorem scan_of_apart {p : Option Token} {ds : List Char} (h : Apart p ds) :
    (scan p ds).1 ++ (scan p ds).2.toList = p.toList ++ lex ds := by
  cases ds with
  | nil => simp [scan, lex]
  | cons c cs =>
    have hstep : step p c = (p.toList ++ (step none c).1, (step none c).2) := by
      unfold step
      rcases h c rfl with hblank | hnone
      · simp [hblank]
      · cases isBlank c
        · simp [hnone]
        · simp
    simp only [lex, scan, hstep, List.append_assoc]

/-- **A text can be cut where the open token cannot go on.** -/
theorem lex_append {ds : List Char} (h : Apart (pending cs) ds) : lex (cs ++ ds) = lex cs ++ lex ds := by
  have hscan := scan_of_apart h
  unfold pending at hscan
  unfold lex at hscan ⊢
  rw [scan_append]
  simp only [List.append_assoc, hscan]

theorem tokens_append {s t : String} (h : Apart (pending s.toList) t.toList) :
    tokens (s ++ t) = tokens s ++ tokens t := by
  unfold tokens
  rw [String.toList_append, lex_append h]

theorem lex_blank {b : Char} (hb : isBlank b = true) (cs ds : List Char) : lex (cs ++ b :: ds) = lex cs ++ lex ds := by
  have hapart : Apart (pending cs) (b :: ds) := by
    intro c hc
    obtain rfl := Option.some.inj hc
    exact Or.inl hb
  have hdrop : lex (b :: ds) = lex ds := by
    simp [lex, scan, step, hb]
  rw [lex_append hapart, hdrop]

theorem lex_delimiter (hc : c ∈ delimiters) (cs ds : List Char) :
    lex (cs ++ c :: ds) = lex cs ++ .sign [c] :: lex ds := by
  have hapart : Apart (pending cs) (c :: ds) := by
    intro d hd
    obtain rfl := Option.some.inj hd
    cases pending cs with
    | none => exact Or.inr rfl
    | some t => exact Or.inr (t.extend?_delimiter hc)
  have hsign := isSign_of_delimiter c hc
  have hopen : lex (c :: ds) = .sign [c] :: lex ds := by
    have hscan : scan none [c] = ([], some (.sign [c])) := by
      simp [scan, step, Token.start, hsign.1, hsign.2]
    have hrest : Apart (pending [c]) ds := fun d _ => Or.inr <| by
      rw [pending, hscan]
      exact Token.delimiter_extend? hc d
    have hcut := lex_append hrest
    rw [List.singleton_append] at hcut
    rw [hcut, lex, hscan]
    rfl
  rw [lex_append hapart, hopen]

/-! ## Words -/

/-- Whether the characters can stand in one word. -/
def isWord (cs : List Char) : Bool := !cs.isEmpty && cs.all fun c => !isBlank c && !isSign c

theorem isDigit_word (h : c.isDigit = true) : isBlank c = false ∧ isSign c = false := by
  have hnone : ((blanks ++ signs).all fun c => !c.isDigit) = true := by decide
  have hdigit : ∀ d ∈ blanks ++ signs, d.isDigit = false := by
    simpa only [List.all_eq_true, Bool.not_eq_true'] using hnone
  constructor
  · refine Bool.eq_false_iff.mpr fun hc => ?_
    rw [hdigit c (List.mem_append_left _ (List.contains_iff_mem.mp hc))] at h
    cases h
  · refine Bool.eq_false_iff.mpr fun hc => ?_
    rw [hdigit c (List.mem_append_right _ (List.contains_iff_mem.mp hc))] at h
    cases h

theorem scan_word {w : List Char} :
    ∀ {cs : List Char}, (∀ c ∈ cs, isBlank c = false ∧ isSign c = false) →
      scan (some (.word w)) cs = ([], some (.word (w ++ cs))) := by
  intro cs
  induction cs generalizing w with
  | nil => simp [scan]
  | cons c cs ih =>
    intro h
    have hc := h c List.mem_cons_self
    have hrest := ih (w := w ++ [c]) fun d hd => h d (List.mem_cons_of_mem c hd)
    simp [scan, step, Token.extend?, hc.1, hc.2, hrest]

theorem isWord_iff : isWord cs = true ↔ cs ≠ [] ∧ ∀ c ∈ cs, isBlank c = false ∧ isSign c = false := by
  simp [isWord]

theorem scan_of_isWord (h : isWord cs = true) : scan none cs = ([], some (.word cs)) := by
  obtain ⟨hne, hall⟩ := isWord_iff.mp h
  cases cs with
  | nil => exact absurd rfl hne
  | cons c cs =>
    have hc := hall c List.mem_cons_self
    have hrest := scan_word (w := [c]) fun d hd => hall d (List.mem_cons_of_mem c hd)
    simp [scan, step, Token.start, hc.1, hc.2, hrest]

theorem pending_of_isWord (h : isWord cs = true) : pending cs = some (.word cs) := by
  rw [pending, scan_of_isWord h]

theorem lex_of_isWord (h : isWord cs = true) : lex cs = [.word cs] := by
  rw [lex, scan_of_isWord h]
  rfl

end Scribe.Reading
