import Scribe.Text.Literal

/-!
# Reading literals of text

How the language reads the literals of strings and characters. A regular literal ends at the next quote that is not
escaped, and holds no end of a line. In a verbatim literal only a quote is special, and is written twice. A character
literal holds one character of the basic plane or an escape.

The writer chooses the verbatim form for backslashes, quotes and control characters. Two ends of lines are not control
characters, the separators of lines and of paragraphs. They are written as they are, where the language does not allow
them; all other literals are read as what they were written for.
-/

namespace Scribe.Reading

open Text

/-! ## Escapes -/

/-- The separators of lines and of paragraphs. -/
def isSeparator (c : Char) : Bool := c == '\u2028' || c == '\u2029'

/-- The characters that end a line. -/
def isLineEnd (c : Char) : Bool := c == '\n' || c == '\x0d' || c == '\u0085' || isSeparator c

/-- The value of a hexadecimal digit. -/
def hexDigit? (c : Char) : Option Nat :=
  if c.isDigit then some (c.toNat - '0'.toNat)
  else if 'a' ≤ c ∧ c ≤ 'f' then some (c.toNat - 'a'.toNat + 10)
  else if 'A' ≤ c ∧ c ≤ 'F' then some (c.toNat - 'A'.toNat + 10)
  else none

/-- At most `most` hexadecimal digits behind the number `v`: how many there are, and the number with them. -/
def hexDigits : (most : Nat) → (v : Nat) → List Char → Nat × Nat
  | most + 1, v, c :: cs =>
    match hexDigit? c with
    | some d =>
      let (count, v) := hexDigits most (16 * v + d) cs
      (count + 1, v)
    | none => (0, v)
  | _, v, _ => (0, v)

/-- The escapes of one letter. -/
def simpleEscapes : List (Char × Char) :=
  [('\x27', '\x27'), ('"', '"'), ('\\', '\\'), ('0', '\x00'), ('a', '\x07'), ('b', '\x08'), ('f', '\x0c'), ('n', '\n'),
   ('r', '\x0d'), ('t', '\t'), ('v', '\x0b')]

/-- What an escape of `least` to `most` hexadecimal digits stands for, and its length with its letter. -/
def hexEscape? (least most : Nat) (cs : List Char) : Option (Char × Nat) :=
  let (count, v) := hexDigits most 0 cs
  if least ≤ count ∧ v.isValidChar then some (Char.ofNat v, count + 1) else none

/-- What stands behind a backslash: the character that it stands for, and its length. -/
def escape? : List Char → Option (Char × Nat)
  | 'u' :: cs => hexEscape? 4 4 cs
  | 'U' :: cs => hexEscape? 8 8 cs
  | 'x' :: cs => hexEscape? 1 4 cs
  | c :: _ => (simpleEscapes.lookup c).map (·, 1)
  | [] => none

/-! ## Readers -/

/-- A regular literal behind its opening quote: its value and what follows it. `skip` characters belong to an escape
that has been read. -/
def regular? : (skip : Nat) → List Char → Option (List Char × List Char)
  | _, [] => none
  | skip + 1, _ :: cs => regular? skip cs
  | 0, c :: cs =>
    if c = '"' then some ([], cs)
    else if c = '\\' then
      (escape? cs).bind fun (d, length) => (regular? length cs).map fun (ds, rest) => (d :: ds, rest)
    else if isLineEnd c then none
    else (regular? 0 cs).map fun (ds, rest) => (c :: ds, rest)

/-- A verbatim literal behind its opening quote: its value and what follows it. -/
def verbatim? : List Char → Option (List Char × List Char)
  | '"' :: '"' :: cs => (verbatim? cs).map fun (ds, rest) => ('"' :: ds, rest)
  | '"' :: rest => some ([], rest)
  | c :: cs => (verbatim? cs).map fun (ds, rest) => (c :: ds, rest)
  | [] => none

/-- Reads the literal of a string: its value and what follows it. -/
def string? : List Char → Option (List Char × List Char)
  | '"' :: cs => regular? 0 cs
  | '@' :: '"' :: cs => verbatim? cs
  | _ => none

/-- Reads the literal of a character: its value, which is in the basic plane, and what follows it. -/
def character? : List Char → Option (Char × List Char)
  | '\x27' :: c :: cs => do
    let (d, rest) ←
      if c = '\\' then (escape? cs).map fun (d, length) => (d, cs.drop length)
      else if c = '\x27' ∨ isLineEnd c then none
      else some (c, cs)
    if rest.head? = some '\x27' ∧ d.toNat ≤ 0xffff then some (d, rest.tail) else none
  | _ => none

/-! ## Strings -/

/-- A quote that is written twice is read once, and the quote behind them ends the literal. -/
theorem verbatim?_doubleQuotes (s : List Char) {r : List Char} (hr : r.head? ≠ some '"') :
    verbatim? (doubleQuotes s ++ '"' :: r) = some (s, r) := by
  induction s with
  | nil =>
    cases r with
    | nil => rfl
    | cons c r =>
      have hc : c ≠ '"' := by simpa using hr
      simp [doubleQuotes, verbatim?, hc]
  | cons c s ih => by_cases hc : c = '"' <;> simp [doubleQuotes, verbatim?, hc, ih]

theorem toNat_lt_of_control {c : Char} (hc : isControl c = true) : c.toNat < 0xa0 := by
  simp only [isControl, Bool.or_eq_true, Bool.and_eq_true, decide_eq_true_eq] at hc
  omega

/-- Of the ends of lines, only the separators are no control characters. -/
theorem isLineEnd_of_not_control {c : Char} (hc : isControl c = false) : isLineEnd c = isSeparator c := by
  have hne : ∀ d, isControl d = true → c ≠ d := by
    rintro d hd rfl
    simp [hc] at hd
  simp [isLineEnd, hne '\n' (by decide), hne '\x0d' (by decide), hne '\u0085' (by decide)]

/-- A string without special characters is read as it is, unless there is a separator in it. -/
theorem regular?_plain {s : List Char} (hs : s.any needsVerbatim = false) (r : List Char) :
    regular? 0 (s ++ '"' :: r) = if s.any isSeparator then none else some (s, r) := by
  induction s with
  | nil => rfl
  | cons c s ih =>
    simp only [List.any_cons, needsVerbatim, Bool.or_eq_false_iff, beq_eq_false_iff_ne] at hs
    obtain ⟨⟨⟨hslash, hquote⟩, hcontrol⟩, hs⟩ := hs
    rw [List.cons_append, regular?, if_neg hquote, if_neg hslash, isLineEnd_of_not_control hcontrol, ih hs,
      List.any_cons]
    cases isSeparator c <;> cases s.any isSeparator <;> rfl

/-- The literal of a string is read as the string, unless it is a regular one with a separator in it. -/
theorem string?_stringLiteral (s : String) {r : String} (hr : r.toList.head? ≠ some '"') :
    string? (stringLiteral s ++ r).toList =
      if s.toList.any isSeparator && !s.toList.any needsVerbatim then none else some (s.toList, r.toList) := by
  unfold stringLiteral
  cases hs : s.toList.any needsVerbatim with
  | true => simpa [string?] using verbatim?_doubleQuotes s.toList hr
  | false => simpa [string?] using regular?_plain hs r.toList

/-! ## Characters -/

/-- Digits that are all read are read in front of any text. -/
theorem hexDigits_append {most v : Nat} {cs : List Char} (h : (hexDigits most v cs).1 = most) (r : List Char) :
    hexDigits most v (cs ++ r) = hexDigits most v cs := by
  fun_induction hexDigits most v cs with
  | case1 most v c cs d hd count v' hread ih =>
    rw [List.cons_append, hexDigits, hd]
    simp [ih (by rw [hread]; exact Nat.succ.inj h), hread]
  | case2 most v c cs hd => simp at h
  | case3 most v cs hcons =>
    cases most with
    | zero => simp [hexDigits]
    | succ most => simp at h

theorem hexDigit?_digitChar {d : Nat} (hd : d < 16) : hexDigit? d.digitChar.toUpper = some d := by
  have hall : ((List.range 16).all fun d => hexDigit? d.digitChar.toUpper == some d) = true := by decide
  simpa using List.all_eq_true.mp hall d (List.mem_range.mpr hd)

/-- A number of at most two digits has two zeros in front. -/
theorem hex4_toList {n : Nat} (h : n < 0x100) :
    (hex4 n).toList = ['0', '0', (n / 16).digitChar.toUpper, (n % 16).digitChar.toUpper] := by
  unfold hex4
  rw [Nat.toDigits_eq_if (by decide)]
  split
  · next hlt =>
    rw [Nat.div_eq_of_lt hlt, Nat.mod_eq_of_lt hlt, String.toList_ofList]
    rfl
  · rw [Nat.toDigits_of_lt_base (by omega), String.toList_ofList]
    rfl

theorem hexDigits_hex4 {n : Nat} (h : n < 0x100) : hexDigits 4 0 (hex4 n).toList = (4, n) := by
  have hzero : hexDigit? '0' = some 0 := rfl
  have hvalue : 16 * (n / 16) + n % 16 = n := by omega
  simp [hex4_toList h, hexDigits, hzero, hexDigit?_digitChar (show n / 16 < 16 by omega),
    hexDigit?_digitChar (show n % 16 < 16 by omega), hvalue]

theorem escape?_control {c : Char} (hc : isControl c = true) (r : List Char) :
    escape? ('u' :: ((hex4 c.toNat).toList ++ r)) = some (c, 5) := by
  have hdigits := hexDigits_hex4 (Nat.lt_trans (toNat_lt_of_control hc) (by decide))
  have hread := hexDigits_append (by rw [hdigits]) r
  have hvalid : c.toNat.isValidChar := c.valid
  simp only [escape?, hexEscape?, hread, hdigits, hvalid, Nat.le_refl, and_self, if_true, Char.ofNat_toNat]

/-- An escape between quotes is read as the character that it stands for. -/
theorem character?_escaped {cs rest : List Char} {d : Char} {length : Nat} (h : escape? cs = some (d, length))
    (hrest : cs.drop length = '\x27' :: rest) (hd : d.toNat ≤ 0xffff) :
    character? ('\x27' :: '\\' :: cs) = some (d, rest) := by
  simp [character?, h, hrest, hd]

/-- A character that needs no escape stands for itself, unless it ends a line or is outside the basic plane. -/
theorem character?_plain {c : Char} (hslash : c ≠ '\\') (hquote : c ≠ '\x27') (r : List Char) :
    character? ('\x27' :: c :: '\x27' :: r) = if isLineEnd c ∨ 0xffff < c.toNat then none else some (c, r) := by
  by_cases hend : isLineEnd c = true
  · simp [character?, hslash, hend]
  · by_cases hplane : c.toNat ≤ 0xffff
    · simp [character?, hslash, hquote, hend, hplane]
    · simp [character?, hslash, hquote, hend, hplane, Nat.lt_of_not_le hplane]

/-- The literal of a character is read as the character, unless it is a separator or outside the basic plane. -/
theorem character?_charLiteral (c : Char) (r : String) :
    character? (charLiteral c ++ r).toList =
      if isSeparator c ∨ 0xffff < c.toNat then none else some (c, r.toList) := by
  have hlist : (charLiteral c ++ r).toList = '\x27' :: ((charBody c).toList ++ '\x27' :: r.toList) := by
    simp [charLiteral]
  rw [hlist]
  by_cases hspecial : c ∈ ['\\', '\x27', '\x00', '\n', '\x0d', '\t']
  · simp only [List.mem_cons, List.not_mem_nil, or_false] at hspecial
    rcases hspecial with rfl | rfl | rfl | rfl | rfl | rfl <;> exact character?_escaped rfl rfl (by decide)
  · simp only [List.mem_cons, List.not_mem_nil, or_false, not_or] at hspecial
    obtain ⟨hslash, hquote, hzero, hline, hreturn, htab⟩ := hspecial
    simp only [charBody, hslash, hquote, hzero, hline, hreturn, htab, if_false]
    cases hcontrol : isControl c with
    | true =>
      have hlt := toNat_lt_of_control hcontrol
      have hne : ∀ d : Char, 0xa0 ≤ d.toNat → c ≠ d := by
        rintro d hd rfl
        omega
      have hseparator : isSeparator c = false := by
        simp [isSeparator, hne '\u2028' (by decide), hne '\u2029' (by decide)]
      have hdrop : ('u' :: ((hex4 c.toNat).toList ++ '\x27' :: r.toList)).drop 5 = '\x27' :: r.toList := by
        rw [hex4_toList (Nat.lt_trans hlt (by decide))]
        rfl
      rw [if_neg (not_or.mpr ⟨by simp [hseparator], by omega⟩)]
      simpa using character?_escaped (escape?_control hcontrol _) hdrop (by omega)
    | false => simpa [isLineEnd_of_not_control hcontrol] using character?_plain hslash hquote r.toList

/-! ## Literals -/

/-- **A literal is read as the value that it was written for, and nothing more is read,** whatever follows it but a
quote behind a string. The exceptions are regular literals of strings with a separator in them and the literals of the two
separators, which are refused; a character outside the basic plane has no literal. -/
theorem literals_read_back (s : String) (c : Char) (r : String) :
    (r.toList.head? ≠ some '"' →
      string? (stringLiteral s ++ r).toList =
        if s.toList.any isSeparator && !s.toList.any needsVerbatim then none else some (s.toList, r.toList)) ∧
    character? (charLiteral c ++ r).toList =
      if isSeparator c ∨ 0xffff < c.toNat then none else some (c, r.toList) :=
  ⟨string?_stringLiteral s, character?_charLiteral c r⟩

/-- Quotes at both ends, a backslash, an end of a line and a separator. -/
theorem literals_read_back_verbatim :
    ")".toList.head? ≠ some '"' ∧ stringLiteral "\"\\\u2028\n\"" = "@\"\"\"\\\u2028\n\"\"\"" ∧
      string? "@\"\"\"\\\u2028\n\"\"\")".toList = some ("\"\\\u2028\n\"".toList, [')']) :=
  have hr : ")".toList.head? ≠ some '"' := by decide
  ⟨hr, by decide, (literals_read_back "\"\\\u2028\n\"" '"' ")").1 hr⟩

/-- A separator between plain quotes is no literal. -/
theorem separator_between_quotes_refused :
    stringLiteral "\u2028" = "\"\u2028\"" ∧ string? (stringLiteral "\u2028" ++ ";").toList = none ∧
      charLiteral '\u2029' = "\x27\u2029\x27" ∧ character? (charLiteral '\u2029' ++ ";").toList = none := by
  decide

end Scribe.Reading
