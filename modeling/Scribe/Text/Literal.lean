/-!
# Literals of text

Characters and strings as the language writes them. A string that holds a backslash, a quote or a
control character is written verbatim, where only a quote is special and is written twice; any other
string is written between plain quotes.
-/

namespace Scribe.Text

/-- Whether a character is a control character: the two blocks of C0 and C1, and DEL. -/
def isControl (c : Char) : Bool :=
  c.toNat < 0x20 || (0x7f ≤ c.toNat && c.toNat < 0xa0)

/-- Whether a character keeps a string from being written between plain quotes. -/
def needsVerbatim (c : Char) : Bool := c == '\\' || c == '"' || isControl c

/-- Writes every quote twice. -/
def doubleQuotes : List Char → List Char
  | [] => []
  | c :: cs => if c = '"' then '"' :: '"' :: doubleQuotes cs else c :: doubleQuotes cs

/-- The literal of a string. -/
def stringLiteral (s : String) : String :=
  if s.toList.any needsVerbatim then
    "@\"" ++ String.ofList (doubleQuotes s.toList) ++ "\""
  else
    "\"" ++ s ++ "\""

/-- The upper-case hexadecimal digits of `n`, filled up with zeros to four. -/
def hex4 (n : Nat) : String :=
  let digits := (Nat.toDigits 16 n).map Char.toUpper
  String.ofList (List.replicate (4 - digits.length) '0' ++ digits)

/-- What stands between the quotes of a character literal. -/
def charBody (c : Char) : String :=
  if c = '\\' then "\\\\"
  else if c = '\x27' then "\\\x27"
  else if c = '\x00' then "\\0"
  else if c = '\n' then "\\n"
  else if c = '\r' then "\\r"
  else if c = '\t' then "\\t"
  else if isControl c then "\\u" ++ hex4 c.toNat
  else c.toString

/-- The literal of a character. -/
def charLiteral (c : Char) : String := "\x27" ++ charBody c ++ "\x27"

end Scribe.Text
