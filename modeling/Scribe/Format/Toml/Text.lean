import Scribe.Format.Json

/-!
# Text in TOML

Characters, line ends, strings and keys. A string is written on one line or on several, and with
escapes or without. The readers work on `List Char` and return what they have not read.
-/

namespace Scribe.Toml

/-! ## Characters and lines -/

/-- Whether a character may stand between the tokens of a line. -/
def isBlank (c : Char) : Bool := c == ' ' || c == '\t'

/-- The rest of the text after its blanks. -/
def skipBlanks (cs : List Char) : List Char := cs.dropWhile isBlank

/-- Whether a character may stand in a string or in a comment: no control character but the tab. -/
def isText (c : Char) : Bool := c == '\t' || (0x20 ≤ c.toNat && c.toNat ≠ 0x7f)

/-- Reads a line break. -/
def newline? : List Char → Option (List Char)
  | '\n' :: rest => some rest
  | '\r' :: '\n' :: rest => some rest
  | _ => none

/-- Reads a line break or the end of the text. -/
def lineEnd? : List Char → Option (List Char)
  | [] => some []
  | cs => newline? cs

/-- Reads the blanks and the comment at the end of a line, and the line break. -/
def endOfLine? (cs : List Char) : Option (List Char) :=
  match skipBlanks cs with
  | '#' :: rest => lineEnd? (rest.dropWhile isText)
  | rest => lineEnd? rest

/-- Skips blanks, comments and line breaks. -/
def skipLines : Nat → List Char → List Char
  | 0, cs => cs
  | fuel + 1, cs =>
    match skipBlanks cs with
    | '#' :: rest => skipLines fuel (rest.dropWhile isText)
    | rest =>
      match newline? rest with
      | some rest => skipLines fuel rest
      | none => rest

/-! ## Strings on one line -/

/-- The character of an escape of one letter. -/
def shortEscape? : Char → Option Char
  | 'b' => some '\x08'
  | 't' => some '\t'
  | 'n' => some '\n'
  | 'f' => some '\x0c'
  | 'r' => some '\r'
  | '"' => some '"'
  | '\\' => some '\\'
  | _ => none

/-- The character with a number in hexadecimal digits. -/
def codePoint? (digits : List Char) : Option Char := do
  let n ← Json.hexValue? 0 digits
  guard (n < 0xd800 ∨ (0xe000 ≤ n ∧ n < 0x110000))
  return Char.ofNat n

/-- Reads the rest of a string with escapes, up to and with the closing quote. -/
def basic : List Char → Option (List Char × List Char)
  | [] => none
  | '"' :: rest => some ([], rest)
  | '\\' :: 'u' :: a :: b :: c :: d :: rest => do
    let char ← codePoint? [a, b, c, d]
    let (s, rest) ← basic rest
    return (char :: s, rest)
  | '\\' :: 'U' :: a :: b :: c :: d :: e :: f :: g :: h :: rest => do
    let char ← codePoint? [a, b, c, d, e, f, g, h]
    let (s, rest) ← basic rest
    return (char :: s, rest)
  | '\\' :: e :: rest => do
    let char ← shortEscape? e
    let (s, rest) ← basic rest
    return (char :: s, rest)
  | c :: rest => do
    guard (isText c && c != '\\')
    let (s, rest) ← basic rest
    return (c :: s, rest)

/-- Reads the rest of a string without escapes, up to and with the closing quote. -/
def literal (cs : List Char) : Option (List Char × List Char) :=
  let isInside := fun c => isText c && c != '\x27'
  match cs.dropWhile isInside with
  | '\x27' :: rest => some (cs.takeWhile isInside, rest)
  | _ => none

/-! ## Strings on several lines

Three quotes close such a string. One or two quotes in front of them still belong to it, as does any
shorter run of quotes. Every line break in it counts as a line feed.
-/

/-- Reads what follows three quotes: the quotes that the string ends with, and the rest. Of a run of
quotes the last three close the string. -/
def closing (quote : Char) (cs : List Char) : List Char × List Char :=
  let more := (cs.take 2).takeWhile (· == quote)
  (more, cs.drop more.length)

/-- Whether nothing but blanks stands in front of the next line break. -/
def endsLine (cs : List Char) : Bool := (newline? (skipBlanks cs)).isSome

/-- Reads the rest of a string with escapes. A backslash at the end of a line takes away the line break
and everything blank behind it; `trims` says that this is going on. -/
def basicLines : Bool → List Char → Option (List Char × List Char)
  | _, [] => none
  | _, '"' :: '"' :: '"' :: rest => some (closing '"' rest)
  | _, '\\' :: 'u' :: a :: b :: c :: d :: rest => do
    let char ← codePoint? [a, b, c, d]
    let (s, rest) ← basicLines false rest
    return (char :: s, rest)
  | _, '\\' :: 'U' :: a :: b :: c :: d :: e :: f :: g :: h :: rest => do
    let char ← codePoint? [a, b, c, d, e, f, g, h]
    let (s, rest) ← basicLines false rest
    return (char :: s, rest)
  | _, '\\' :: e :: rest =>
    if endsLine (e :: rest) then basicLines true (e :: rest)
    else do
      let char ← shortEscape? e
      let (s, rest) ← basicLines false rest
      return (char :: s, rest)
  | trims, '\r' :: '\n' :: rest => do
    let (s, rest) ← basicLines trims rest
    return (if trims then s else '\n' :: s, rest)
  | trims, c :: rest => do
    guard (isText c && c != '\\' || c == '\n')
    let isDropped := trims && (isBlank c || c == '\n')
    let (s, rest) ← basicLines isDropped rest
    return (if isDropped then s else c :: s, rest)

/-- Reads the rest of a string without escapes. -/
def literalLines : List Char → Option (List Char × List Char)
  | [] => none
  | '\x27' :: '\x27' :: '\x27' :: rest => some (closing '\x27' rest)
  | '\r' :: '\n' :: rest => do
    let (s, rest) ← literalLines rest
    return ('\n' :: s, rest)
  | c :: rest => do
    guard (isText c || c == '\n')
    let (s, rest) ← literalLines rest
    return (c :: s, rest)

/-- Reads a string. A line break right behind three opening quotes is no part of it. -/
def string? : List Char → Option (List Char × List Char)
  | '"' :: '"' :: '"' :: rest => basicLines false ((newline? rest).getD rest)
  | '"' :: rest => basic rest
  | '\x27' :: '\x27' :: '\x27' :: rest => literalLines ((newline? rest).getD rest)
  | '\x27' :: rest => literal rest
  | _ => none

/-! ## Keys -/

/-- How many parts a key may have, and how deep values may be nested in each other. -/
def maxDepth : Nat := 79

/-- Whether a character may stand in a key without quotes. -/
def isBare (c : Char) : Bool := c.isAlphanum || c == '_' || c == '-'

/-- Reads one part of a key. -/
def keyPart (cs : List Char) : Option (String × List Char) :=
  match cs with
  | '"' :: rest => (basic rest).map fun (s, rest) => (String.ofList s, rest)
  | '\x27' :: rest => (literal rest).map fun (s, rest) => (String.ofList s, rest)
  | _ =>
    let bare := cs.takeWhile isBare
    if bare.isEmpty then none else some (String.ofList bare, cs.dropWhile isBare)

/-- Reads the parts of a key, with dots between them; there are at most `limit`. -/
def keyParts : Nat → List Char → Option (List String × List Char)
  | 0, _ => none
  | limit + 1, cs => do
    let (part, rest) ← keyPart (skipBlanks cs)
    match skipBlanks rest with
    | '.' :: rest =>
      let (parts, rest) ← keyParts limit rest
      return (part :: parts, rest)
    | rest => return ([part], rest)

/-- Reads a key, and the blanks around it. -/
def key (cs : List Char) : Option (List String × List Char) := keyParts maxDepth cs

end Scribe.Toml
