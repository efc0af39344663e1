import Scribe.Wrapper.Settings

/-!
# Settings in JSON

A reader for JSON, as far as settings need it: the syntax of numbers is checked, but their values are
not kept. The readers work on `List Char` and return what they have not read. `fuel` bounds the depth
and the length of nested values; the length of the text is always enough.
-/

namespace Scribe.Json

/-- A JSON value. -/
inductive Value where
  | null
  | bool (b : Bool)
  | number
  /-- A string; one with half of a surrogate pair has no text. -/
  | string (s : Option String)
  | array (items : List Value)
  /-- An object; its keys are strings like any other. -/
  | object (members : List (Option String × Value))

/-! ## Strings -/

/-- The value of a hexadecimal digit. -/
def hexDigit? (c : Char) : Option Nat :=
  if '0' ≤ c ∧ c ≤ '9' then some (c.toNat - '0'.toNat)
  else if 'a' ≤ c ∧ c ≤ 'f' then some (c.toNat - 'a'.toNat + 10)
  else if 'A' ≤ c ∧ c ≤ 'F' then some (c.toNat - 'A'.toNat + 10)
  else none

/-- The number that hexadecimal digits spell. -/
def hexValue? (acc : Nat) : List Char → Option Nat
  | [] => some acc
  | c :: cs =>
    match hexDigit? c with
    | some d => hexValue? (16 * acc + d) cs
    | none => none

/-- What a string is made of: characters, and UTF-16 units that were escaped. -/
inductive Piece where
  | char (c : Char)
  | unit (n : Nat)

/-- The character of an escape of one letter. -/
def shortEscape? : Char → Option Char
  | '"' => some '"'
  | '\\' => some '\\'
  | '/' => some '/'
  | 'b' => some '\x08'
  | 'f' => some '\x0c'
  | 'n' => some '\n'
  | 'r' => some '\r'
  | 't' => some '\t'
  | _ => none

/-- Reads the rest of a string, up to and with the closing quote. -/
def pieces : List Char → Option (List Piece × List Char)
  | [] => none
  | '"' :: rest => some ([], rest)
  | '\\' :: 'u' :: a :: b :: c :: d :: rest => do
    let n ← hexValue? 0 [a, b, c, d]
    let (ps, rest) ← pieces rest
    return (.unit n :: ps, rest)
  | '\\' :: e :: rest => do
    let c ← shortEscape? e
    let (ps, rest) ← pieces rest
    return (.char c :: ps, rest)
  | c :: rest => do
    guard (' ' ≤ c ∧ c ≠ '\\')
    let (ps, rest) ← pieces rest
    return (.char c :: ps, rest)

/-- Whether a unit is the first of a surrogate pair. -/
def isHigh (n : Nat) : Bool := 0xd800 ≤ n && n < 0xdc00

/-- Whether a unit is the second of a surrogate pair. -/
def isLow (n : Nat) : Bool := 0xdc00 ≤ n && n < 0xe000

/-- The characters of a string. A high unit and a low one that follows it make one character; either of them
alone makes none. -/
def characters? : List Piece → Option (List Char)
  | [] => some []
  | .char c :: ps => (characters? ps).map (c :: ·)
  | .unit n :: .unit m :: ps =>
    if isHigh n && isLow m then
      (characters? ps).map (Char.ofNat (0x10000 + (n - 0xd800) * 0x400 + (m - 0xdc00)) :: ·)
    else if isHigh n || isLow n then none
    else (characters? (.unit m :: ps)).map (Char.ofNat n :: ·)
  | .unit n :: ps =>
    if isHigh n || isLow n then none else (characters? ps).map (Char.ofNat n :: ·)

/-- The text of a string. -/
def text? (ps : List Piece) : Option String := (characters? ps).map String.ofList

/-! ## Numbers -/

/-- Reads at least one digit. -/
def digits? (cs : List Char) : Option (List Char) :=
  match cs with
  | c :: _ => if c.isDigit then some (cs.dropWhile Char.isDigit) else none
  | [] => none

/-- Reads a whole part: a zero, or digits that do not start with one. -/
def whole? : List Char → Option (List Char)
  | '0' :: rest =>
    match rest with
    | c :: _ => if c.isDigit then none else some rest
    | [] => some rest
  | cs => digits? cs

/-- Reads a fraction, if there is one. -/
def fraction? : List Char → Option (List Char)
  | '.' :: rest => digits? rest
  | cs => some cs

/-- Reads an exponent, if there is one. -/
def exponent? : List Char → Option (List Char)
  | c :: rest =>
    if c = 'e' ∨ c = 'E' then
      match rest with
      | '+' :: rest | '-' :: rest => digits? rest
      | _ => digits? rest
    else some (c :: rest)
  | [] => some []

/-- Reads a number. -/
def number? (cs : List Char) : Option (List Char) := do
  let unsigned := match cs with
    | '-' :: rest => rest
    | _ => cs
  let rest ← whole? unsigned
  let rest ← fraction? rest
  exponent? rest

/-! ## Values -/

/-- Whether a character may stand between tokens. -/
def isBlank (c : Char) : Bool := c == ' ' || c == '\n' || c == '\t' || c == '\r'

/-- The rest of the text after its blanks. -/
def skipBlanks (cs : List Char) : List Char := cs.dropWhile isBlank

mutual

/-- Reads a value; blanks in front of it have been skipped. -/
def value : Nat → List Char → Option (Value × List Char)
  | 0, _ => none
  | fuel + 1, cs =>
    match cs with
    | 'n' :: 'u' :: 'l' :: 'l' :: rest => some (.null, rest)
    | 't' :: 'r' :: 'u' :: 'e' :: rest => some (.bool true, rest)
    | 'f' :: 'a' :: 'l' :: 's' :: 'e' :: rest => some (.bool false, rest)
    | '"' :: rest => do
      let (ps, rest) ← pieces rest
      return (.string (text? ps), rest)
    | '[' :: rest =>
      match skipBlanks rest with
      | ']' :: rest => some (.array [], rest)
      | rest => do
        let (items, rest) ← items fuel rest
        return (.array items, rest)
    | '\x7b' :: rest =>
      match skipBlanks rest with
      | '\x7d' :: rest => some (.object [], rest)
      | rest => do
        let (members, rest) ← members fuel rest
        return (.object members, rest)
    | _ => (number? cs).map fun rest => (.number, rest)

/-- Reads the items of an array, up to and with the closing bracket. -/
def items : Nat → List Char → Option (List Value × List Char)
  | 0, _ => none
  | fuel + 1, cs => do
    let (v, rest) ← value fuel cs
    match skipBlanks rest with
    | ']' :: rest => return ([v], rest)
    | ',' :: rest =>
      let (vs, rest) ← items fuel (skipBlanks rest)
      return (v :: vs, rest)
    | _ => none

/-- Reads the members of an object, up to and with the closing brace. -/
def members : Nat → List Char → Option (List (Option String × Value) × List Char)
  | 0, _ => none
  | fuel + 1, cs =>
    match cs with
    | '"' :: rest => do
      let (key, rest) ← pieces rest
      match skipBlanks rest with
      | ':' :: rest =>
        let (v, rest) ← value fuel (skipBlanks rest)
        match skipBlanks rest with
        | '\x7d' :: rest => return ([(text? key, v)], rest)
        | ',' :: rest =>
          let (ms, rest) ← members fuel (skipBlanks rest)
          return ((text? key, v) :: ms, rest)
        | _ => none
      | _ => none
    | _ => none

end

/-- Reads a text that holds one value and nothing else. -/
def parse? (text : String) : Option Value := do
  let cs := skipBlanks text.toList
  let (v, rest) ← value (cs.length + 1) cs
  guard (skipBlanks rest).isEmpty
  return v

/-- What a value means as a setting. -/
def Value.setting : Value → Setting
  | .null => .text none
  | .bool b => .flag b
  | .string (some s) => .text (some s)
  | _ => .other

end Scribe.Json

namespace Scribe.Wrapper

/-- Reads a wrapper from JSON: from an object, or from an array of the settings in their order. Every key
of the object needs a text; inside the values of unknown keys nothing does. -/
def ofJson? (text : String) : Option Wrapper := do
  match ← Json.parse? text with
  | .object members => ofSettings? (← members.mapM fun (key, v) => key.map (·, v.setting))
  | .array items => ofValues? (items.map (·.setting))
  | _ => none

end Scribe.Wrapper
