import Scribe.Format.Toml.DateTime
import Scribe.Format.Toml.Table
import Scribe.Format.Toml.Text

/-!
# Values in TOML

Strings, truth values, numbers, dates and times, arrays, and tables on one line. Arrays and tables hold
values, so their readers take the reader for these; `value` ties the knot, and counts how deep it still
may go.
-/

namespace Scribe.Toml

/-- Reads a value. -/
abbrev ValueReader := List Char → Option (Setting × List Char)

/-- Reads a value that is a single word. -/
def word? (cs : List Char) : Option (Setting × List Char) :=
  let isInside := fun c => isBare c || c == '+' || c == '.'
  let word := cs.takeWhile isInside
  let rest := cs.dropWhile isInside
  if word = ['t', 'r', 'u', 'e'] then some (.flag true, rest)
  else if word = ['f', 'a', 'l', 's', 'e'] then some (.flag false, rest)
  else if isInteger word || isFloat word then some (.other, rest)
  else none

/-- Reads a value without parts. -/
def scalar? (cs : List Char) : Option (Setting × List Char) :=
  match string? cs with
  | some (s, rest) => some (.text (some (String.ofList s)), rest)
  | none =>
    match dateTime? cs with
    | some rest => some (.other, rest)
    | none => word? cs

/-- Reads the items of an array, up to and with the closing bracket. A comma may follow the last one,
and lines may end anywhere between the items. -/
def items (value : ValueReader) : Nat → List Char → Option (List Char)
  | 0, _ => none
  | fuel + 1, cs =>
    match skipLines cs.length cs with
    | ']' :: rest => some rest
    | cs => do
      let (_, rest) ← value cs
      match skipLines rest.length rest with
      | ']' :: rest => some rest
      | ',' :: rest => items value fuel rest
      | _ => none

/-- Reads a key and its value, and defines it. -/
def pair (value : ValueReader) (t : Table) (cs : List Char) : Option (Table × List Char) := do
  let (path, rest) ← key cs
  match rest with
  | '=' :: rest =>
    let (setting, rest) ← value (skipBlanks rest)
    return (← t.define path setting, rest)
  | _ => none

/-- Reads the pairs of a table on one line, up to and with the closing brace. -/
def pairs (value : ValueReader) : Nat → Table → List Char → Option (List Char)
  | 0, _, _ => none
  | fuel + 1, t, cs => do
    let (t, rest) ← pair value t cs
    match skipBlanks rest with
    | '\x7d' :: rest => some rest
    | ',' :: rest => pairs value fuel t rest
    | _ => none

/-- Reads a value in which others are nested at most `depth` deep. -/
def value (depth : Nat) (cs : List Char) : Option (Setting × List Char) :=
  match cs, depth with
  | '[' :: _, 0 | '\x7b' :: _, 0 => none
  | '[' :: rest, depth + 1 =>
    (items (value depth) (rest.length + 1) rest).map fun rest => (.other, rest)
  | '\x7b' :: rest, depth + 1 =>
    match skipBlanks rest with
    | '\x7d' :: rest => some (.other, rest)
    | rest => (pairs (value depth) (rest.length + 1) {} rest).map fun rest => (.other, rest)
  | _, _ => scalar? cs

end Scribe.Toml
