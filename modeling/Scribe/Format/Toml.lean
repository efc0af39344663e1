import Scribe.Format.Toml.Value

/-!
# Settings in TOML

A document is a sequence of lines: headers of tables, keys with values, and empty ones. What counts for
settings are the values at the top; the rest is checked and dropped.
-/

namespace Scribe.Toml

/-- Reads the rest of a header, and opens its table. -/
def header (t : Table) (cs : List Char) : Option (Table × List Char) :=
  match cs with
  | '[' :: rest => do
    match ← key rest with
    | (path, ']' :: ']' :: rest) => return (← t.enterNext path, rest)
    | _ => none
  | _ => do
    match ← key cs with
    | (path, ']' :: rest) => return (← t.enter path, rest)
    | _ => none

/-- Reads a line, and the line break behind it. -/
def line (t : Table) (cs : List Char) : Option (Table × List Char) :=
  match endOfLine? cs with
  | some rest => some (t, rest)
  | none => do
    let (t, rest) ← match skipBlanks cs with
      | '[' :: rest => header t rest
      | rest => pair (value maxDepth) t rest
    return (t, ← endOfLine? rest)

/-- Reads line after line. -/
def lines : Nat → Table → List Char → Option Table
  | _, t, [] => some t
  | 0, _, _ => none
  | fuel + 1, t, cs => do
    let (t, rest) ← line t cs
    lines fuel t rest

/-- The text behind a byte order mark. -/
def skipMark : List Char → List Char
  | '\ufeff' :: rest => rest
  | cs => cs

/-- Reads the settings of a document. -/
def settings? (text : String) : Option (List (String × Setting)) :=
  (lines text.length {} (skipMark text.toList)).map Table.settings

end Scribe.Toml

namespace Scribe.Wrapper

/-- Reads a wrapper from TOML. -/
def ofToml? (text : String) : Option Wrapper := do
  ofSettings? (← Toml.settings? text)

end Scribe.Wrapper
