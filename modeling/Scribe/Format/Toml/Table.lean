import Scribe.Wrapper.Settings

/-!
# Tables in TOML

What a document defines, as a list of paths. No path is defined twice: `Entry` tells in which way a path
came to be a table, because that decides what may still be added to it.
-/

namespace Scribe.Toml

/-- What a path stands for. -/
inductive Entry where
  | value (setting : Setting)
  /-- A table with a header. -/
  | table
  /-- A table that has only been on the way to another one. -/
  | implied
  /-- A table that a dotted key opened. -/
  | dotted
  /-- A list of tables. What is defined below its path belongs to the last of them. -/
  | tables

/-- The entries of a table, with their paths. -/
abbrev Entries := List (List String × Entry)

/-- What has been read. -/
structure Table where
  /-- The paths that are defined, each once. -/
  entries : Entries := []
  /-- The header that the following keys belong to. -/
  current : List String := []

/-- The proper, non-empty starts of a path, the shortest first. -/
def starts : List String → List (List String)
  | [] | [_] => []
  | p :: ps => [p] :: (starts ps).map (p :: ·)

/-! ## Headers -/

/-- Opens the tables on the way of a header. -/
def openWay (entries : Entries) : List (List String) → Option Entries
  | [] => some entries
  | path :: paths =>
    match entries.lookup path with
    | none => openWay ((path, .implied) :: entries) paths
    | some (.value _) => none
    | some _ => openWay entries paths

/-- Opens the table of a header. What is below its path stays there. -/
def Table.enter (t : Table) (path : List String) : Option Table := do
  let entries ← openWay t.entries (starts path)
  match entries.lookup path with
  | none | some .implied =>
    let others := entries.filter (·.1 != path)
    return { entries := (path, .table) :: others, current := path }
  | some _ => none

/-- Opens one more table of a list. Nothing is below its path yet. -/
def Table.enterNext (t : Table) (path : List String) : Option Table := do
  let entries ← openWay t.entries (starts path)
  match entries.lookup path with
  | none | some .tables =>
    let others := entries.filter fun (other, _) => !path.isPrefixOf other
    return { entries := (path, .tables) :: others, current := path }
  | some _ => none

/-! ## Keys -/

/-- Whether a dotted key may go through an entry; `isLast` says that only its last part is still to
come. -/
def Entry.admits (isLast : Bool) : Entry → Bool
  | .dotted => true
  | .implied | .tables => !isLast
  | .value _ | .table => false

/-- Opens the tables on the way of a dotted key. -/
def openDotted (entries : Entries) : List (List String) → Option Entries
  | [] => some entries
  | path :: paths =>
    match entries.lookup path with
    | none => openDotted ((path, .dotted) :: entries) paths
    | some entry => if entry.admits paths.isEmpty then openDotted entries paths else none

/-- Defines a key of the current table. -/
def Table.define (t : Table) (path : List String) (setting : Setting) : Option Table := do
  let entries ← openDotted t.entries ((starts path).map (t.current ++ ·))
  guard (entries.lookup (t.current ++ path)).isNone
  return { t with entries := (t.current ++ path, .value setting) :: entries }

/-- The settings of a document: what stands at its top. No setting takes a table. -/
def Table.settings (t : Table) : List (String × Setting) :=
  t.entries.filterMap fun
    | ([name], .value setting) => some (name, setting)
    | ([name], _) => some (name, .other)
    | _ => none

end Scribe.Toml
