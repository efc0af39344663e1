import Scribe.Wrapper.Basic

/-!
# Settings

A wrapper can be described by settings, whatever the format they are written in. Settings with unknown
keys are ignored. A known key may occur once and needs a value of its sort; a text may be left out
explicitly, a flag may not.
-/

namespace Scribe

/-- The value of a setting, as far as a wrapper can tell. -/
inductive Setting where
  /-- A text, or the explicit absence of one. -/
  | text (s : Option String)
  | flag (b : Bool)
  /-- Anything that no setting takes. -/
  | other
deriving DecidableEq, Repr

namespace Wrapper

/-- The keys of the settings, in the order of a list without keys. -/
def settingKeys : List String :=
  ["namespace", "type_name", "is_static", "is_internal", "method_name", "debug_document"]

/-- Applies one setting. -/
def applySetting (w : Wrapper) (key : String) (setting : Setting) : Option Wrapper :=
  match key, setting with
  | "namespace", .text s => some { w with ns := s }
  | "type_name", .text s => some { w with typeName := s }
  | "is_static", .flag b => some { w with isStatic := b }
  | "is_internal", .flag b => some { w with isInternal := b }
  | "method_name", .text s => some { w with methodName := s }
  | "debug_document", .text s => some { w with document := s }
  | key, _ => if settingKeys.contains key then none else some w

/-- Applies settings in turn; `seen` are the known keys that have been set. -/
def applySettings (w : Wrapper) (seen : List String) : List (String × Setting) → Option Wrapper
  | [] => some w
  | (key, setting) :: rest =>
    if seen.contains key then none
    else match w.applySetting key setting with
      | some w => w.applySettings (if settingKeys.contains key then key :: seen else seen) rest
      | none => none

/-- The wrapper that settings with keys describe. -/
def ofSettings? (settings : List (String × Setting)) : Option Wrapper :=
  applySettings {} [] settings

/-- The wrapper that settings without keys describe: the first ones are set, and the rest keep their
defaults. -/
def ofValues? (values : List Setting) : Option Wrapper :=
  if values.length ≤ settingKeys.length then ofSettings? (settingKeys.zip values) else none

end Wrapper

end Scribe
