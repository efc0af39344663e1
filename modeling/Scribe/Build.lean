import Scribe.Script.Basic

/-!
# Building programs from scripts

From a lambda to something that runs: its script is compiled by a backend, and the fields of the script
are filled in. When anything of that fails, the lambda can still be run without a script.

A backend works in a monad of its own, so that what it does on the way (and in which order it is asked
to) can be observed.
-/

namespace Scribe

/-- A lambda with its body. -/
structure Lambda where
  sig : Signature
  body : Tree

/-- The lambda as a tree. -/
def Lambda.tree (l : Lambda) : Tree := .mk (.lambda l.sig l.body)

/-- What a backend is asked to compile. -/
structure BuildRequest where
  script : String
  /-- The document name of the script. -/
  fileName : String
  /-- The assemblies to compile against, in increasing order. -/
  references : List String
  /-- The class, with its namespace. -/
  typeName : String
  methodName : String
  isStatic : Bool
deriving DecidableEq, Repr

/-- What goes wrong in a backend. -/
inductive BackendError where
  | compilation (text : String)
  | missingType (name : String)
  | missingMethod (name : String)
  /-- A field cannot be filled in. -/
  | field (name reason : String)
deriving DecidableEq, Repr

/-- The text of a backend's error. -/
def BackendError.message : BackendError → String
  | .compilation text => "compilation failed: " ++ text
  | .missingType name => "type " ++ name ++ " not found in the compiled artifact"
  | .missingMethod name => "method " ++ name ++ " not found in the compiled artifact"
  | .field name reason => "cannot bind field " ++ name ++ ": " ++ reason

/-- Why a lambda was not built. -/
inductive BuildError where
  | script (e : ScriptError)
  | backend (e : BackendError)
deriving DecidableEq, Repr

/-- The text of a build's error. -/
def BuildError.message : BuildError → String
  | .script e => e.message
  | .backend e => e.message

/-- A compiler for scripts. Its artifacts are of type `α`. -/
structure Backend (m : Type → Type) (α : Type) where
  compile : BuildRequest → m (Except BackendError α)
  /-- Fills in a field of an artifact. -/
  fill : α → String → Hoisted → m (Except BackendError α)

/-- What a lambda is built with. -/
structure BuildOptions where
  wrapper : Option Wrapper := none
  /-- Assemblies to compile against besides those of the script. -/
  references : List String := []

namespace BuildOptions

/-- The class name where the wrapper has none. -/
def defaultTypeName : String := "Program"

/-- The wrapper that is used: a static class where there is none, and always a class. -/
def effectiveWrapper (o : BuildOptions) : Wrapper :=
  let w := o.wrapper.getD { isStatic := true }
  { w with typeName := some (w.typeName.getD defaultTypeName) }

end BuildOptions

namespace BuildRequest

/-- The assemblies that every script is compiled against. -/
def runtimeReferences : List String := [Ty.coreLibrary, "System.Runtime", "System.Collections"]

/-- The assemblies that binding at run time needs. -/
def dynamicReferences (usesDynamic : Bool) : List String :=
  if usesDynamic then ["Microsoft.CSharp"] else []

/-- The request for a script in its wrapper. -/
def ofScript (s : Script) (w : Wrapper) (references : List String) : BuildRequest :=
  let typeName := w.qualifiedName?.getD BuildOptions.defaultTypeName
  { script := s.text
    fileName := w.document.getD (typeName ++ ".cs")
    references := Text.sortedSet
      (s.assemblies ++ references ++ runtimeReferences ++ dynamicReferences s.usesDynamic)
    typeName
    methodName := w.entryName
    isStatic := w.isStatic }

end BuildRequest

section

variable {m : Type → Type} [Monad m] {α : Type}

/-- Fills in fields one after the other. -/
def Backend.fillAll (b : Backend m α) (artifact : α) : List Field → m (Except BackendError α)
  | [] => return .ok artifact
  | f :: fs => do
    match ← b.fill artifact f.name f.value with
    | .ok artifact => b.fillAll artifact fs
    | .error e => return .error e

/-- Writes the script of a lambda, compiles it and fills in its fields. -/
def Lambda.build (l : Lambda) (o : BuildOptions) (b : Backend m α) : m (Except BuildError α) := do
  let w := o.effectiveWrapper
  match l.tree.toScript w with
  | .error e => return .error (.script e)
  | .ok script =>
    match ← b.compile (.ofScript script w o.references) with
    | .error e => return .error (.backend e)
    | .ok artifact =>
      match ← b.fillAll artifact script.fields with
      | .error e => return .error (.backend e)
      | .ok artifact => return .ok artifact

/-- Builds a lambda, and falls back on `direct` when that fails. A type without a full name is no such
failure: the lambda is malformed, and nothing is run. -/
def Lambda.buildOr (l : Lambda) (o : BuildOptions) (b : Backend m α) (direct : Lambda → α) :
    m (Except ScriptError α) := do
  match ← l.build o b with
  | .ok artifact => return .ok artifact
  | .error (.script .noFullName) => return .error .noFullName
  | .error _ => return .ok (direct l)

end

end Scribe
