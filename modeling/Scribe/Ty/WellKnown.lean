import Scribe.Ty.Basic

/-!
# Well-known types

The types of the core library that trees and scripts refer to by themselves, and the delegate types
that belong to a list of parameters and a result.
-/

namespace Scribe.Ty

/-- The largest number of parameters that a delegate type of the core library takes. -/
def maxDelegateParameters : Nat := 16

/-- An array; a rank of zero is raised to one. -/
def arrayOf (element : Ty) (rank : Nat) : Ty := .array element (max rank 1)

/-- A public type of the namespace `System` in the core library. -/
def system (name : String) : Ty :=
  .named { ns := some "System", name, assembly := some coreLibrary } [] none

/-- The type of all exceptions. -/
def exception : Ty := system "Exception"

/-- The type with the mathematical functions. -/
def math : Ty := system "Math"

/-- The type of a set of variables that is handed over as a value. -/
def runtimeVariables : Ty :=
  .named { ns := some "System.Runtime.CompilerServices", name := "IRuntimeVariables",
           category := .interface, assembly := some coreLibrary } [] none

/-- A delegate type of the core library. -/
def coreDelegate (name : String) (args : List Ty) : Ty :=
  .named { ns := some "System", name, category := .delegate, assembly := some coreLibrary } args none

/-- The delegate type with a result. -/
def func (params : List Ty) (result : Ty) : Ty :=
  let args := params ++ [result]
  coreDelegate ("Func\x60" ++ toString args.length) args

/-- The delegate type without a result. -/
def action (params : List Ty) : Ty :=
  if params.isEmpty then coreDelegate "Action" []
  else coreDelegate ("Action\x60" ++ toString params.length) params

/-- The delegate type of a signature. -/
def delegate (params : List Ty) (result : Ty) : Ty :=
  if result.isVoid then action params else func params result

/-- A named type inside another one; it takes over the namespace of the outer type. -/
def nestedIn (outer : Ty) (head : TypeHead) (args : List Ty) : Ty :=
  .named { head with ns := outer.ns? } args (some outer)

end Scribe.Ty
