import Scribe.Entity
import Scribe.Text.Alphanumeric

/-!
# Names

Which identifiers a script uses. A word that the language reserves is escaped. Entities without a name
get a numbered one, and every entity keeps the name that it got first.
-/

namespace Scribe

namespace Identifier

/-- The words that cannot stand as plain identifiers. -/
def reserved : List String :=
  ["abstract", "as", "base", "bool", "break", "by", "byte", "case", "catch", "char", "checked",
   "class", "const", "continue", "decimal", "default", "delegate", "descending", "do", "double",
   "else", "enum", "event", "explicit", "extern", "false", "finally", "fixed", "float", "for",
   "foreach", "from", "goto", "group", "if", "implicit", "in", "int", "interface", "internal",
   "into", "is", "lock", "long", "namespace", "new", "null", "object", "operator", "orderby", "out",
   "override", "params", "private", "protected", "public", "readonly", "ref", "return", "sbyte",
   "sealed", "select", "short", "sizeof", "stackalloc", "static", "string", "struct", "switch",
   "this", "throw", "true", "try", "typeof", "uint", "ulong", "unchecked", "unit", "unsafe",
   "ushort", "using", "var", "virtual", "void", "volatile", "where", "while", "yield"]

/-- Whether a name is a word of the language. -/
def isReserved (name : String) : Bool := reserved.contains name

/-- A reserved word behind an `@`, and any other name as it is. -/
def escape (name : String) : String := if isReserved name then "@" ++ name else name

/-- The start of a numbered identifier that recalls `hint`: the letters, digits and underscores in
front of the first backtick, behind an underscore where nothing or a digit would come first. -/
def stem (hint : String) : String :=
  let kept := (hint.toList.takeWhile (· != '\x60')).filter
    fun c => Text.isAlphanumeric c || c == '_'
  match kept with
  | [] => "_"
  | c :: _ => String.ofList (if c.isDigit then '_' :: kept else kept)

end Identifier

/-- The names that have been given out. Newer entries stand in front and hide older ones. -/
structure Naming where
  /-- The last number that was used behind each stem. -/
  counters : List (String × Nat) := []
  variableNames : List (Ident × String) := []
  labelNames : List (Ident × String) := []
  methodNames : List (Ident × String) := []

namespace Naming

/-- The next numbered name for a stem; numbers start at one. -/
def fresh (naming : Naming) (stem : String) : String × Naming :=
  let number := (naming.counters.lookup stem).getD 0 + 1
  (stem ++ toString number, { naming with counters := (stem, number) :: naming.counters })

/-- The name for an entity that has none yet: its own one, escaped, or a numbered one. -/
def choose (naming : Naming) (own : Option String) (stem : String) : String × Naming :=
  match own with
  | some name => (Identifier.escape name, naming)
  | none => naming.fresh stem

/-- The name of a variable. -/
def nameVariable (naming : Naming) (v : Variable) : String × Naming :=
  match naming.variableNames.lookup v.id with
  | some name => (name, naming)
  | none =>
    let (name, naming) := naming.choose v.name "p"
    (name, { naming with variableNames := (v.id, name) :: naming.variableNames })

/-- The name of a label. -/
def nameLabel (naming : Naming) (l : Label) : String × Naming :=
  match naming.labelNames.lookup l.id with
  | some name => (name, naming)
  | none =>
    let (name, naming) := naming.choose l.name "label"
    (name, { naming with labelNames := (l.id, name) :: naming.labelNames })

/-- The name of the method for a lambda. -/
def nameLambda (naming : Naming) (sig : Signature) : String × Naming :=
  match naming.methodNames.lookup sig.id with
  | some name => (name, naming)
  | none =>
    let (name, naming) := naming.choose sig.name "func"
    (name, { naming with methodNames := (sig.id, name) :: naming.methodNames })

end Naming

end Scribe
