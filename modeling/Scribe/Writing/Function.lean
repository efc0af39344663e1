import Scribe.Writing.Block

/-!
# Lambdas

The outermost lambda becomes the entry method. A lambda inside an expression becomes a method of its
own when it uses nothing but its own variables; each such lambda is moved once, and every place that
uses it names the method. A lambda that captures variables stays where it is.
-/

namespace Scribe.Writing

/-- Writes the declaration of a parameter. -/
def parameter (v : Variable) : Writing Variable := do
  if v.ty.isByRef then put "ref "
  putType v.ty
  put " "
  putVariable v

/-- Writes a lambda as a method called `name`; `id` is the identity of what stands for it. -/
def method (id : Ident) (access name : String) (sig : Signature) (body : Piece) : Writing Tree := do
  putLine access
  if (← read).wrapper.isStatic then put "static "
  putType sig.result
  put (" " ++ name)
  let params ← bracketed "(" ")" (sig.params.map parameter)
  let t ← body.bracedBody (Tail.atType .result sig.result)
  return .mk (.lambda { id, name := some name, params, result := sig.result } t)

/-- Writes the outermost lambda. -/
def entryMethod (sig : Signature) (body : Piece) : Writing Tree := do
  let name := (← read).wrapper.entryName
  method (.entry sig.id) "public " name sig body

/-- Writes the parameters of a lambda in place; a single one goes without parentheses. -/
def parameterNames : List Variable → Writing (List Variable)
  | [v] => do
    let w ← putVariable v
    return [w]
  | vs => bracketed "(" ")" (vs.map putVariable)

/-- Writes a lambda in place, without its delegate type. -/
def arrow (sig : Signature) (body : Piece) : Writing Tree := do
  let params ← parameterNames sig.params
  put " => "
  let t ←
    if body.tree.isExpression then body.operand (.unary .quote)
    else do
      openBraceHere
      let t ← inFunction (body.body (Tail.atType .result sig.result))
      closeBrace
      pure t
  let turn ← modifyGet fun d => (d.turns, { d with turns := d.turns + 1 })
  return .mk (.lambda { sig with id := .inlined sig.id turn, params } t)

/-- Writes a lambda in place, as a delegate. -/
def delegateOf (sig : Signature) (body : Piece) : Writing Tree := do
  put "new "
  putType sig.delegate
  put "("
  let t ← arrow sig body
  put ")"
  return t

/-- Writes the method of a lambda on a page of its own, behind the methods that were begun before. -/
def promote (name : String) (sig : Signature) (body : Piece) : Writing Tree := do
  let desk ← read
  let d ← get
  let slot := d.methods.length
  let origin := desk.layout.methods.getD slot {}
  set { d with methods := d.methods ++ [""], page := .part desk.wrapper.memberLevel origin }
  let t ← inFunction do
    -- a blank line between members
    newline
    method (.promoted sig.id) "private " name sig body
  modify fun e =>
    { e with methods := e.methods.set slot e.page.text, page := d.page,
             promoted := (sig.id, t) :: e.promoted }
  return t

/-- Writes a lambda inside an expression. -/
def nestedLambda (sig : Signature) (body : Piece) : Writing Tree := do
  if sig.captures body.tree then delegateOf sig body
  else
    let name ← naming (·.nameLambda sig)
    put name
    match (← get).promoted.lookup sig.id with
    | some t => return t
    | none => promote name sig body

/-- The ways of writing a lambda inside an expression. -/
def lambda (sig : Signature) (body : Piece) : Rendition where
  write _ := nestedLambda sig body
  quoted := some (arrow sig body)

end Scribe.Writing
