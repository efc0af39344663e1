import Scribe.Writing.Access
import Scribe.Writing.Function
import Scribe.Writing.Operation

/-!
# Running a step of writing

A step of writing is a function of the desk and the draft. The lemmas here open such a run one bind at a
time: a run that succeeds is a run of the first part, and a run of the rest from the draft that the first
part left.
-/

namespace Scribe

/-- The draft on the page of the next method. -/
def Draft.onMethodPage (d : Draft) (desk : Desk) : Draft :=
  { d with
    methods := d.methods ++ [""]
    page := .part desk.wrapper.memberLevel (desk.layout.methods.getD d.methods.length {}) }

/-- The draft `d` again when `e` is on the page of a method that was begun there: the text of the page is kept as
that of the method `t` for the lambda `id`. -/
def Draft.endMethod (d e : Draft) (id : Ident) (t : Tree) : Draft :=
  { e with
    methods := e.methods.set d.methods.length e.page.text
    page := d.page
    promoted := (id, t) :: e.promoted }

namespace Writing

variable {α β : Type} {desk : Desk} {d : Draft}

theorem bind_apply (x : Writing α) (f : α → Writing β) (desk : Desk) (d : Draft) :
    (x >>= f) desk d =
      match x desk d with
      | .ok (a, e) => f a desk e
      | .error err => .error err := by
  show (x desk d >>= fun p => f p.1 desk p.2) = _
  cases x desk d <;> rfl

/-- A bind succeeds exactly when both parts do, one after the other. -/
theorem bind_eq_ok {x : Writing α} {f : α → Writing β} {r : β × Draft} :
    (x >>= f) desk d = .ok r ↔ ∃ a e, x desk d = .ok (a, e) ∧ f a desk e = .ok r := by
  rw [bind_apply]
  constructor
  · intro h
    cases hx : x desk d with
    | error err => rw [hx] at h; cases h
    | ok p => rw [hx] at h; exact ⟨p.1, p.2, rfl, h⟩
  · rintro ⟨a, e, hx, hf⟩
    rw [hx]
    exact hf

/-- A bind fails when its first part does, or when the first part succeeds and the rest fails. -/
theorem bind_eq_error {x : Writing α} {f : α → Writing β} {err : ScriptError} :
    (x >>= f) desk d = .error err ↔
      x desk d = .error err ∨ ∃ a e, x desk d = .ok (a, e) ∧ f a desk e = .error err := by
  rw [bind_apply]
  cases x desk d with
  | error err' => simp
  | ok p =>
    constructor
    · exact fun h => .inr ⟨p.1, p.2, rfl, h⟩
    · rintro (h | ⟨a, e, h, hf⟩)
      · cases h
      · cases h
        exact hf

@[simp] theorem pure_apply (a : α) : (pure a : Writing α) desk d = .ok (a, d) := rfl

@[simp] theorem get_apply : (get : Writing Draft) desk d = .ok (d, d) := rfl

@[simp] theorem read_apply : (read : Writing Desk) desk d = .ok (desk, d) := rfl

@[simp] theorem set_apply (e : Draft) : (set e : Writing PUnit) desk d = .ok (⟨⟩, e) := rfl

@[simp] theorem modify_apply (f : Draft → Draft) : (modify f : Writing PUnit) desk d = .ok (⟨⟩, f d) :=
  rfl

@[simp] theorem modifyGet_apply (f : Draft → α × Draft) : (modifyGet f : Writing α) desk d = .ok (f d) := rfl

@[simp] theorem throw_apply (err : ScriptError) : (throw err : Writing α) desk d = .error err := rfl

@[simp] theorem page_apply : page desk d = .ok (d.page, d) := rfl

/-- Text is put on the line, and the run goes on from there. -/
theorem put_bind (s : String) (f : Unit → Writing α) :
    (put s >>= f) desk d = f () desk { d with page := d.page.write s } := by
  rfl

theorem putLine_bind (s : String) (f : Unit → Writing α) :
    (putLine s >>= f) desk d = f () desk { d with page := d.page.writeLine s } := by
  rfl

theorem putType_bind (ty : Ty) (f : Unit → Writing α) :
    (putType ty >>= f) desk d =
      f () desk { d with
        page := d.page.write ((Lexicon.spell ty).run d.lexicon).1
        lexicon := ((Lexicon.spell ty).run d.lexicon).2 } := by
  rfl

theorem read_bind (f : Desk → Writing α) : (read >>= f) desk d = f desk desk d := by
  rfl

section

variable {op : BinaryOp} {token : String} (h : (Kind.binary op).token? = some token) (left right : Piece) (ty : Ty)

include h

theorem binaryOperation_infixed :
    binaryOperation op left right ty = do
      let (a, b) ← infixed (.binary op) left right
      return .mk (.binary op a b ty) := by
  unfold binaryOperation
  cases op <;> first | rfl | cases h

/-- An operation with a token is written with the token between its operands. -/
theorem binaryOperation_of_token? :
    binaryOperation op left right ty = do
      let a ← left.operand (.binary op)
      put (" " ++ token ++ " ")
      let b ← right.operand (.binary op) true
      return .mk (.binary op a b ty) := by
  rw [binaryOperation_infixed h]
  unfold infixed tokenOf
  rw [h]
  simp only [pure_bind, bind_assoc]

end

theorem unaryOperation_some (op : UnaryOp) (p : Piece) (ty : Ty) :
    unaryOperation op (some p) ty = (do
      putOpening op ty
      let t ← if op = .quote then p.2.quoted.getD (affixed (.unary op) p) else affixed (.unary op) p
      if op = .typeAs then
        put " as "
        putType ty
      return .mk (.unary op (some t) ty)) := by
  cases hquoted : p.2.quoted <;> cases op <;> simp [unaryOperation, hquoted]

/-- Writes what is left of a call. -/
def finishCall (m : Method) (start : CallStart) : Writing Tree := do
  if m.isDefaultGetter then
    let as ← arguments "[" "]" start.args
    return .mk (.call start.receiver m (start.first ++ as))
  if start.unnamed then
    put "."
    put m.name
    putGenerics m.generics
  let as ← bracketed "(" ")" (modifiedArguments start.args start.params)
  return .mk (.call start.receiver m (start.first ++ as))

/-- Moving a lambda is writing its method on a page of its own, and keeping the text. -/
theorem promote_apply (name : String) (sig : Signature) (body : Piece) (desk : Desk) (d : Draft) :
    promote name sig body desk d =
      match inFunction (do newline; method (.promoted sig.id) "private " name sig body) desk
        (d.onMethodPage desk) with
      | .ok (t, e) => .ok (t, d.endMethod e sig.id t)
      | .error err => .error err := by
  unfold promote Draft.onMethodPage
  simp only [bind_apply, read_apply, get_apply, set_apply, modify_apply, pure_apply]
  generalize inFunction _ desk _ = result
  cases result <;> rfl

end Writing

end Scribe
