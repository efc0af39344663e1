import Scribe.Proofs.Tree.Position
import Scribe.Proofs.Writing.Step.Tree

/-!
# The signs of actions

An action can be recognized in what is written for it: a call by the name of the method, the call of a delegate by the
parenthesis in front of its arguments, an assignment by its token. Whatever else is written for the action and for its
children, the sign is there (`Tree.write_shows`).
-/

namespace Scribe

open Writing
open Draft (LeadsTo Stable)

/-- The part is somewhere in the text. -/
def Text.Occurs (part text : String) : Prop := ∃ before behind, text = before ++ part ++ behind

/-- What the call of a method is recognized by. -/
def Method.sign (m : Method) (hasReceiver : Bool) : String :=
  if m.isDefaultGetter then "[" else if hasReceiver || m.isNameable then "." ++ m.name else ".Invoke"

/-- What an action is recognized by. -/
def Node.sign {α : Type} : Node α → String
  | .call receiver m _ => m.sign receiver.isSome
  | .invoke _ _ _ => "("
  | .binary .powerAssign _ _ _ => " = "
  | .binary op _ _ _ => " " ++ (Kind.binary op).token?.getD "" ++ " "
  | .unary .preIncrementAssign _ _ | .unary .postIncrementAssign _ _ => "++"
  | .unary .preDecrementAssign _ _ | .unary .postDecrementAssign _ _ => "--"
  | _ => ""

theorem Node.sign_map {α β : Type} (f : α → β) (n : Node α) : (n.map f).sign = n.sign := by
  cases n
  case binary op l r ty => cases op <;> rfl
  case unary op operand ty => cases op <;> rfl
  case call receiver m args => simp only [Node.map, sign, Option.isSome_map]
  all_goals rfl

/-! ## Texts that show a part -/

/-- Behind the page of `d`, the part was written. -/
def Draft.Shows (d : Draft) (part : String) (e : Draft) : Prop :=
  ∃ s, Text.Occurs part s ∧ e.page.text = d.page.text ++ s

theorem Draft.stable_shows (desk : Desk) (d : Draft) (part : String) : Stable desk (d.Shows part) := by
  rintro e f ⟨s, ⟨before, behind, hs⟩, he⟩ h
  obtain ⟨t, ht⟩ := h.text
  refine ⟨s ++ t, ⟨before, behind ++ t, ?_⟩, ?_⟩
  · rw [hs, String.append_assoc]
  · rw [ht, he, String.append_assoc]

namespace Writing

variable {α β : Type} {desk : Desk} {d : Draft} {P Q S : Draft → Prop} {part : String} {p : Piece} {args : List Piece}

theorem Takes.bind_gives {x : Writing α} {f : α → Writing β} {R : α → Prop} (hR : Gives desk x R)
    (hx : Takes desk P x Q) (hf : ∀ a, R a → Takes desk Q (f a) S) : Takes desk P (x >>= f) S := by
  intro d b e hd h
  obtain ⟨a, d', h₁, h₂⟩ := bind_eq_ok.mp h
  exact hf a (hR d a d' h₁) d' b e (hx d a d' hd h₁) h₂

/-- The part is written on the way behind `d`. -/
abbrev Shows (desk : Desk) (d : Draft) (x : Writing α) (part : String) : Prop :=
  Takes desk (LeadsTo desk d) x (d.Shows part)

theorem Stepwise.before {x : Writing α} {f : α → Writing β} (hx : Stepwise desk x) (hf : ∀ a, Shows desk d (f a) part) :
    Shows desk d (x >>= f) part :=
  .bind (hx.takes (Draft.stable_leadsTo desk d)) hf

theorem Takes.behind {x : Writing α} {f : α → Writing β} (hx : Takes desk P x (d.Shows part))
    (hf : ∀ a, Stepwise desk (f a)) : Takes desk P (x >>= f) (d.Shows part) :=
  .bind hx fun a => (hf a).takes (Draft.stable_shows desk d part)

theorem put_shows (s : String) : Shows desk d (put s) s := by
  intro e a f he h
  cases h
  obtain ⟨t, ht⟩ := he.text
  by_cases hs : s = ""
  · subst hs
    exact ⟨t, ⟨t, "", by simp⟩, ht⟩
  · refine ⟨t ++ String.ofList (List.replicate e.page.owed ' ') ++ s, ⟨_, "", String.append_empty.symm⟩, ?_⟩
    change (e.page.write s).text = _
    rw [Text.Page.write_text hs, Text.Page.settle_text, ht]
    simp only [String.append_assoc]

theorem put_put (s t : String) : (do put s; put t) = put (s ++ t) := by
  funext desk d
  exact congrArg (fun page => Except.ok ((), { d with page })) (d.page.write_write s t)

theorem values_inline {ps : List Piece} (h : ∀ p ∈ ps, p.Steps desk) : ∀ x ∈ ps.map Piece.value, Inline desk x := by
  intro x hx
  obtain ⟨p, hp, rfl⟩ := List.mem_map.mp hx
  exact Piece.value_inline (h p hp)

theorem bracketed_shows (left right : String) {items : List (Writing α)} (h : ∀ x ∈ items, Inline desk x) :
    Shows desk d (bracketed left right items) left :=
  (put_shows left).behind fun _ => .bind (separated_inline h).stepwise fun _ =>
    .map (put_inline right).stepwise

/-! ## Assignments -/

theorem tokenOf_inline (kind : Kind) : Inline desk (tokenOf kind) := by
  unfold tokenOf
  split
  · exact .pure _
  · exact .throw _

theorem infixed_shows (kind : Kind) {l r : Piece} (hl : l.Steps desk) (hr : r.Steps desk) :
    Shows desk d (infixed kind l r) (" " ++ kind.token?.getD "" ++ " ") := by
  have hgives : Gives desk (tokenOf kind) (· = kind.token?.getD "") := by
    unfold tokenOf
    cases kind.token? with
    | none => exact fun _ _ _ => nofun
    | some token => exact .pure rfl
  refine .bind_gives hgives ((tokenOf_inline kind).stepwise.takes (Draft.stable_leadsTo desk d)) ?_
  rintro _ rfl
  exact (Piece.operand_inline hl _ _).stepwise.before fun _ => (put_shows _).behind fun _ =>
    .map (Piece.operand_inline hr _ _).stepwise

theorem binaryOperation_shows {op : BinaryOp} (hop : op.isAssignment = true) {l r : Piece} (hl : l.Steps desk)
    (hr : r.Steps desk) (ty : Ty) : Shows desk d (binaryOperation op l r ty) (Node.binary op l r ty).sign := by
  by_cases hpower : op = .powerAssign
  · subst hpower
    exact (Piece.operand_inline hl _ _).stepwise.before fun _ => (put_shows " = ").behind fun _ =>
      .map ((Inline.lined desk).powerCall hl.alone hr.alone).stepwise
  · have hinfixed : Takes desk (LeadsTo desk d)
        (infixed (.binary op) l r >>= fun lr => pure (Tree.mk (.binary op lr.1 lr.2 ty)))
        (d.Shows (" " ++ (Kind.binary op).token?.getD "" ++ " ")) :=
      (infixed_shows (.binary op) hl hr).behind fun _ => .pure _
    cases op
    case powerAssign => exact absurd rfl hpower
    all_goals cases hop <;> exact hinfixed

theorem affixed_shows_before (kind : Kind) (h : p.Steps desk) :
    Shows desk d (affixed kind p) (kind.tokenBefore p.tree.ty.isIntegral) :=
  (put_shows _).behind fun _ => .bind (Piece.operand_inline h _ _).stepwise fun _ =>
    .map (put_inline _).stepwise

theorem affixed_shows_after (kind : Kind) (h : p.Steps desk) : Shows desk d (affixed kind p) kind.tokenAfter :=
  (put_inline _).stepwise.before fun _ => (Piece.operand_inline h _ _).stepwise.before fun _ =>
    (put_shows _).behind fun _ => .pure _

theorem unaryOperation_shows {op : UnaryOp} (hop : op.isAssignment = true) {operand : Option Piece}
    (h : ∀ p ∈ operand, p.Steps desk) (ty : Ty) :
    Shows desk d (unaryOperation op operand ty) (Node.unary op operand ty).sign := by
  cases operand with
  | none => cases op <;> cases hop <;> exact fun _ _ _ _ => nofun
  | some p =>
    have hbefore := affixed_shows_before (d := d) (.unary op) (h p rfl)
    have hafter := affixed_shows_after (d := d) (.unary op) (h p rfl)
    have hopening : Stepwise desk (putOpening op ty) :=
      Inline.stepwise ((Inline.lined desk).putOpening op (Allowance.admits_all ty))
    cases op
    case preIncrementAssign => exact hopening.before fun _ => hbefore.behind fun _ => .pure _
    case preDecrementAssign => exact hopening.before fun _ => hbefore.behind fun _ => .pure _
    case postIncrementAssign => exact hopening.before fun _ => hafter.behind fun _ => .pure _
    case postDecrementAssign => exact hopening.before fun _ => hafter.behind fun _ => .pure _
    all_goals cases hop

/-! ## Calls -/

theorem arguments_shows (left right : String) (h : ∀ p ∈ args, p.Steps desk) :
    Shows desk d (arguments left right args) left :=
  bracketed_shows left right (values_inline h)

theorem invocation_shows {target : Piece} (ht : target.Steps desk) (h : ∀ p ∈ args, p.Steps desk) (ty : Ty) :
    Shows desk d (invocation target args ty) "(" := by
  unfold invocation
  extract_lets isMade rest
  have hrest : ∀ t, Shows desk d (rest t) "(" := fun t =>
    (arguments_shows _ _ h).behind fun _ => .pure _
  split
  · exact (Piece.inParens_inline ht).stepwise.before hrest
  · exact (Piece.operand_inline ht _ _).stepwise.before hrest

theorem methodField_inline (m : Method) : Inline desk (methodField m) :=
  (Inline.lined desk).methodField (fun _ _ => trivial) fun ty _ => Allowance.admits_all ty

theorem callStart_inline {receiver : Option Piece} (hr : ∀ p ∈ receiver, p.Steps desk) (m : Method) {args : List Piece}
    (h : ∀ p ∈ args, p.Steps desk) : Inline desk (callStart receiver m args) := by
  unfold callStart
  split
  · next p => exact .map (Piece.operand_inline (hr p rfl) _ _)
  · refine .ite ?_ ?_
    · exact .bind (methodField_inline m) fun _ => .bind (put_inline _) fun _ => .map (put_inline _)
    · split
      · next first rest _ =>
        exact .bind (spell_inline _) fun _ => .map (Piece.operand_inline (h first (by simp)) _ _)
      · exact .map (putType_inline _)

/-- What is still to be written of a call are arguments of it. A method is named behind the receiver, or behind its
type. -/
theorem callStart_gives (receiver : Option Piece) (m : Method) (args : List Piece) :
    Gives desk (callStart receiver m args) fun start =>
      start.args ⊆ args ∧ start.unnamed = (receiver.isSome || m.isNameable) := by
  unfold callStart
  split
  · exact .bind fun _ => .pure ⟨List.Subset.refl _, rfl⟩
  · split
    · next hname =>
      exact .bind fun _ => .bind fun _ => .bind fun _ => .pure ⟨List.Subset.refl _, by simpa using hname⟩
    · next hname =>
      have hunnamed : true = (Option.isSome (none : Option Piece) || m.isNameable) := by simpa using hname
      split
      · exact .bind fun _ => .bind fun _ => .pure ⟨List.subset_cons_self _ _, hunnamed⟩
      · exact .bind fun _ => .pure ⟨List.Subset.refl _, hunnamed⟩

theorem callStart_shows {m : Method} (hname : m.isNameable = false) :
    Shows desk d (callStart none m args) ".Invoke" := by
  unfold callStart
  rw [hname]
  exact (methodField_inline m).stepwise.before fun _ => (put_inline _).stepwise.before fun _ =>
    (put_shows _).behind fun _ => .pure _

theorem modifiedArguments_inline (params : List MethodParam) (h : ∀ p ∈ args, p.Steps desk) :
    ∀ x ∈ modifiedArguments args params, Inline desk x := by
  have hpieces : (args.map Piece.alone).map Variants.left = args := List.map_map.trans args.map_id
  have hitems := (Inline.lined desk).modifiedArguments params (List.forall_mem_map.mpr fun p hp => (h p hp).alone)
  rw [hpieces] at hitems
  exact hitems.forall

theorem call_shows {receiver : Option Piece} (hr : ∀ p ∈ receiver, p.Steps desk) (m : Method)
    (h : ∀ p ∈ args, p.Steps desk) : Shows desk d (call receiver m args) (m.sign receiver.isSome) := by
  have hgives : Gives desk _ _ := callStart_gives receiver m args
  have hstart := (callStart_inline hr m h).stepwise.takes (Draft.stable_leadsTo desk d)
  have hargs : ∀ start : CallStart, start.args ⊆ args → ∀ p ∈ start.args, p.Steps desk :=
    fun start hs p hp => h p (hs hp)
  have hend : ∀ start : CallStart, start.args ⊆ args → Stepwise desk (do
      let as ← bracketed "(" ")" (modifiedArguments start.args start.params)
      pure (Tree.mk (.call start.receiver m (start.first ++ as)))) := fun start hs =>
    .map (bracketed_inline _ _ (modifiedArguments_inline _ (hargs start hs))).stepwise
  have hgenerics : Stepwise desk (putGenerics m.generics) :=
    Inline.stepwise ((Inline.lined desk).putGenerics fun ty _ => Allowance.admits_all ty)
  unfold call Method.sign
  cases hgetter : m.isDefaultGetter with
  | true =>
    refine .bind_gives hgives hstart fun start hs => ?_
    exact (arguments_shows _ _ (hargs start hs.1)).behind fun _ => .pure _
  | false =>
    cases hname : receiver.isSome || m.isNameable with
    | true =>
      refine .bind_gives hgives hstart fun start hs => ?_
      rw [hs.2, hname]
      change Takes desk _ (put "." >>= fun _ => put m.name >>= fun _ => putGenerics m.generics >>= fun _ => _) _
      rw [← bind_assoc, put_put]
      exact (put_shows _).behind fun _ => .bind hgenerics fun _ => hend start hs.1
    | false =>
      cases receiver with
      | some p => cases hname
      | none =>
        refine .bind_gives hgives (callStart_shows hname) fun start hs => ?_
        rw [hs.2, hname]
        exact (hend start hs.1).takes (Draft.stable_shows desk d _)

end Writing

/-- **An action shows its sign.** -/
theorem Tree.write_shows {desk : Desk} {d : Draft} {n : Node Tree} (h : n.isAction = true) (tail : Tail) :
    Writing.Shows desk d ((Tree.mk n).rendition.write tail) n.sign := by
  have hpiece : (Tree.mk n).rendition = (n.map piece).rendition := congrArg Prod.snd (piece_mk n)
  have hpieces : ∀ p ∈ (n.map piece).children, p.Steps desk := by
    intro p hp
    rw [Node.children_map] at hp
    obtain ⟨t, -, rfl⟩ := List.mem_map.mp hp
    exact t.steps
  rw [hpiece, ← n.sign_map piece]
  cases n <;>
    simp only [Node.map, Node.children, List.forall_mem_cons, List.forall_mem_append, Option.mem_toList] at hpieces
  case binary op l r ty => exact binaryOperation_shows h hpieces.1 hpieces.2.1 ty
  case unary op operand ty => exact unaryOperation_shows h hpieces ty
  case call receiver m args => exact call_shows hpieces.1 m hpieces.2
  case invoke target args ty => exact invocation_shows hpieces.1 hpieces.2 ty
  all_goals cases h

end Scribe
