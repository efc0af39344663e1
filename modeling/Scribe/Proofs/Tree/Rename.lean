import Scribe.Field
import Scribe.Proofs.Tree.Map
import Scribe.Proofs.Tree.Respanned
import Scribe.Proofs.Tree.Scope
import Scribe.Writing.Jump

/-!
# Renaming the identities of a tree

`Tree.rename` exchanges the identities of the variables, labels, lambdas, methods, host objects and sets of
variables in a tree, and keeps everything else. A renaming changes the keys that were given to entities from
outside; identities that are built from others follow.

What is asked of a tree while it is written does not depend on identities, or only on which of them are equal.
For an injective renaming that is the same in the renamed tree.
-/

namespace Scribe

variable {α β : Type}

/-! ## Identities -/

/-- The identity with another key. -/
def Ident.rekey (f : String → String) : Ident → Ident
  | .given key => .given (f key)
  | .renamed source => .renamed (source.rekey f)
  | .promoted source => .promoted (source.rekey f)
  | .inlined source turn => .inlined (source.rekey f) turn
  | .entry source => .entry (source.rekey f)

theorem Ident.rekey_injective {f : String → String} (h : Function.Injective f) : Function.Injective (rekey f) := by
  intro i
  induction i with
  | given key =>
    intro j hij
    cases j <;> simp only [rekey, given.injEq, reduceCtorEq] at hij ⊢
    exact h hij
  | renamed source ih =>
    intro j hij
    cases j <;> simp only [rekey, renamed.injEq, reduceCtorEq] at hij ⊢
    exact ih hij
  | promoted source ih =>
    intro j hij
    cases j <;> simp only [rekey, promoted.injEq, reduceCtorEq] at hij ⊢
    exact ih hij
  | inlined source turn ih =>
    intro j hij
    cases j <;> simp only [rekey, inlined.injEq, reduceCtorEq] at hij ⊢
    exact ⟨ih hij.1, hij.2⟩
  | entry source ih =>
    intro j hij
    cases j <;> simp only [rekey, entry.injEq, reduceCtorEq] at hij ⊢
    exact ih hij

theorem Ident.rekey_id (i : Ident) : i.rekey id = i := by
  induction i <;> simp_all [rekey]

/-- The sorts of entities that are known by their identity. -/
inductive Entity where
  | var | label | lambda | method | object | varSet
deriving DecidableEq, Repr

/-- What becomes of the key of an entity. -/
structure Renaming where
  key : Entity → String → String

namespace Renaming

/-- What becomes of the identity of an entity. -/
def ident (ρ : Renaming) (sort : Entity) (i : Ident) : Ident := i.rekey (ρ.key sort)

/-- Entities of one sort that were different stay different. -/
def Injective (ρ : Renaming) : Prop := ∀ sort, Function.Injective (ρ.key sort)

/-- The renaming that changes nothing. -/
def none : Renaming := ⟨fun _ => id⟩

variable {ρ : Renaming}

theorem injective_none : none.Injective := fun _ _ _ h => h

theorem ident_injective (h : ρ.Injective) (sort : Entity) : Function.Injective (ρ.ident sort) :=
  Ident.rekey_injective (h sort)

@[simp] theorem ident_none (sort : Entity) (i : Ident) : none.ident sort i = i := i.rekey_id

/-! ## Lists of identities -/

variable {sort : Entity}

theorem beq_ident (h : ρ.Injective) (i j : Ident) : (ρ.ident sort i == ρ.ident sort j) = (i == j) := by
  rw [Bool.eq_iff_iff, beq_iff_eq, beq_iff_eq, (ident_injective h sort).eq_iff]

theorem contains_ident (h : ρ.Injective) (is : List Ident) (i : Ident) :
    (is.map (ρ.ident sort)).contains (ρ.ident sort i) = is.contains i := by
  rw [List.contains_map]
  simp only [beq_ident h, List.contains_eq_any_beq]

theorem lookup_ident (h : ρ.Injective) (sort : Entity) (f : α → β) (es : List (Ident × α)) (i : Ident) :
    (es.map (Prod.map (ρ.ident sort) f)).lookup (ρ.ident sort i) = (es.lookup i).map f := by
  induction es with
  | nil => rfl
  | cons e es ih =>
    obtain ⟨j, a⟩ := e
    simp only [List.map_cons, Prod.map, List.lookup_cons, beq_ident h, ih]
    cases i == j <;> rfl

theorem filter_ident (h : ρ.Injective) (is : List Ident) (i : Ident) :
    (is.map (ρ.ident sort)).filter (· != ρ.ident sort i) = (is.filter (· != i)).map (ρ.ident sort) := by
  simp only [List.filter_map, Function.comp_def, bne, beq_ident h]

end Renaming

/-! ## Entities -/

/-- The variable with another identity. -/
def Variable.rename (ρ : Renaming) (v : Variable) : Variable := { v with id := ρ.ident .var v.id }

/-- The label with another identity. -/
def Label.rename (ρ : Renaming) (l : Label) : Label := { l with id := ρ.ident .label l.id }

/-- The set with other identities of itself and its members. -/
def VariableSet.rename (ρ : Renaming) (set : VariableSet) : VariableSet :=
  ⟨ρ.ident .varSet set.id, set.members.map (·.rename ρ)⟩

/-- The signature with other identities of the lambda and its parameters. -/
def Signature.rename (ρ : Renaming) (sig : Signature) : Signature :=
  { sig with id := ρ.ident .lambda sig.id, params := sig.params.map (·.rename ρ) }

/-- The method with another identity. -/
def Method.rename (ρ : Renaming) (m : Method) : Method := { m with id := ρ.ident .method m.id }

/-- The host object with another identity. -/
def HostObject.rename (ρ : Renaming) (o : HostObject) : HostObject := { o with id := ρ.ident .object o.id }

/-- The value with another identity, if it has one. -/
def Value.rename (ρ : Renaming) : Value → Value
  | .object o => .object (o.rename ρ)
  | v => v

/-- The value of a field with other identities. -/
def Hoisted.rename (ρ : Renaming) : Hoisted → Hoisted
  | .object o => .object (o.rename ρ)
  | .method m => .method (m.rename ρ)
  | .varSet set => .varSet (set.rename ρ)

/-- The field with other identities in its value. -/
def Field.rename (ρ : Renaming) (f : Field) : Field := { f with value := f.value.rename ρ }

/-- The handler with another identity of its variable. -/
def Handler.relabel (ρ : Renaming) (h : Handler α) : Handler α :=
  { h with caught := h.caught.map (·.rename ρ) }

/-- The layer with other identities of its own entities. -/
def Node.relabel (ρ : Renaming) : Node α → Node α
  | .constant value ty => .constant (value.rename ρ) ty
  | .var v => .var (v.rename ρ)
  | .lambda sig body => .lambda (sig.rename ρ) body
  | .call receiver m args => .call receiver (m.rename ρ) args
  | .block vars body ty => .block (vars.map (·.rename ρ)) body ty
  | .loop body exit again => .loop body (exit.map (·.rename ρ)) (again.map (·.rename ρ))
  | .jump kind target value ty => .jump kind (target.rename ρ) value ty
  | .label target value => .label (target.rename ρ) value
  | .tryCatch body handlers final fault ty =>
    .tryCatch body (handlers.map (·.relabel ρ)) final fault ty
  | .varSet set => .varSet (set.rename ρ)
  | n => n

/-- The tree with other identities. -/
def Tree.rename (ρ : Renaming) (t : Tree) : Tree := t.fold fun n => .mk ((n.map Prod.snd).relabel ρ)

variable {ρ : Renaming}

theorem Hoisted.key_rename (h : ρ.Injective) (u v : Hoisted) :
    ((u.rename ρ).key == (v.rename ρ).key) = (u.key == v.key) := by
  have hident (sort : Entity) (i j : Ident) : ρ.ident sort i = ρ.ident sort j ↔ i = j :=
    (Renaming.ident_injective h sort).eq_iff
  rw [Bool.eq_iff_iff, beq_iff_eq, beq_iff_eq]
  cases u <;> cases v <;>
    simp [Hoisted.rename, Hoisted.key, HostObject.rename, Method.rename, VariableSet.rename, hident]

theorem Value.isNegative_rename (v : Value) : (v.rename ρ).isNegative = v.isNegative := by
  cases v <;> rfl

/-! ## Layers -/

namespace Node

variable (n : Node α)

theorem map_relabel (f : α → β) : (n.relabel ρ).map f = (n.map f).relabel ρ := by
  cases n <;> simp [Node.map, relabel, Handler.map, Handler.relabel, Function.comp_def]

theorem children_relabel : (n.relabel ρ).children = n.children := by
  cases n <;> simp [relabel, children, Handler.relabel, List.flatMap_map]

theorem relabel_none : n.relabel .none = n := by
  have hvariable (v : Variable) : v.rename .none = v := by simp [Variable.rename]
  have hlabel (l : Label) : l.rename .none = l := by simp [Label.rename]
  cases n
  case constant value ty => cases value <;> simp [relabel, Value.rename, HostObject.rename]
  all_goals
    simp [relabel, hvariable, hlabel, Signature.rename, Method.rename, VariableSet.rename, Handler.relabel]

@[simp] theorem ty_relabel : (n.relabel ρ).ty = n.ty := by
  cases n <;> simp [relabel, Node.ty, Variable.rename, Signature.rename, Signature.delegate, Method.rename,
    Label.rename, Function.comp_def]

@[simp] theorem precedence_relabel : (n.relabel ρ).precedence = n.precedence := by
  cases n
  case constant value ty => simp only [relabel, precedence, value.isNegative_rename]
  all_goals rfl

@[simp] theorem isThrow_relabel : (n.relabel ρ).isThrow = n.isThrow := by
  cases n <;> rfl

@[simp] theorem isJump_relabel : (n.relabel ρ).isJump = n.isJump := by
  cases n <;> rfl

@[simp] theorem isEffect_relabel : (n.relabel ρ).isEffect = n.isEffect := by
  cases n <;> rfl

@[simp] theorem labelTarget?_relabel : (n.relabel ρ).labelTarget? = n.labelTarget?.map (·.rename ρ) := by
  cases n <;> rfl

theorem precedence_map (f : α → β) : (n.map f).precedence = n.precedence := by
  cases n
  case newArray form ty items => cases form <;> rfl
  case typeTest test operand ty => cases test <;> rfl
  all_goals rfl

theorem isThrow_map (f : α → β) : (n.map f).isThrow = n.isThrow := by
  cases n
  case unary op operand ty => cases op <;> rfl
  all_goals rfl

theorem isJump_map (f : α → β) : (n.map f).isJump = n.isJump := by
  cases n <;> rfl

theorem isEffect_map (f : α → β) : (n.map f).isEffect = n.isEffect := by
  cases n <;> rfl

theorem labelTarget?_map (f : α → β) : (n.map f).labelTarget? = n.labelTarget? := by
  cases n <;> rfl

end Node

/-! ## Trees -/

namespace Tree

theorem rename_mk (n : Node Tree) : (Tree.mk n).rename ρ = .mk ((n.map (rename ρ)).relabel ρ) := by
  rw [rename, fold_mk, Node.map_map]
  rfl

theorem node_rename (t : Tree) : (t.rename ρ).node = (t.node.map (rename ρ)).relabel ρ := by
  obtain ⟨n⟩ := t
  rw [rename_mk]
  rfl

theorem rename_none (t : Tree) : t.rename .none = t := by
  induction t using Tree.induction with
  | step n ih => rw [rename_mk, Node.relabel_none, Node.map_congr (g := id) ih, Node.map_id]

@[simp] theorem ty_rename (t : Tree) : (t.rename ρ).ty = t.ty := by
  rw [ty, node_rename, Node.ty_relabel, Node.ty_map, ty]

@[simp] theorem precedence_rename (t : Tree) : (t.rename ρ).precedence = t.precedence := by
  rw [precedence, node_rename, Node.precedence_relabel, Node.precedence_map, precedence]

@[simp] theorem isExpression_rename (t : Tree) : (t.rename ρ).isExpression = t.isExpression := by
  induction t using Tree.induction with
  | step n ih =>
    rw [rename_mk]
    cases n
    case conditional test ifTrue ifFalse ty =>
      simp only [Node.map, Node.relabel, isExpression_conditional]
      rw [ih ifTrue (by simp [Node.children]), ih ifFalse (by simp [Node.children])]
    all_goals simp only [isExpression, fold_mk, Node.map, Node.relabel]

@[simp] theorem isEmpty_rename (t : Tree) : (t.rename ρ).isEmpty = t.isEmpty := by
  obtain ⟨n⟩ := t
  rw [rename_mk]
  cases n <;> rfl

@[simp] theorem isOmitted_rename (t : Tree) (isDiscarded : Bool) :
    (t.rename ρ).isOmitted isDiscarded = t.isOmitted isDiscarded := by
  obtain ⟨n⟩ := t
  rw [rename_mk]
  cases n <;> rfl

/-! ## Variables -/

end Tree

/-- The free variables of a renamed layer are those of the layer, renamed. -/
theorem Node.free_relabel (h : ρ.Injective) (f : α → List Variable) (n : Node α) :
    (n.relabel ρ).free (fun c => (f c).map (·.rename ρ)) = (n.free f).map (·.rename ρ) := by
  have houtside : ∀ vs ws : List Variable,
      Variable.outside (vs.map (·.rename ρ)) (ws.map (·.rename ρ)) =
        (Variable.outside vs ws).map (·.rename ρ) := by
    intro vs ws
    have hids : (vs.map (·.rename ρ)).map (·.id) = (vs.map (·.id)).map (ρ.ident .var) := by
      simp [Variable.rename, Function.comp_def]
    rw [Variable.outside, Variable.outside, hids, List.filter_map]
    refine congrArg _ (List.filter_congr fun w _ => ?_)
    exact congrArg _ (Renaming.contains_ident h _ w.id)
  cases n
  case lambda sig body => exact houtside _ _
  case block vars body ty =>
    rw [Node.relabel, Node.free, Node.free, ← houtside, List.map_flatMap]
  case tryCatch body handlers final fault ty =>
    have hhandler : ∀ k : Handler α,
        Variable.outside (k.relabel ρ).caught.toList
            ((k.filter.toList ++ [k.body]).flatMap fun c => (f c).map (·.rename ρ)) =
          (Variable.outside k.caught.toList ((k.filter.toList ++ [k.body]).flatMap f)).map (·.rename ρ) := by
      intro k
      rw [← houtside, List.map_flatMap, Handler.relabel, Option.toList_map]
    simp only [Node.relabel, Node.free, List.map_append, List.map_flatMap, List.flatMap_map, ← hhandler]
    rfl
  case var => rfl
  case varSet => rfl
  all_goals exact (List.map_flatMap ..).symm

/-- The free variables of a layer depend on those of the children only. -/
theorem Node.free_congr {f g : α → List Variable} {n : Node α} (h : ∀ c ∈ n.children, f c = g c) :
    n.free f = n.free g := by
  have hid : ∀ f : α → List Variable, n.free f = (n.map f).free id := fun f => (n.free_map f id).symm
  rw [hid f, hid g, Node.map_congr h]

namespace Tree

theorem free_rename (h : ρ.Injective) (t : Tree) : (t.rename ρ).free = t.free.map (·.rename ρ) := by
  induction t using Tree.induction with
  | step n ih =>
    rw [rename_mk, free_mk, free_mk, ← Node.map_relabel, Node.free_map, ← Node.free_relabel h]
    refine Node.free_congr fun c hc => ih c ?_
    rwa [Node.children_relabel] at hc

theorem mentions_rename (h : ρ.Injective) (t : Tree) (v : Ident) :
    (t.rename ρ).mentions (ρ.ident .var v) = t.mentions v := by
  induction t using Tree.induction with
  | step n ih =>
    have hchildren : ((n.map (rename ρ)).relabel ρ).children.any (·.mentions (ρ.ident .var v)) =
        n.children.any (·.mentions v) := by
      rw [Node.children_relabel, Node.children_map, List.any_map, Bool.eq_iff_iff, List.any_eq_true,
        List.any_eq_true]
      exact exists_congr fun c => and_congr_right fun hc => by rw [Function.comp_apply, ih c hc]
    rw [rename_mk, mentions_mk, mentions_mk]
    cases n
    case var w => exact Renaming.beq_ident h w.id v
    case varSet set =>
      simp only [Node.map, Node.relabel, VariableSet.rename, List.any_map]
      congr 1
      funext w
      exact Renaming.beq_ident h w.id v
    all_goals exact hchildren

theorem assignsFirst_rename (h : ρ.Injective) (t : Tree) (v : Ident) :
    (t.rename ρ).assignsFirst (ρ.ident .var v) = t.assignsFirst v := by
  obtain ⟨n⟩ := t
  rw [rename_mk]
  cases n
  case binary op left right ty =>
    by_cases hop : op = .assign
    · subst hop
      obtain ⟨m⟩ := left
      simp only [assignsFirst, node, Node.map, Node.relabel, rename_mk, mentions_rename h]
      cases m
      case var w => exact congrArg (· && _) (Renaming.beq_ident h w.id v)
      all_goals rfl
    · simp [assignsFirst, node, Node.map, Node.relabel, hop]
  all_goals rfl

theorem declaredInPlace_rename (h : ρ.Injective) (v : Ident) (handsOn : Bool) (ts : List Tree) :
    declaredInPlace (ρ.ident .var v) handsOn (ts.map (rename ρ)) = declaredInPlace v handsOn ts := by
  induction ts with
  | nil => rfl
  | cons t ts ih =>
    simp only [List.map_cons, declaredInPlace, mentions_rename h, assignsFirst_rename h, ih,
      List.isEmpty_map]

/-! ## Labels -/

theorem labels_mk (n : Node Tree) :
    (Tree.mk n).labels =
      (match n with
      | .label target _ => [target.id]
      | .loop _ exit again => (exit.toList ++ again.toList).map (·.id)
      | _ => []) ++ n.children.flatMap labels := by
  rw [labels, fold_mk]
  cases n
  all_goals
    show _ ++ (Node.children (Node.map _ _)).flatMap _ = _
    rw [Node.children_map, List.flatMap_map]
    rfl

theorem labels_rename (t : Tree) : (t.rename ρ).labels = t.labels.map (ρ.ident .label) := by
  induction t using Tree.induction with
  | step n ih =>
    have hchildren : ((n.map (rename ρ)).relabel ρ).children.flatMap labels =
        (n.children.flatMap labels).map (ρ.ident .label) := by
      rw [Node.children_relabel, Node.children_map, List.flatMap_map, List.map_flatMap, List.flatMap_def,
        List.flatMap_def, List.map_congr_left ih]
    rw [rename_mk, labels_mk, labels_mk, hchildren, List.map_append]
    congr 1
    cases n
    case label target value => rfl
    case loop body exit again => cases exit <;> cases again <;> rfl
    all_goals rfl

theorem leavesLoop_rename (h : ρ.Injective) (t : Tree) (exit : Option Label) :
    (t.rename ρ).leavesLoop (exit.map (·.rename ρ)) = t.leavesLoop exit := by
  obtain ⟨n⟩ := t
  rw [rename_mk]
  cases n
  case jump kind target value ty =>
    cases value with
    | some value => rfl
    | none =>
      cases exit with
      | none => rfl
      | some label =>
        simp only [leavesLoop, node, Node.map, Node.relabel, Option.map_some, Option.map_none, Label.rename,
          Option.some_beq_some]
        exact Renaming.beq_ident h label.id target.id
  all_goals rfl

end Tree

theorem Signature.captures_rename (h : ρ.Injective) (sig : Signature) (body : Tree) :
    (sig.rename ρ).captures (body.rename ρ) = sig.captures body := by
  have hids : (sig.params.map (·.rename ρ)).map (·.id) = (sig.params.map (·.id)).map (ρ.ident .var) := by
    simp [Variable.rename, Function.comp_def]
  rw [captures_eq, captures_eq, Signature.rename, hids, Tree.free_rename h, List.any_map]
  congr 1
  funext v
  exact congrArg _ (Renaming.contains_ident h _ v.id)

end Scribe
