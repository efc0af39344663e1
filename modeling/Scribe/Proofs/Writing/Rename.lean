import Scribe.Draft
import Scribe.Proofs.Tree.Rename

/-!
# Renaming the identities of a draft

Names, fields, jumps and moved lambdas are looked up by identity. Under an injective renaming every question finds
the same answer, and what is asked for the first time is added in the same place.
-/

namespace Scribe

variable {ρ : Renaming}

/-- The construct with other identities of its labels. -/
def JumpScope.rename (ρ : Renaming) : JumpScope → JumpScope
  | .loop exit again exitByGoto againByGoto =>
    .loop (exit.map (·.rename ρ)) (again.map (·.rename ρ)) exitByGoto againByGoto
  | .switch => .switch

/-- The body with other identities of the labels in it. -/
def FaultScope.rename (ρ : Renaming) (scope : FaultScope) : FaultScope :=
  { scope with labels := scope.labels.map (ρ.ident .label) }

/-- The flow with other identities of labels. -/
def Flow.rename (ρ : Renaming) (flow : Flow) : Flow where
  scopes := flow.scopes.map (·.rename ρ)
  faults := flow.faults.map (·.rename ρ)
  takers := flow.takers.map (Prod.map (ρ.ident .label) id)

/-- The names, given to other identities. -/
def Naming.rename (ρ : Renaming) (naming : Naming) : Naming where
  counters := naming.counters
  variableNames := naming.variableNames.map (Prod.map (ρ.ident .var) id)
  labelNames := naming.labelNames.map (Prod.map (ρ.ident .label) id)
  methodNames := naming.methodNames.map (Prod.map (ρ.ident .lambda) id)

/-- The draft with other identities. -/
def Draft.rename (ρ : Renaming) (d : Draft) : Draft :=
  { d with
    promoted := d.promoted.map (Prod.map (ρ.ident .lambda) (Tree.rename ρ))
    naming := d.naming.rename ρ
    fields := d.fields.map (·.rename ρ)
    undeclared := d.undeclared.map (ρ.ident .var)
    flow := d.flow.rename ρ }

theorem JumpScope.rename_loop (exit again : Option Label) (exitByGoto againByGoto : Bool) :
    (JumpScope.loop exit again exitByGoto againByGoto).rename ρ =
      .loop (exit.map (·.rename ρ)) (again.map (·.rename ρ)) exitByGoto againByGoto := rfl

theorem JumpScope.rename_switch : JumpScope.switch.rename ρ = .switch := rfl

namespace Flow

theorem resolve_rename (h : ρ.Injective) (target : Ident) (innermost : Bool) (scopes : List JumpScope) :
    resolve (ρ.ident .label target) innermost (scopes.map (·.rename ρ)) =
      ((resolve target innermost scopes).1, (resolve target innermost scopes).2.map (·.rename ρ)) := by
  have hlabel : ∀ l : Option Label,
      ((l.map (·.rename ρ)).map (·.id) == some (ρ.ident .label target)) = (l.map (·.id) == some target) := by
    intro l
    cases l with
    | none => rfl
    | some l =>
      simp only [Option.map_some, Label.rename, Option.some_beq_some]
      exact Renaming.beq_ident h l.id target
  induction scopes generalizing innermost with
  | nil => rfl
  | cons scope scopes ih =>
    cases scope with
    | switch => simp only [List.map_cons, JumpScope.rename_switch, resolve, ih]
    | loop exit again exitByGoto againByGoto =>
      simp only [List.map_cons, JumpScope.rename_loop, resolve, ih, hlabel]
      split
      · split <;> rfl
      · split
        · split <;> rfl
        · rfl

theorem flagsLeft_rename (h : ρ.Injective) (flow : Flow) (target : Option Ident) :
    (flow.rename ρ).flagsLeft (target.map (ρ.ident .label)) = flow.flagsLeft target := by
  have hflag : ∀ scope : FaultScope, (scope.rename ρ).flag = scope.flag := fun _ => rfl
  cases target with
  | none => simp only [flagsLeft, Flow.rename, Option.map_none, List.takeWhile_map, List.map_map,
      Function.comp_def, hflag]
  | some label =>
    have hlabels : ∀ scope : FaultScope,
        (scope.rename ρ).labels.contains (ρ.ident .label label) = scope.labels.contains label :=
      fun scope => Renaming.contains_ident h scope.labels label
    simp only [flagsLeft, Flow.rename, Option.map_some, List.takeWhile_map, List.map_map, Function.comp_def,
      hflag, hlabels]

end Flow

namespace Naming

variable (naming : Naming)

theorem fresh_rename (stem : String) :
    (naming.rename ρ).fresh stem = ((naming.fresh stem).1, (naming.fresh stem).2.rename ρ) := rfl

theorem nameVariable_rename (h : ρ.Injective) (v : Variable) :
    (naming.rename ρ).nameVariable (v.rename ρ) =
      ((naming.nameVariable v).1, (naming.nameVariable v).2.rename ρ) := by
  have hlookup := Renaming.lookup_ident h .var id naming.variableNames v.id
  simp only [nameVariable, Naming.rename, Variable.rename, hlookup]
  cases naming.variableNames.lookup v.id with
  | some name => rfl
  | none => cases v.name <;> rfl

theorem nameLabel_rename (h : ρ.Injective) (l : Label) :
    (naming.rename ρ).nameLabel (l.rename ρ) = ((naming.nameLabel l).1, (naming.nameLabel l).2.rename ρ) := by
  have hlookup := Renaming.lookup_ident h .label id naming.labelNames l.id
  simp only [nameLabel, Naming.rename, Label.rename, hlookup]
  cases naming.labelNames.lookup l.id with
  | some name => rfl
  | none => cases l.name <;> rfl

theorem nameLambda_rename (h : ρ.Injective) (sig : Signature) :
    (naming.rename ρ).nameLambda (sig.rename ρ) =
      ((naming.nameLambda sig).1, (naming.nameLambda sig).2.rename ρ) := by
  have hlookup := Renaming.lookup_ident h .lambda id naming.methodNames sig.id
  simp only [nameLambda, Naming.rename, Signature.rename, hlookup]
  cases naming.methodNames.lookup sig.id with
  | some name => rfl
  | none => cases sig.name <;> rfl

end Naming

theorem Field.request_rename (h : ρ.Injective) (fields : List Field) (naming : Naming) (value : Hoisted)
    (ty : Ty) (hint : String) :
    request (fields.map (·.rename ρ)) (naming.rename ρ) (value.rename ρ) ty hint =
      ((request fields naming value ty hint).1, (request fields naming value ty hint).2.1.map (·.rename ρ),
        (request fields naming value ty hint).2.2.rename ρ) := by
  have hfind : (fields.map (·.rename ρ)).find? (·.value.key == (value.rename ρ).key) =
      (fields.find? (·.value.key == value.key)).map (·.rename ρ) := by
    rw [List.find?_map]
    congr 2
    funext f
    exact Hoisted.key_rename h f.value value
  unfold request
  rw [hfind]
  cases fields.find? (·.value.key == value.key) with
  | some f => rfl
  | none =>
    simp only [Option.map_none, Naming.fresh_rename, List.map_append]
    rfl

/-! ## Keeping all identities -/

theorem Renaming.ident_none_eq (sort : Entity) : Renaming.none.ident sort = id := funext (ident_none sort)

theorem Flow.rename_none (flow : Flow) : flow.rename .none = flow := by
  have hlabel (o : Option Label) : o.map (·.rename .none) = o := by
    cases o <;> simp [Label.rename]
  have hscope (scope : JumpScope) : scope.rename .none = scope := by
    cases scope <;> simp [JumpScope.rename, hlabel]
  have hfault (scope : FaultScope) : scope.rename .none = scope := by
    simp [FaultScope.rename, Renaming.ident_none_eq]
  simp [Flow.rename, hscope, hfault, Renaming.ident_none_eq]

theorem Naming.rename_none (naming : Naming) : naming.rename .none = naming := by
  simp [Naming.rename, Renaming.ident_none_eq]

theorem Field.rename_none (f : Field) : f.rename .none = f := by
  have hvariable (v : Variable) : v.rename .none = v := by simp [Variable.rename]
  obtain ⟨name, ty, value⟩ := f
  cases value <;> simp [Field.rename, Hoisted.rename, HostObject.rename, Method.rename, VariableSet.rename, hvariable]

theorem Draft.rename_none (d : Draft) : d.rename .none = d := by
  have htree : Tree.rename .none = id := funext Tree.rename_none
  simp [Draft.rename, Flow.rename_none, Naming.rename_none, Field.rename_none, htree, Renaming.ident_none_eq]

end Scribe
