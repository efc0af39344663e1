import Scribe.Proofs.Meaning.Statement
import Scribe.Proofs.Operator.Elementary
import Scribe.Tree.Scope
import Scribe.Writing.Jump

/-!
# Trees as statements

`Tree.lowering` says which statements stand for a tree, when labels are called `ν` and variables `μ`. Blocks
leave no trace: their statements become statements of the list around them. A loop whose body starts with
the test for going on becomes a `while` with that test, and any other one a `while (true)`. A jump to a label
of the loop around it is a `break` or a `continue`; a jump further out is a `goto`, and only for such jumps a
loop gets labels.
-/

namespace Scribe

open Reading

/-! ## Jumps -/

/-- The labels of the innermost loop around a statement. -/
structure Frame where
  exit : Option Ident := none
  again : Option Ident := none

/-- The labels of a loop. -/
def Frame.ofLoop (exit again : Option Label) : Frame := ⟨exit.map (·.id), again.map (·.id)⟩

/-- How a jump is written inside the loop. -/
def Frame.form (frame : Frame) (target : Ident) : JumpForm :=
  if frame.exit = some target then .exit else if frame.again = some target then .again else .goto

/-- The statement for a jump to a label that is called `name`. -/
def JumpForm.stmt (form : JumpForm) (name : String) : Stmt :=
  match form with
  | .exit => .exit
  | .again => .again
  | .goto => .goto name

/-- The labels that the jumps of a tree go to with a `goto`, when the tree stands in a loop with the labels
`frame`. -/
def Tree.gotos (t : Tree) : Frame → List Ident :=
  t.fold fun n frame =>
    match n with
    | .jump _ target _ _ => if frame.form target.id = .goto then [target.id] else []
    | .loop body exit again => body.2 (.ofLoop exit again)
    | n => n.children.flatMap (·.2 frame)

/-! ## Lowering -/

/-- The statements for a tree; `returns` says whether its value is returned. -/
structure Lowering where
  /-- The statements in a list. -/
  list (returns : Bool) (frame : Frame) : List Stmt
  /-- The statement behind an `else`. -/
  otherwise (returns : Bool) (frame : Frame) : Stmt
  /-- Of a conditional, the statements for the case that its test succeeds. -/
  whenTrue (frame : Frame) : List Stmt

/-- What becomes a block behind an `else`. -/
def Lowering.ofList (list : Bool → Frame → List Stmt) : Lowering where
  list := list
  otherwise returns frame := .block (list returns frame)
  whenTrue _ := []

/-- The statements for trees in a row; the value of the last one may be returned. -/
def Lowering.inRow (returns : Bool) (frame : Frame) : List Lowering → List Stmt
  | [] => []
  | [l] => l.list returns frame
  | l :: ls => l.list false frame ++ inRow returns frame ls

/-- A label, if it is among the labels that are used. -/
def landing (ν : Ident → String) (used : List Ident) : Option Label → List Stmt
  | some l => if l.id ∈ used then [.label (ν l.id), .empty] else []
  | none => []

/-- The test at the start of a loop's body, if the loop is left when it fails. -/
def Tree.testOf? (body : Tree) (exit : Option Label) : Option Tree :=
  match body.node with
  | .conditional c _ b _ => if b.leavesLoop exit then some c else none
  | _ => none

/-- The name of the variable that is assigned to. -/
def Tree.assigned (μ : Ident → String) (t : Tree) : String :=
  match t.node with
  | .var v => μ v.id
  | _ => ""

/-- The statements for a tree. -/
def Tree.lowering (ν μ : Ident → String) (t : Tree) : Lowering :=
  t.fold fun
    | .defaultOf _ => { Lowering.ofList fun _ _ => [] with otherwise := fun _ _ => .empty }
    | .binary .assign left right _ =>
      .ofList fun _ _ => [.assign (left.1.assigned μ) (right.1.reading μ)]
    | .jump _ target _ _ => .ofList fun _ frame => [(frame.form target.id).stmt (ν target.id)]
    | .block _ ts _ => .ofList fun returns frame => Lowering.inRow returns frame (ts.map (·.2))
    | .conditional c a b ty =>
      let branch := fun returns frame =>
        Stmt.branch (c.1.reading μ) (.block (a.2.list returns frame)) (b.2.otherwise returns frame)
      { list := fun returns frame =>
          if returns && a.1.isExpression && b.1.isExpression then
            [.result (some ((Tree.mk (.conditional c.1 a.1 b.1 ty)).reading μ))]
          else [branch returns frame]
        otherwise := branch
        whenTrue := a.2.list false }
    | .loop body exit again =>
      .ofList fun _ _ =>
        let frame := Frame.ofLoop exit again
        let used := body.1.gotos frame
        let round := match body.1.testOf? exit with
          | some c => (c.reading μ, body.2.whenTrue frame)
          | none => (Expr.truth true, body.2.list false frame)
        .loop round.1 (.block (round.2 ++ landing ν used again)) :: landing ν used exit
    | n => .ofList fun returns _ =>
      if returns then [.result (some ((Tree.mk (n.map (·.1))).reading μ))] else []

/-! ### One layer at a time -/

namespace Tree

section Equations

variable (ν μ : Ident → String)

theorem lowering_skip :
    (Tree.mk (.defaultOf .void)).lowering ν μ =
      { Lowering.ofList fun _ _ => [] with otherwise := fun _ _ => .empty } := by
  rw [lowering, fold_mk]
  rfl

theorem lowering_assign (v : Variable) (e : Tree) (ty : Ty) :
    (Tree.mk (.binary .assign (.mk (.var v)) e ty)).lowering ν μ =
      .ofList fun _ _ => [.assign (μ v.id) (e.reading μ)] := by
  rw [lowering, fold_mk]
  rfl

theorem lowering_jump (kind : JumpKind) (target : Label) (ty : Ty) :
    (Tree.mk (.jump kind target none ty)).lowering ν μ =
      .ofList fun _ frame => [(frame.form target.id).stmt (ν target.id)] := by
  rw [lowering, fold_mk]
  rfl

theorem lowering_block (ts : List Tree) (ty : Ty) :
    (Tree.mk (.block [] ts ty)).lowering ν μ =
      .ofList fun returns frame => Lowering.inRow returns frame (ts.map (·.lowering ν μ)) := by
  rw [lowering, fold_mk]
  simp only [Node.map, List.map_map]
  rfl

theorem list_conditional (c a b : Tree) (ty : Ty) (returns : Bool) (frame : Frame) :
    ((Tree.mk (.conditional c a b ty)).lowering ν μ).list returns frame =
      if returns && a.isExpression && b.isExpression then
        [.result (some ((Tree.mk (.conditional c a b ty)).reading μ))]
      else [((Tree.mk (.conditional c a b ty)).lowering ν μ).otherwise returns frame] := by
  rw [lowering, fold_mk]
  rfl

theorem otherwise_conditional (c a b : Tree) (ty : Ty) (returns : Bool) (frame : Frame) :
    ((Tree.mk (.conditional c a b ty)).lowering ν μ).otherwise returns frame =
      .branch (c.reading μ) (.block ((a.lowering ν μ).list returns frame))
        ((b.lowering ν μ).otherwise returns frame) := by
  rw [lowering, fold_mk]
  rfl

theorem whenTrue_conditional (c a b : Tree) (ty : Ty) :
    ((Tree.mk (.conditional c a b ty)).lowering ν μ).whenTrue = (a.lowering ν μ).list false := by
  rw [lowering, fold_mk]
  rfl

/-- The test of a loop with this body, and the statements of a round. -/
def round (body : Tree) (exit again : Option Label) : Expr × List Stmt :=
  match body.testOf? exit with
  | some c => (c.reading μ, (body.lowering ν μ).whenTrue (.ofLoop exit again))
  | none => (.truth true, (body.lowering ν μ).list false (.ofLoop exit again))

/-- The statement for a loop, without the label behind it. -/
def loopStmt (body : Tree) (exit again : Option Label) : Stmt :=
  .loop (body.round ν μ exit again).1
    (.block ((body.round ν μ exit again).2 ++ landing ν (body.gotos (.ofLoop exit again)) again))

theorem lowering_loop (body : Tree) (exit again : Option Label) :
    (Tree.mk (.loop body exit again)).lowering ν μ = .ofList fun _ _ =>
      body.loopStmt ν μ exit again :: landing ν (body.gotos (.ofLoop exit again)) exit := by
  rw [lowering, fold_mk]
  rfl

theorem Pure.lowering_eq {vs : List Variable} {t : Tree} (h : Pure vs t) :
    t.lowering ν μ = .ofList fun returns _ =>
      if returns then [.result (some (t.reading μ))] else [] := by
  cases h with
  | simple h =>
    cases h <;> (rw [lowering, fold_mk]; rfl)
  | @operation op l r ty hop _ _ _ =>
    rw [lowering, fold_mk]
    cases op <;> cases hop <;> rfl

end Equations

/-! ### Labels and jumps -/

section Labels

variable (frame : Frame)

theorem labels_binary (op : BinaryOp) (l r : Tree) (ty : Ty) :
    (Tree.mk (.binary op l r ty)).labels = l.labels ++ r.labels := by
  rw [labels, fold_mk]
  simp [Node.map, Node.children, withFold, labels]

theorem labels_loop (body : Tree) (exit again : Option Label) :
    (Tree.mk (.loop body exit again)).labels = (exit.toList ++ again.toList).map (·.id) ++ body.labels := by
  rw [labels, fold_mk]
  simp [Node.map, Node.children, withFold, labels]

theorem labels_conditional (c a b : Tree) (ty : Ty) :
    (Tree.mk (.conditional c a b ty)).labels = c.labels ++ (a.labels ++ b.labels) := by
  rw [labels, fold_mk]
  simp [Node.map, Node.children, withFold, labels]

theorem labels_block (ts : List Tree) (ty : Ty) : (Tree.mk (.block [] ts ty)).labels = ts.flatMap labels := by
  rw [labels, fold_mk]
  simp only [Node.map, Node.children, List.nil_append, List.flatMap_map]
  rfl

theorem gotos_binary (op : BinaryOp) (l r : Tree) (ty : Ty) :
    (Tree.mk (.binary op l r ty)).gotos frame = l.gotos frame ++ r.gotos frame := by
  rw [gotos, fold_mk]
  simp [Node.map, Node.children, withFold, gotos]

theorem gotos_jump (kind : JumpKind) (target : Label) (ty : Ty) :
    (Tree.mk (.jump kind target none ty)).gotos frame =
      if frame.form target.id = .goto then [target.id] else [] := by
  rw [gotos, fold_mk]
  rfl

theorem gotos_loop (body : Tree) (exit again : Option Label) :
    (Tree.mk (.loop body exit again)).gotos frame = body.gotos (.ofLoop exit again) := by
  rw [gotos, fold_mk]
  rfl

theorem gotos_conditional (c a b : Tree) (ty : Ty) :
    (Tree.mk (.conditional c a b ty)).gotos frame = c.gotos frame ++ (a.gotos frame ++ b.gotos frame) := by
  rw [gotos, fold_mk]
  simp [Node.map, Node.children, withFold, gotos]

theorem gotos_block (ts : List Tree) (ty : Ty) :
    (Tree.mk (.block [] ts ty)).gotos frame = ts.flatMap (·.gotos frame) := by
  rw [gotos, fold_mk]
  simp only [Node.map, Node.children, List.flatMap_map]
  rfl

/-- Neither labels nor jumps are in a simple tree. -/
theorem Simple.labels_eq {vs : List Variable} {t : Tree} (h : Simple vs t) : t.labels = [] ∧ t.gotos frame = [] := by
  cases h <;> (rw [labels, gotos, fold_mk, fold_mk]; exact ⟨rfl, rfl⟩)

/-- Neither labels nor jumps are in a pure tree. -/
theorem Pure.labels_eq {vs : List Variable} {t : Tree} (h : Pure vs t) : t.labels = [] ∧ t.gotos frame = [] := by
  cases h with
  | simple h => exact h.labels_eq frame
  | operation _ _ hl hr =>
    obtain ⟨hl, hgl⟩ := hl.labels_eq frame
    obtain ⟨hr, hgr⟩ := hr.labels_eq frame
    rw [labels_binary, gotos_binary, hl, hr, hgl, hgr]
    exact ⟨rfl, rfl⟩

theorem Elementary.gotos_eq {vs : List Variable} {t : Tree} (h : Elementary vs t) : t.gotos frame = [] := by
  induction h with
  | pure h => exact (h.labels_eq frame).2
  | conditional _ hc _ _ iha ihb =>
    rw [gotos_conditional, (hc.labels_eq frame).2, iha, ihb]
    rfl

end Labels

/-! ### The labels of the statements -/

variable {ν μ : Ident → String} {vs : List Variable}

theorem labelNames_landing (used : List Ident) (l : Option Label) :
    ∀ x ∈ labelNames (landing ν used l), x ∈ (l.toList.map (·.id)).map ν := by
  intro x hx
  cases l with
  | none => cases hx
  | some l =>
    rw [landing] at hx
    split at hx
    · simpa [labelNames] using hx
    · cases hx

theorem inRow_append (returns : Bool) (frame : Frame) (ls : List Lowering) (l : Lowering) :
    Lowering.inRow returns frame (ls ++ [l]) = ls.flatMap (·.list false frame) ++ l.list returns frame := by
  induction ls with
  | nil => rfl
  | cons k ls ih =>
    have hcons : Lowering.inRow returns frame (k :: (ls ++ [l])) =
        k.list false frame ++ Lowering.inRow returns frame (ls ++ [l]) := by
      cases ls <;> rfl
    rw [List.cons_append, hcons, ih, List.flatMap_cons, List.append_assoc]

/-- The labels in the statements for a tree are labels that the tree owns. -/
theorem Structured.labelNames_subset {returns : Bool} {scope : List Label} {t : Tree}
    (h : Structured vs returns scope t) (frame : Frame) :
    ∀ x ∈ labelNames ((t.lowering ν μ).list returns frame), x ∈ t.labels.map ν := by
  induction h generalizing frame with
  | skip =>
    rw [lowering_skip]
    intro x hx
    cases hx
  | assign _ _ =>
    rw [lowering_assign]
    intro x hx
    cases hx
  | @jump scope kind target ty _ _ =>
    rw [lowering_jump]
    intro x hx
    simp only [Lowering.ofList] at hx
    cases hform : frame.form target.id <;> (rw [hform] at hx; cases hx)
  | @loop scope body exit again _ _ _ =>
    rw [lowering_loop, labels_loop]
    intro x hx
    have hlanding : x ∈ labelNames (landing ν (body.gotos (.ofLoop exit again)) exit) := hx
    have hexit := labelNames_landing _ _ x hlanding
    rw [List.map_append, List.map_append]
    exact List.mem_append_left _ (by rw [List.map_append]; exact List.mem_append_left _ hexit)
  | result h =>
    rw [h.lowering_eq]
    intro x hx
    cases hx
  | conditional _ _ _ _ _ _ =>
    rw [list_conditional, otherwise_conditional]
    intro x hx
    split at hx <;> cases hx
  | empty =>
    rw [lowering_block]
    intro x hx
    cases hx
  | @block returns scope ts t ty _ _ _ ihs iht =>
    rw [lowering_block, labels_block]
    intro x hx
    simp only [Lowering.ofList, List.map_append, List.map_cons, List.map_nil, inRow_append, labelNames_append,
      List.flatMap_map] at hx
    rw [List.flatMap_append, List.map_append]
    rcases List.mem_append.mp hx with hx | hx
    · refine List.mem_append_left _ ?_
      have hmem : ∃ s ∈ ts, x ∈ labelNames ((s.lowering ν μ).list false frame) := by
        simpa [labelNames, List.filterMap_flatMap] using hx
      obtain ⟨s, hs, hxs⟩ := hmem
      obtain ⟨i, hi, rfl⟩ := List.mem_map.mp (ihs s hs frame x hxs)
      exact List.mem_map_of_mem (List.mem_flatMap.mpr ⟨s, hs, hi⟩)
    · refine List.mem_append_right _ ?_
      simpa using iht frame x hx

end Tree

end Scribe
