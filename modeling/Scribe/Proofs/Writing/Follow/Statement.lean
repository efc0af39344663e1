import Scribe.Proofs.Writing.Follow.Expression
import Scribe.Writing.Jump
import Scribe.Writing.Switch
import Scribe.Writing.Try

/-!
# Following the writing of statements

Statements are where something may stay unwritten: a default value that nothing needs, a sequence point, a label's
value, the branch of a `while` that leaves the loop, and the value of a jump that nothing takes over and that has
no effect. In all but the last two of these nothing could have been noted.
-/

namespace Scribe

open Writing Couple

variable {α β : Type} {c : Comparison} {p : Couple} {ps : List Couple} {value : Option Couple}

namespace Writing

variable {φ : α → β} {x : Writing α} {y : Writing β}

/-- A piece with nothing to note may stay unwritten. -/
theorem Follows.unwritten (h : p.Sound c) (hidle : p.tree.isIdle = true) (hx : Copies c [] φ x y) :
    Copies c [p] φ x y := by
  refine (hx.more [p]).weaken ?_ (Nat.le_refl _)
  rintro ⟨q, hq, hmust⟩
  obtain rfl := List.mem_singleton.mp hq
  simp [h.idle hmust] at hidle

/-! ## Lists of statements -/

theorem leadOf_right (p : Couple) (ρ : Renaming) (tail : Tail) :
    leadOf (p.right ρ).tree tail = leadOf p.left.tree tail := by
  simp only [leadOf, node_right, ty_right, Node.isThrow_relabel, Node.isJump_relabel, Node.isThrow_map,
    Node.isJump_map]

theorem lineOf_follows (h : p.Sound c) (tail : Tail) :
    Copies c [p] (List.map c.onTree) (lineOf p.left tail) (lineOf (p.right c.keys) tail) := by
  unfold lineOf
  rw [leadOf_right]
  refine .then newline_follows fun _ => .page_bind fun start => .put_bind ?_
  refine .piece (h.write _) fun t => .put_bind <| .then (mark_follows _ start) fun point => ?_
  exact .pure (by cases point <;> rfl)

theorem addTaker_follows (target : Label) (tail : Tail) :
    Copies c [] id (addTaker target tail) (addTaker (target.rename c.keys) tail) :=
  .ite Iff.rfl (fun _ => onFlow_follows fun _ => rfl) fun _ => .pure rfl

theorem innerLabel_follows (target : Label) (value : Option Tree) :
    Copies c [] c.onTree (innerLabel target value)
      (innerLabel (target.rename c.keys) (value.map c.onTree)) :=
  .then (nameLabel_follows target) fun _ => .putLine_bind <| layer_follows (.label target value)

theorem statement_follows (h : p.Sound c) (tail : Tail) (isFirst isLast : Bool) :
    Copies c [p] (List.map c.onTree) (statement p.left tail isFirst isLast)
      (statement (p.right c.keys) tail isFirst isLast) := by
  have hwrite : Copies c [p] (List.map c.onTree) (do let t ← p.left.write tail; pure [t])
      (do let t ← (p.right c.keys).write tail; pure [t]) := .piece (h.write tail) fun _ => .pure rfl
  unfold statement
  refine .ite (by rw [tree_right, Tree.isEmpty_rename]) (fun hempty => ?_) fun _ => ?_
  · exact .unwritten h (Tree.isIdle_of_isEmpty hempty) (.pure rfl)
  rw [node_right]
  cases hnode : p.left.tree.node
  case sequencePoint document span =>
    have hidle : p.tree.isIdle = true := by rw [Tree.isIdle, show p.tree.node = _ from hnode]
    refine .unwritten h hidle (.read_bind ?_)
    cases c.desk.wrapper.document <;> exact .pure rfl
  case label target value =>
    have hidle : p.tree.isIdle = true := by rw [Tree.isIdle, show p.tree.node = _ from hnode]
    refine .ite Iff.rfl (fun _ => hwrite) fun _ => .unwritten h hidle ?_
    exact .then (innerLabel_follows target value) fun _ => .pure rfl
  all_goals
    refine .ite (by rw [isExpression_right]) (fun _ => lineOf_follows h tail) fun _ => ?_
    exact .ite Iff.rfl (fun _ => hwrite) fun _ => .then newline_follows fun _ => hwrite

theorem statementsFrom_follows (tail : Tail) (isFirst : Bool) (h : ∀ p ∈ ps, p.Sound c) :
    Copies c ps (List.map c.onTree) (statementsFrom tail isFirst (ps.map left))
      (statementsFrom tail isFirst (ps.map (right c.keys))) := by
  induction ps generalizing isFirst with
  | nil => exact .pure rfl
  | cons p rest ih =>
    rw [List.forall_mem_cons] at h
    have hstatement := statement_follows h.1 (if rest.isEmpty then tail else .discard) isFirst rest.isEmpty
    rw [List.map_cons, List.map_cons, statementsFrom, statementsFrom, List.isEmpty_map, List.isEmpty_map]
    exact .piece hstatement fun _ => .last (ih false h.2) fun _ => .pure (by rw [List.map_append])

theorem statements_follows (h : ∀ p ∈ ps, p.Sound c) (tail : Tail) :
    Copies c ps (List.map c.onTree) (statements (ps.map left) tail)
      (statements (ps.map (right c.keys)) tail) := by
  have hrest := statementsFrom_follows tail true h
  have hlabel : (ps.map (right c.keys)).getLast?.bind (·.tree.node.labelTarget?) =
      ((ps.map left).getLast?.bind (·.tree.node.labelTarget?)).map (·.rename c.keys) := by
    rw [List.getLast?_map, List.getLast?_map]
    cases ps.getLast? with
    | none => rfl
    | some p =>
      simp only [Option.map_some, Option.bind_some, node_right, Node.labelTarget?_relabel, Node.labelTarget?_map]
  unfold statements
  rw [hlabel]
  cases (ps.map left).getLast?.bind (·.tree.node.labelTarget?) with
  | some target => exact .then (addTaker_follows target (tail.atType target.ty)) fun _ => hrest
  | none => exact hrest

theorem declare_follows (v : Variable) (inPlace : Bool) :
    Copies c [] (Variable.rename c.keys) (declare v inPlace) (declare (v.rename c.keys) inPlace) := by
  refine .ite Iff.rfl (fun _ => postpone_follows v) fun _ => .then newline_follows fun _ => ?_
  exact .putType_bind <| .put_bind <| .then (putVariable_follows v) fun _ => .put_bind <| .pure rfl

theorem block_follows (vars : List Variable) (h : ∀ p ∈ ps, p.Sound c) (ty : Ty) (tail : Tail) :
    Copies c ps c.onTree (block vars (ps.map left) ty tail)
      (block (vars.map (·.rename c.keys)) (ps.map (right c.keys)) ty tail) := by
  unfold block
  extract_lets tail inPlace inPlace'
  have htrees : (ps.map (right c.keys)).map (·.tree) = ((ps.map left).map (·.tree)).map c.onTree := by
    simp [tree_right]
  have hinPlace : ∀ v : Variable, inPlace' (v.rename c.keys) = inPlace v := by
    intro v
    simp only [inPlace, inPlace', htrees]
    exact Tree.declaredInPlace_rename c.injective v.id _ _
  have hvars : Copies c [] (List.map (Variable.rename c.keys)) (vars.mapM fun v => declare v (inPlace v))
      ((vars.map (·.rename c.keys)).mapM fun v => declare v (inPlace' v)) := by
    rw [List.mapM_map]
    refine mapM_steps_follow fun v _ => ?_
    rw [Function.comp_apply, hinPlace]
    exact declare_follows v _
  refine .then hvars fun ws => ?_
  have hrest : Copies c ps c.onTree
      (do let ts ← statements (ps.map left) tail; pure (Tree.mk (.block ws ts ty)))
      (do let ts ← statements (ps.map (right c.keys)) tail
          pure (Tree.mk (.block (ws.map (·.rename c.keys)) ts ty))) :=
    .last (statements_follows h tail) fun ts => layer_follows (.block ws ts ty)
  refine .ite ?_ (fun _ => hrest) fun _ => .then newline_follows fun _ => hrest
  rw [List.all_map]
  simp only [Function.comp_def, hinPlace]

end Writing

namespace Couple

theorem block_rename (ρ : Renaming) (ts : List Tree) :
    Tree.block [] (ts.map (Tree.rename ρ)) = (Tree.block [] ts).rename ρ := by
  have hlast : (ts.map (Tree.rename ρ)).getLast?.map Tree.ty = ts.getLast?.map Tree.ty := by
    rw [List.getLast?_map]
    cases ts.getLast? with
    | none => rfl
    | some t => exact congrArg some t.ty_rename
  rw [Tree.block, Tree.block, Tree.rename_mk, hlast]
  rfl

theorem ofStatements_rename (ρ : Renaming) (ts : List Tree) :
    Tree.ofStatements (ts.map (Tree.rename ρ)) = (Tree.ofStatements ts).rename ρ := by
  match ts with
  | [] => exact block_rename ρ []
  | [t] => rfl
  | t :: u :: ts => exact block_rename ρ (t :: u :: ts)

theorem body_follows (h : p.Sound c) (tail : Tail) :
    Copies c [p] c.onTree (p.left.body tail) ((p.right c.keys).body tail) := by
  have hsingle : ∀ q ∈ [p], q.Sound c := by simpa using h
  have hstatements := statements_follows hsingle tail
  unfold Piece.body
  rw [node_right]
  cases p.left.tree.node
  case block vars body ty => exact h.write tail
  all_goals
    refine .ite (by rw [tree_right, Tree.isEmpty_rename]) (fun hempty => ?_) fun _ => ?_
    · exact .unwritten h (Tree.isIdle_of_isEmpty hempty) (.pure rfl)
    · exact .last hstatements fun ts => .pure (ofStatements_rename _ ts)

theorem bracedBody_follows (h : p.Sound c) (tail : Tail) :
    Copies c [p] c.onTree (p.left.bracedBody tail) ((p.right c.keys).bracedBody tail) :=
  .then openBrace_follows fun _ => .piece (body_follows h tail) fun _ => .then closeBrace_follows fun _ => .pure rfl

theorem test_follows (h : p.Sound c) : Copies c [p] c.onTree p.left.test (p.right c.keys).test := by
  refine .page_bind fun start => .piece (value_follows h) fun t => .then (mark_follows .test start) fun point => ?_
  cases point with
  | none => exact .pure rfl
  | some point => exact .pure (block_rename c.keys [point, t])

end Couple

namespace Writing

/-! ## Conditionals -/

variable {t a e : Couple}

theorem ternary_follows (ht : t.Sound c) (ha : a.Sound c) (he : e.Sound c) (ty : Ty) :
    Copies c [t, a, e] c.onTree (ternary t.left a.left e.left ty)
      (ternary (t.right c.keys) (a.right c.keys) (e.right c.keys) ty) :=
  .piece (operand_follows ht _ _) fun t' => .put_bind <| .piece (operand_follows ha _ _) fun a' =>
    .put_bind <| .piece (operand_follows he _ _) fun e' =>
    layer_follows (.conditional t' a' e' ty)

theorem elseBranch_follows (h : p.Sound c) (tail : Tail) :
    Copies c [p] c.onTree (elseBranch p.left tail) (elseBranch (p.right c.keys) tail) := by
  have hbranches := h.branches
  refine .ite (by rw [tree_right, Tree.isOmitted_rename]) (fun homitted => ?_) fun _ => ?_
  · exact .unwritten h (Tree.isIdle_of_isOmitted homitted) (.pure rfl)
  dsimp only [left, right]
  revert hbranches
  cases p.first.branches <;> cases p.second.branches <;> intro hbranches
  · exact .putLine_bind <| bracedBody_follows h tail
  · exact hbranches.elim
  · exact hbranches.elim
  · obtain ⟨_, _, _, _, _, _, _, _, hb⟩ := hbranches
    exact hb.elseIf tail

theorem ifStatement_follows (lead : String) (ht : t.Sound c) (ha : a.Sound c) (he : e.Sound c) (ty : Ty)
    (tail : Tail) : Copies c [t, a, e] c.onTree
      (ifStatement lead t.left a.left e.left ty tail)
      (ifStatement lead (t.right c.keys) (a.right c.keys) (e.right c.keys) ty tail) :=
  .putLine_bind <| .piece (test_follows ht) fun t' => .put_bind <|
    .piece (bracedBody_follows ha _) fun a' => .piece (elseBranch_follows he _) fun e' =>
    layer_follows (.conditional t' a' e' ty)

/-! ## Jumps -/

theorem clearFlags_follows (flags : List String) : Copies c [] id (clearFlags flags) (clearFlags flags) := by
  induction flags with
  | nil => exact .pure rfl
  | cons flag flags ih => exact .put_bind <| .then newline_follows fun _ => ih

theorem clearFaults_follows (target : Option Label) :
    Copies c [] id (clearFaults target) (clearFaults (target.map (·.rename c.keys))) := by
  refine .get_bind fun d gs => ?_
  have htarget : (target.map (·.rename c.keys)).map (·.id) = (target.map (·.id)).map (c.keys.ident .label) := by
    cases target <;> rfl
  rw [htarget, show (c.image gs d).flow = d.flow.rename c.keys from rfl, Flow.flagsLeft_rename c.injective]
  exact clearFlags_follows _

theorem putJump_follows (target : Label) : Copies c [] id (putJump target) (putJump (target.rename c.keys)) := by
  refine .get_bind fun d gs => ?_
  rw [show (c.image gs d).flow.scopes = d.flow.scopes.map (·.rename c.keys) from rfl,
    show (target.rename c.keys).id = c.keys.ident .label target.id from rfl, Flow.resolve_rename c.injective]
  refine .then (onFlow_follows fun _ => rfl) fun _ => ?_
  split
  · exact put_follows _
  · exact put_follows _
  · exact .then (nameLabel_follows target) fun _ => put_follows _

theorem valueOrDefault_follows (h : ∀ p ∈ value, p.Sound c) (ty : Ty) :
    Follows c value.toList value.toList c.onTree (valueOrDefault (value.map left) ty)
      (valueOrDefault (value.map (right c.keys)) ty) := by
  cases value with
  | some p => exact value_follows (h p rfl)
  | none => exact .then (putDefault_follows ty) fun _ => layer_follows (.defaultOf ty)

theorem effectOf_follows (h : ∀ p ∈ value, p.Sound c) :
    Follows c (value.toList.filter fun p => p.tree.node.isEffect) value.toList (Option.map c.onTree)
      (effectOf (value.map left)) (effectOf (value.map (right c.keys))) := by
  cases value with
  | none => exact .pure rfl
  | some p =>
    refine .ite (by rw [node_right, Node.isEffect_relabel, Node.isEffect_map]) (fun heffect => ?_) fun heffect => ?_
    · change p.tree.node.isEffect = true at heffect
      rw [Option.toList_some, List.filter_cons, if_pos heffect]
      exact .piece ((h p rfl).write _) fun _ => .put_bind <| .then newline_follows fun _ => .pure rfl
    · change ¬p.tree.node.isEffect = true at heffect
      rw [Option.toList_some, List.filter_cons, if_neg heffect]
      exact .more (.pure rfl) [p]

theorem jump_follows (kind : JumpKind) (target : Label) (h : ∀ p ∈ value, p.Sound c) :
    Follows c (kind.kept Couple.tree value) value.toList c.onTree (jump kind target (value.map left))
      (jump kind (target.rename c.keys) (value.map (right c.keys))) := by
  have hwritten : ∀ {x y : Writing Tree}, Follows c value.toList value.toList c.onTree x y →
      Follows c (kind.kept Couple.tree value) value.toList c.onTree x y := fun h =>
    h.weaken (fun ⟨p, hp, hmust⟩ => ⟨p, kind.kept_subset _ value hp, hmust⟩) (Nat.le_refl _)
  have hvalue := valueOrDefault_follows h target.ty
  have hwhole : ∀ o, Copies c [] c.onTree (pure (.jump kind target o))
      (pure (.jump kind (target.rename c.keys) (o.map c.onTree))) :=
    fun o => layer_follows (.jump kind target o .void)
  have hjump : ∀ o, Copies c [] c.onTree
      (do clearFaults (some target); putJump target; pure (.jump kind target o))
      (do clearFaults (some (target.rename c.keys)); putJump (target.rename c.keys)
          pure (.jump kind (target.rename c.keys) (o.map c.onTree))) :=
    fun o => .then (clearFaults_follows (some target)) fun _ => .then (putJump_follows target) fun _ => hwhole o
  refine .get_bind fun d gs => ?_
  have htaker : (c.image gs d).flow.takers.lookup (target.rename c.keys).id = d.flow.takers.lookup target.id := by
    have hlookup := Renaming.lookup_ident c.injective .label id d.flow.takers target.id
    rwa [Option.map_id_fun] at hlookup
  rw [htaker]
  split
  · exact hwritten (.then (clearFaults_follows none) fun _ => .put_bind <| .last hvalue fun t => hwhole (some t))
  · exact hwritten (.put_bind <| .last hvalue fun t => .put_bind <| .then newline_follows fun _ => hjump (some t))
  · refine hwritten (.then (clearFaults_follows none) fun _ => .put_bind ?_)
    cases value with
    | none => exact .pure_bind (hwhole none)
    | some p =>
      exact .put_bind <| .piece (value_follows (h p rfl)) fun t => .pure_bind (hwhole (some t))
  · next hkind _ _ =>
    rw [JumpKind.kept, if_neg hkind]
    exact .last (effectOf_follows h) hjump

/-! ## Labels and loops -/

theorem finalLabel_follows (target : Label) (h : ∀ p ∈ value, p.Sound c) (tail : Tail) :
    Follows c [] value.toList c.onTree (finalLabel target (value.map left) tail)
      (finalLabel (target.rename c.keys) (value.map (right c.keys)) tail) := by
  have hwritten : ∀ {x y : Writing Tree}, Follows c value.toList value.toList c.onTree x y →
      Follows c [] value.toList c.onTree x y := fun h => h.weaken (by simp) (Nat.le_refl _)
  have hvalue := valueOrDefault_follows h target.ty
  have hwhole : ∀ o, Copies c [] c.onTree (pure (.mk (.label target o)))
      (pure (.mk (.label (target.rename c.keys) (o.map c.onTree)))) :=
    fun o => layer_follows (.label target o)
  refine .then (nameLabel_follows target) fun name => ?_
  rw [show (target.rename c.keys).ty = target.ty from rfl]
  split
  · refine .putLine_bind <| .put_bind ?_
    refine (Follows.more (.pure ?_) value.toList)
    rw [Comparison.onTree, Tree.rename_mk]
    cases value <;> rfl
  · exact hwritten (.putLine_bind <| .putLine_bind <| .last hvalue fun t => .put_bind <| hwhole (some t))
  · exact hwritten (.putLine_bind <| .last hvalue fun t => .put_bind <| .putLine_bind <| hwhole (some t))

theorem enterScope_follows (scope : JumpScope) :
    Copies c [] id (enterScope scope) (enterScope (scope.rename c.keys)) := onFlow_follows fun _ => rfl

theorem leaveScope_follows : Copies c [] id leaveScope leaveScope :=
  onFlow_follows fun flow => by simp [Flow.rename]

theorem putLabel_follows (target : Label) : Copies c [] id (putLabel target) (putLabel (target.rename c.keys)) :=
  .then (nameLabel_follows target) fun _ => putLine_follows _

theorem putAgainLabel_follows : Copies c [] id putAgainLabel putAgainLabel := by
  refine .get_bind fun d gs => ?_
  rw [show (c.image gs d).flow.scopes = d.flow.scopes.map (·.rename c.keys) from rfl]
  match d.flow.scopes with
  | [] | .switch :: _ | .loop _ none _ _ :: _ | .loop _ (some _) _ false :: _ => exact .pure rfl
  | .loop _ (some target) _ true :: _ => exact putLabel_follows target

theorem leaveLoop_follows : Copies c [] id leaveLoop leaveLoop := by
  refine .get_bind fun d gs => .then leaveScope_follows fun _ => ?_
  rw [show (c.image gs d).flow.scopes = d.flow.scopes.map (·.rename c.keys) from rfl]
  match d.flow.scopes with
  | [] | .switch :: _ | .loop none _ _ _ :: _ | .loop (some _) _ false _ :: _ => exact .pure rfl
  | .loop (some target) _ true _ :: _ => exact putLabel_follows target

theorem whileLoop_follows {t a : Couple} {b b' : Branches} (h : b.Follow c p t a b') (ifFalse : Tree)
    (ty loopTy : Ty) (tail : Tail) :
    Copies c [t, a] c.onTree (whileLoop b ifFalse ty loopTy tail)
      (whileLoop b' (ifFalse.rename c.keys) ty loopTy tail) := by
  refine .putLine_bind <| .piece h.test fun t' => .put_bind ?_
  refine .then openBrace_follows fun _ => .piece (h.whenTrue _) fun a' => .then putAgainLabel_follows fun _ => ?_
  refine .then closeBrace_follows fun _ => ?_
  have hwhole := layer_follows (c := c) (.conditional t' a' ifFalse ty)
  cases tail.lead? with
  | none => exact hwhole
  | some lead =>
    exact .putLine_bind <| .then (putDefault_follows _) fun _ => .put_bind <| hwhole

theorem endlessLoop_follows (h : p.Sound c) :
    Copies c [p] c.onTree (endlessLoop p.left) (endlessLoop (p.right c.keys)) :=
  .putLine_bind <| .then openBrace_follows fun _ => .piece (body_follows h _) fun _ =>
    .then putAgainLabel_follows fun _ => .then closeBrace_follows fun _ => .pure rfl

/-- The branch that a `while` leaves out has nothing to note. -/
theorem isIdle_of_leavesLoop {t : Tree} {exit : Option Label} (h : t.leavesLoop exit = true) : t.isIdle = true := by
  obtain ⟨n⟩ := t
  cases n
  case jump kind target value ty => cases value with
    | none => rfl
    | some value => cases h
  all_goals cases h

theorem loop_follows (h : p.Sound c) (exit again : Option Label) (tail : Tail) :
    Copies c [p] c.onTree (loop p.left exit again tail)
      (loop (p.right c.keys) (exit.map (·.rename c.keys)) (again.map (·.rename c.keys)) tail) := by
  have hty : ((exit.map (·.rename c.keys)).map (·.ty)).getD .void = (exit.map (·.ty)).getD .void := by
    cases exit <;> rfl
  unfold loop
  rw [hty]
  extract_lets ty tail after rest ty' tail' after' rest'
  have hafter : ∀ t, Copies c [] c.onTree (after t) (after' (t.rename c.keys)) :=
    fun t => .then leaveLoop_follows fun _ => layer_follows (.loop t exit again)
  have hendless : Copies c [p] c.onTree (endlessLoop p.left >>= after)
      (endlessLoop (p.right c.keys) >>= after') := .piece (endlessLoop_follows h) hafter
  have hrest : Copies c [p] c.onTree (rest ()) (rest' ()) := by
    refine .then (enterScope_follows (.loop exit again false false)) fun _ => ?_
    have hbranches := h.branches
    -- both runs have the branches of a conditional, or neither has
    cases hfirst : p.left.2.branches <;> cases hsecond : (p.right c.keys).2.branches <;>
      rw [show p.first.branches = _ from hfirst, show p.second.branches = _ from hsecond] at hbranches
    · rw [node_right]
      cases p.left.tree.node <;> exact hendless
    · exact hbranches.elim
    · exact hbranches.elim
    · obtain ⟨t, a, e, bodyTy, hnode, hmust, hidle, hmost, hb⟩ := hbranches
      rw [node_right, show p.left.tree.node = _ from hnode]
      refine .ite (by rw [Tree.leavesLoop_rename c.injective]) (fun hleaves => ?_) fun _ => hendless
      refine .last (Follows.weaken (whileLoop_follows hb e.tree bodyTy ty tail) ?_ ?_) hafter
      · rintro ⟨q, hq, hq'⟩
        obtain rfl := List.mem_singleton.mp hq
        rcases hmust hq' with ht | ha | he
        · exact ⟨t, by simp, ht⟩
        · exact ⟨a, by simp, ha⟩
        · exact absurd (isIdle_of_leavesLoop hleaves) (by simp [hidle he])
      · simpa using hmost
  cases exit with
  | none => exact hrest
  | some target => exact .then (addTaker_follows target tail) fun _ => hrest

/-! ## Switches -/

theorem caseBody_follows (h : p.Sound c) (tail : Tail) :
    Copies c [p] c.onTree (caseBody p.left tail) (caseBody (p.right c.keys) tail) := by
  refine .then indent_follows fun _ => .piece (body_follows h tail) fun t => ?_
  have hrest : Copies c [] c.onTree (do dedent; pure t) (do dedent; pure (t.rename c.keys)) :=
    .then dedent_follows fun _ => .pure rfl
  exact .ite Iff.rfl (fun _ => .putLine_bind <| hrest) fun _ => hrest

theorem switchCase_follows (tail : Tail) (k : Case Couple) (h : ∀ p ∈ k.tests ++ [k.body], p.Sound c) :
    Copies c (k.tests ++ [k.body]) (Case.map c.onTree)
      (switchCase tail (k.map left)) (switchCase tail (k.map (right c.keys))) := by
  rw [List.forall_mem_append, List.forall_mem_singleton] at h
  have htests : Follows c k.tests k.tests (List.map c.onTree)
      ((k.tests.map left).mapM fun p => do putLine "case "; let t ← p.value; put ":"; pure t)
      ((k.tests.map (right c.keys)).mapM fun p => do putLine "case "; let t ← p.value; put ":"; pure t) := by
    have htest : ∀ p ∈ k.tests, Copies c [p] c.onTree
        (do putLine "case "; let t ← p.left.value; put ":"; pure t)
        (do putLine "case "; let t ← (p.right c.keys).value; put ":"; pure t) := fun p hp =>
      .putLine_bind <| .piece (value_follows (h.1 p hp)) fun _ => .put_bind <| .pure rfl
    have hall := mapM_follows htest
    rw [flatMap_pieces] at hall
    rw [List.mapM_map, List.mapM_map]
    exact hall
  exact .bind htests fun _ => .piece (caseBody_follows h.2 tail) fun _ => .pure rfl

theorem switch_follows {value : Couple} (hv : value.Sound c) {cases : List (Case Couple)}
    (hc : ∀ p ∈ cases.flatMap fun k => k.tests ++ [k.body], p.Sound c) {fallback : Option Couple}
    (hf : ∀ p ∈ fallback, p.Sound c) (ty : Ty) (tail : Tail) :
    Follows c (Node.switch value cases fallback ty).children (Node.switch value cases fallback ty).children
      c.onTree
      (switch value.left (cases.map (Case.map left)) (fallback.map left) ty tail)
      (switch (value.right c.keys) (cases.map (Case.map (right c.keys))) (fallback.map (right c.keys)) ty tail) := by
  have hcases : Copies c (cases.flatMap fun k => k.tests ++ [k.body])
      (List.map (Case.map c.onTree))
      ((cases.map (Case.map left)).mapM (switchCase (tail.atType ty)))
      ((cases.map (Case.map (right c.keys))).mapM (switchCase (tail.atType ty))) := by
    rw [List.mapM_map, List.mapM_map]
    exact mapM_follows fun k hk => switchCase_follows _ k fun p hp => hc p (List.mem_flatMap.mpr ⟨k, hk, hp⟩)
  rw [Node.children, List.cons_append]
  refine .putLine_bind <| .piece (value_follows hv) fun v => .put_bind ?_
  refine .then openBrace_follows fun _ => .then (enterScope_follows .switch) fun _ => .bind hcases fun ks => ?_
  extract_lets rest rest'
  have hrest : ∀ o, Copies c [] c.onTree (rest o) (rest' (o.map c.onTree)) := fun o =>
    .then leaveScope_follows fun _ => .then closeBrace_follows fun _ => layer_follows (.switch v ks o ty)
  cases fallback with
  | none => exact .pure_bind (hrest none)
  | some p =>
    exact .putLine_bind <| .piece (caseBody_follows (hf p rfl) _) fun t => .pure_bind (hrest (some t))

/-! ## Exceptions -/

theorem handler_follows (tail : Tail) (k : Handler Couple) (h : ∀ p ∈ k.filter.toList ++ [k.body], p.Sound c) :
    Copies c (k.filter.toList ++ [k.body])
      (fun k => (k.map c.onTree).relabel c.keys) (handler tail (k.map left))
      (handler tail ((k.map (right c.keys)).relabel c.keys)) := by
  obtain ⟨test, caught, filter, body⟩ := k
  rw [List.forall_mem_append, List.forall_mem_singleton] at h
  have hbody := bracedBody_follows h.2 tail
  refine .putLine_bind <| .putType_bind ?_
  extract_lets rest rest'
  have hrest : ∀ v, Copies c (filter.toList ++ [body])
      (fun k => (k.map c.onTree).relabel c.keys) (rest v) (rest' (v.map (·.rename c.keys))) := by
    refine fun v => .put_bind ?_
    cases filter with
    | none => exact .pure_bind (.piece hbody fun _ => .pure rfl)
    | some p =>
      exact .put_bind <| .piece (value_follows (h.1 p (by simp))) fun _ =>
        .put_bind <| .pure_bind (.piece hbody fun _ => .pure rfl)
  cases caught with
  | none => exact .pure_bind (hrest none)
  | some v =>
    exact .put_bind <| .then (putVariable_follows v) fun w => .pure_bind (hrest (some w))

theorem flaggedBody_follows (h : p.Sound c) (tail : Tail) (flag : String) :
    Copies c [p] c.onTree (flaggedBody p.left tail flag) (flaggedBody (p.right c.keys) tail flag) := by
  have hlabels : (p.right c.keys).tree.labels = p.left.tree.labels.map (c.keys.ident .label) := p.tree.labels_rename
  unfold flaggedBody
  rw [hlabels]
  refine .then (onFlow_follows fun _ => rfl) fun _ => .piece (body_follows h tail) fun _ => ?_
  exact .then (onFlow_follows fun flow => by simp [Flow.rename]) fun _ => .putLine_bind <| .pure rfl

theorem tryBody_follows (h : p.Sound c) (tail : Tail) (flag : Option String) :
    Copies c [p] c.onTree (tryBody p.left tail flag) (tryBody (p.right c.keys) tail flag) := by
  refine .putLine_bind <| .then openBrace_follows fun _ => ?_
  cases flag with
  | none => exact .piece (body_follows h tail) fun _ => .then closeBrace_follows fun _ => .pure rfl
  | some flag =>
    exact .piece (flaggedBody_follows h tail flag) fun _ => .then closeBrace_follows fun _ => .pure rfl

theorem finallyPart_follows {final fault : Option Couple} (hf : ∀ p ∈ final, p.Sound c)
    (hu : ∀ p ∈ fault, p.Sound c) (flag : String) :
    Copies c (final.toList ++ fault.toList)
      (Prod.map (Option.map c.onTree) (Option.map c.onTree))
      (finallyPart (final.map left) (fault.map left) flag)
      (finallyPart (final.map (right c.keys)) (fault.map (right c.keys)) flag) := by
  refine .ite (by cases final <;> cases fault <;> rfl) (fun hnone => ?_) fun _ => ?_
  · rw [Bool.and_eq_true, Option.isNone_map, Option.isNone_map, Option.isNone_iff_eq_none,
      Option.isNone_iff_eq_none] at hnone
    obtain ⟨rfl, rfl⟩ := hnone
    exact .pure rfl
  refine .putLine_bind <| .then openBrace_follows fun _ => ?_
  extract_lets rest rest'
  have hrest : ∀ o, Follows c fault.toList fault.toList
      (Prod.map (Option.map c.onTree) (Option.map c.onTree)) (rest o)
      (rest' (o.map c.onTree)) := by
    intro o
    cases fault with
    | none => exact .pure_bind (.then closeBrace_follows fun _ => .pure rfl)
    | some p =>
      exact .putLine_bind <| .piece (bracedBody_follows (hu p rfl) _) fun _ =>
        .pure_bind (.then closeBrace_follows fun _ => .pure rfl)
  cases final with
  | none => exact .pure_bind (hrest none)
  | some p => exact .piece (body_follows (hf p rfl) _) fun t => .pure_bind (hrest (some t))

theorem tryCatch_layer_follows (t : Tree) (hs : List (Handler Tree)) (f u : Option Tree) (ty : Ty) :
    Copies c [] c.onTree (pure (.mk (.tryCatch t hs f u ty)))
      (pure (.mk (.tryCatch (t.rename c.keys) (hs.map fun k => (k.map c.onTree).relabel c.keys)
        (f.map c.onTree) (u.map c.onTree) ty))) := by
  have hlayer := layer_follows (c := c) (.tryCatch t hs f u ty)
  rwa [Node.map, Node.relabel, List.map_map] at hlayer

variable {handlers : List (Handler Couple)} {final : Option Couple}

theorem handlers_follow (hh : ∀ p ∈ handlers.flatMap fun k => k.filter.toList ++ [k.body], p.Sound c)
    (tail : Tail) : Follows c (handlers.flatMap fun k => k.filter.toList ++ [k.body])
      (handlers.flatMap fun k => k.filter.toList ++ [k.body])
      (List.map fun k => (k.map c.onTree).relabel c.keys)
      ((handlers.map (Handler.map left)).mapM (handler tail))
      (((handlers.map (Handler.map (right c.keys))).map (·.relabel c.keys)).mapM (handler tail)) := by
  rw [List.map_map, List.mapM_map, List.mapM_map]
  exact mapM_follows fun k hk => handler_follows tail k fun p hp => hh p (List.mem_flatMap.mpr ⟨k, hk, hp⟩)

section

variable (hb : p.Sound c) (hh : ∀ p ∈ handlers.flatMap fun k => k.filter.toList ++ [k.body], p.Sound c)
  (hf : ∀ p ∈ final, p.Sound c)

include hb hh hf

theorem plainTry_follows (ty : Ty) (tail : Tail) :
    Follows c (Node.tryCatch p handlers final none ty).children
      (Node.tryCatch p handlers final none ty).children c.onTree
      (plainTry p.left (handlers.map (Handler.map left)) (final.map left) ty tail)
      (plainTry (p.right c.keys) ((handlers.map (Handler.map (right c.keys))).map (·.relabel c.keys))
        (final.map (right c.keys)) ty tail) := by
  have hnone : ∀ q ∈ (none : Option Couple), q.Sound c := by simp
  rw [Node.children, List.append_assoc, List.cons_append]
  exact .piece (tryBody_follows hb tail none) fun t => .bind (handlers_follow hh tail) fun hs =>
    .last (finallyPart_follows hf hnone "") fun parts => tryCatch_layer_follows t hs parts.1 none ty

theorem faultTry_follows {fault : Couple} (hu : ∀ q ∈ some fault, q.Sound c) (ty : Ty) (tail : Tail) (flag : String) :
    Follows c (Node.tryCatch p handlers final (some fault) ty).children
      (Node.tryCatch p handlers final (some fault) ty).children c.onTree
      (faultTry p.left (handlers.map (Handler.map left)) (final.map left) fault.left ty tail flag)
      (faultTry (p.right c.keys) ((handlers.map (Handler.map (right c.keys))).map (·.relabel c.keys))
        (final.map (right c.keys)) (fault.right c.keys) ty tail flag) := by
  rw [Node.children, List.append_assoc, List.cons_append]
  exact .putLine_bind <| .piece (tryBody_follows hb tail _) fun t =>
    .bind (handlers_follow hh tail) fun hs => .last (finallyPart_follows hf hu flag) fun parts =>
    tryCatch_layer_follows t hs parts.1 parts.2 ty

theorem tryCatch_follows {fault : Option Couple} (hu : ∀ p ∈ fault, p.Sound c) (ty : Ty) (tail : Tail) :
    Follows c (Node.tryCatch p handlers final fault ty).children (Node.tryCatch p handlers final fault ty).children
      c.onTree
      (tryCatch p.left (handlers.map (Handler.map left)) (final.map left) (fault.map left) ty tail)
      (tryCatch (p.right c.keys) ((handlers.map (Handler.map (right c.keys))).map (·.relabel c.keys))
        (final.map (right c.keys)) (fault.map (right c.keys)) ty tail) := by
  cases fault with
  | none => exact plainTry_follows hb hh hf ty _
  | some fault =>
    have hfault := fun tail flag => faultTry_follows hb hh hf hu ty tail flag
    refine .then (fresh_follows _) fun flag => ?_
    split
    · refine .then (fresh_follows _) fun kept => .then newline_follows fun _ => .putType_bind ?_
      exact .put_bind <| .last (hfault _ _) fun _ => .putLine_bind <| .pure rfl
    · exact hfault _ _

end

end Writing

end Scribe
