import Scribe.Proofs.Writing.Follow.Statement
import Scribe.Writing.Node

/-!
# Following the writing of a tree

A lambda that is moved is written once, on a page of its own; where it is met again, only its name is written. What
was noted while its method was written is therefore all that is ever noted of it, and later meetings rely on that.

When the second run follows the first on the children of a node, then also on the node, whatever its kind is.
-/

namespace Scribe

-- sums begin with the zero of the core library, whatever else is imported
attribute [local instance (2000)] Zero.ofOfNat0

open Writing Couple

variable {c : Comparison} {p : Couple}

/-! ## The page of a method -/

namespace Draft

variable {d e : Draft} {desk : Desk}

theorem Grows.endMethod (h : (d.onMethodPage desk).Grows e) (id : Ident) (t : Tree) : d.Grows (d.endMethod e id t) := by
  refine ⟨⟨"", String.append_empty.symm⟩, ?_⟩
  obtain ⟨ms, hms⟩ := h.methods
  refine ⟨e.page.text :: ms, ?_⟩
  simp [Draft.endMethod, ← hms, onMethodPage]

theorem placed_endMethod {g : Passage} (h : (d.onMethodPage desk).Grows e)
    (hg : g.PlacedIn (d.onMethodPage desk) e) (id : Ident) (t : Tree) : g.PlacedIn d (d.endMethod e id t) := by
  obtain ⟨s, hs⟩ | ⟨k, m, s, hk, hm, hs⟩ := hg
  · have hslot : d.methods.length < e.methods.length := by
      have hlength := h.methods.length_le
      simp only [onMethodPage, List.length_append, List.length_singleton] at hlength
      omega
    refine Or.inr ⟨d.methods.length, e.page.text, s, Nat.le_refl _, ?_, hs⟩
    rw [Draft.endMethod, List.getElem?_set_self hslot]
  · have hne : d.methods.length < k := by
      simp only [onMethodPage, List.length_append, List.length_singleton] at hk
      omega
    refine Or.inr ⟨k, m, s, Nat.le_of_lt hne, ?_, hs⟩
    rw [Draft.endMethod, List.getElem?_set_ne (Nat.ne_of_lt hne), hm]

end Draft

namespace Writing

/-! ## Lambdas -/

theorem parameter_follows (v : Variable) :
    Copies c [] (Variable.rename c.keys) (parameter v) (parameter (v.rename c.keys)) := by
  have hrest : Copies c [] (Variable.rename c.keys) (do putType v.ty; put " "; putVariable v)
      (do putType v.ty; put " "; putVariable (v.rename c.keys)) :=
    .putType_bind <| .put_bind <| putVariable_follows v
  exact .ite Iff.rfl (fun _ => .put_bind <| hrest) fun _ => hrest

theorem method_follows (id : Ident) (access name : String) (sig : Signature) (h : p.Sound c) :
    Copies c [p] c.onTree (method id access name sig p.left)
      (method (c.keys.ident .lambda id) access name (sig.rename c.keys) (p.right c.keys)) := by
  have hparams : Copies c [] (List.map (Variable.rename c.keys))
      (bracketed "(" ")" (sig.params.map parameter))
      (bracketed "(" ")" ((sig.rename c.keys).params.map parameter)) := by
    rw [show (sig.rename c.keys).params = sig.params.map (·.rename c.keys) from rfl, List.map_map]
    exact bracketed_steps_follow _ _ fun v _ => parameter_follows v
  have hrest : Copies c [p] c.onTree
      (do
        putType sig.result
        put (" " ++ name)
        let params ← bracketed "(" ")" (sig.params.map parameter)
        let t ← p.left.bracedBody (Tail.atType .result sig.result)
        return .mk (.lambda { id, name := some name, params, result := sig.result } t))
      (do
        putType sig.result
        put (" " ++ name)
        let params ← bracketed "(" ")" ((sig.rename c.keys).params.map parameter)
        let t ← (p.right c.keys).bracedBody (Tail.atType .result sig.result)
        return .mk (.lambda { id := c.keys.ident .lambda id, name := some name, params, result := sig.result } t)) :=
    .putType_bind <| .put_bind <| .then hparams fun params => .piece (bracedBody_follows h _) fun t =>
      layer_follows (.lambda { id, name := some name, params, result := sig.result } t)
  refine .putLine_bind <| .read_bind ?_
  exact .ite Iff.rfl (fun _ => .put_bind <| hrest) fun _ => hrest

theorem entryMethod_follows (sig : Signature) (h : p.Sound c) :
    Copies c [p] c.onTree (entryMethod sig p.left)
      (entryMethod (sig.rename c.keys) (p.right c.keys)) :=
  .read_bind (method_follows (.entry sig.id) "public " _ sig h)

theorem parameterNames_follows (vs : List Variable) :
    Copies c [] (List.map (Variable.rename c.keys)) (parameterNames vs)
      (parameterNames (vs.map (·.rename c.keys))) := by
  have hall : Copies c [] (List.map (Variable.rename c.keys)) (bracketed "(" ")" (vs.map putVariable))
      (bracketed "(" ")" ((vs.map (·.rename c.keys)).map putVariable)) := by
    rw [List.map_map]
    exact bracketed_steps_follow _ _ fun v _ => putVariable_follows v
  match vs with
  | [] => exact hall
  | [v] => exact .then (putVariable_follows v) fun _ => .pure rfl
  | _ :: _ :: _ => exact hall

theorem turn_follows :
    Copies c [] id (modifyGet fun d => (d.turns, { d with turns := d.turns + 1 }))
      (modifyGet fun d => (d.turns, { d with turns := d.turns + 1 })) :=
  .of_quiet_step (fun _ _ => rfl) fun _ => rfl

theorem arrow_follows (sig : Signature) (h : p.Sound c) :
    Copies c [p] c.onTree (arrow sig p.left) (arrow (sig.rename c.keys) (p.right c.keys)) := by
  unfold arrow
  refine .then (parameterNames_follows sig.params) fun params => .put_bind ?_
  extract_lets rest rest'
  have hrest : ∀ t, Copies c [] c.onTree (rest t) (rest' (t.rename c.keys)) := fun t =>
    .then turn_follows fun turn => layer_follows (.lambda { sig with id := .inlined sig.id turn, params } t)
  refine .ite (by rw [isExpression_right]) (fun _ => .piece (operand_follows h _ _) hrest) fun _ => ?_
  exact .then openBraceHere_follows fun _ => .piece (inFunction_follows (body_follows h _)) fun t =>
    .then closeBrace_follows fun _ => hrest t

theorem delegateOf_follows (sig : Signature) (h : p.Sound c) :
    Copies c [p] c.onTree (delegateOf sig p.left)
      (delegateOf (sig.rename c.keys) (p.right c.keys)) := by
  have hdelegate : (sig.rename c.keys).delegate = sig.delegate := by
    simp [Signature.delegate, Signature.rename, Variable.rename, Function.comp_def]
  unfold delegateOf
  rw [hdelegate]
  exact .put_bind <| .putType_bind <| .put_bind <| .piece (arrow_follows sig h) fun _ => .put_bind <| .pure rfl

/-- The method of a lambda is written once, so that what is to be noted of it has to be noted then. -/
theorem promote_follows (name : String) (sig : Signature) (h : p.Sound c)
    (hholds : c.watches → c.holds sig.id → p.must) :
    Copies c [p] c.onTree (promote name sig p.left)
      (promote name (sig.rename c.keys) (p.right c.keys)) := by
  intro d gs hfits
  have hmethod : Copies c [p] c.onTree
      (inFunction do newline; method (.promoted sig.id) "private " name sig p.left)
      (inFunction do
        newline
        method (.promoted (sig.rename c.keys).id) "private " name (sig.rename c.keys) (p.right c.keys)) :=
    inFunction_follows (.then newline_follows fun _ => method_follows (.promoted sig.id) "private " name sig h)
  have hrun := hmethod (d.onMethodPage c.desk) gs ⟨hfits.marks, hfits.promoted⟩
  unfold FollowsFrom at hrun ⊢
  rw [promote_apply, promote_apply,
    show (c.image gs d).onMethodPage c.desk = c.image gs (d.onMethodPage c.desk) from rfl]
  cases hresult : inFunction (do newline; method (.promoted sig.id) "private " name sig p.left) c.desk
      (d.onMethodPage c.desk) with
  | error err =>
    rw [hresult] at hrun
    simp only [hrun]
  | ok r =>
    obtain ⟨t, e⟩ := r
    rw [hresult] at hrun
    obtain ⟨notes, hy, hfits', hgrows, hnotes⟩ := hrun
    refine ⟨notes, ?_, ⟨hfits'.marks, fun hw => ?_⟩, hgrows.endMethod sig.id t, fun hw => ?_⟩
    · simp only [hy]
      rfl
    · rw [Draft.endMethod, List.map_cons, List.forall_mem_cons]
      exact ⟨fun hid => (hnotes hw).must ⟨p, List.mem_singleton_self p, hholds hw hid⟩, hfits'.promoted hw⟩
    · have hn := hnotes hw
      exact ⟨hn.must, hn.most, hn.covers, fun g hg => Draft.placed_endMethod hgrows (hn.placed g hg) sig.id t⟩

/-- A lambda inside an expression. Where its method was written before, what is to be noted of it has been noted. -/
theorem nestedLambda_follows (sig : Signature) (h : p.Sound c) (hholds : c.watches → (c.holds sig.id ↔ p.must)) :
    Copies c [p] c.onTree (nestedLambda sig p.left)
      (nestedLambda (sig.rename c.keys) (p.right c.keys)) := by
  refine .ite (by rw [tree_right, Signature.captures_rename c.injective]) (fun _ => delegateOf_follows sig h) fun _ => ?_
  refine .then (nameLambda_follows sig) fun name => .put_bind <| .get_bind_from fun d gs hfits => ?_
  have hlookup : (c.image gs d).promoted.lookup (sig.rename c.keys).id =
      (d.promoted.lookup sig.id).map c.onTree :=
    Renaming.lookup_ident c.injective .lambda c.onTree d.promoted sig.id
  rw [hlookup]
  cases hfound : d.promoted.lookup sig.id with
  | none => exact promote_follows name sig h (fun hw => (hholds hw).mp) d gs hfits
  | some t =>
    refine ⟨[], by simp, by simpa using hfits, .refl d, fun hw => ⟨?_, by simp, by simp, by simp⟩⟩
    rintro ⟨q, hq, hmust⟩
    obtain rfl := List.mem_singleton.mp hq
    rw [List.append_nil]
    obtain ⟨_, _, hpromoted, -⟩ := List.lookup_eq_some_iff.mp hfound
    exact hfits.promoted hw sig.id (by simp [hpromoted]) ((hholds hw).mpr hmust)

end Writing

/-! ## Layers -/

/-- A layer is written alike in both runs when its children are. A lambda holds something to be noted exactly when its
body does. -/
theorem Node.write_follows (n : Node Couple) (h : ∀ p ∈ n.children, p.Sound c)
    (hholds : ∀ sig body, n = .lambda sig body → c.watches → (c.holds sig.id ↔ body.must)) (tail : Tail) :
    Follows c (n.kept Couple.tree) n.writings c.onTree ((n.map left).rendition.write tail)
      (((n.map (right c.keys)).relabel c.keys).rendition.write tail) := by
  -- one lemma for each kind of node; the children are sound by assumption
  cases n <;>
    simp only [Node.children, List.forall_mem_cons, List.forall_mem_append, Option.mem_toList] at h
  case binary op l r ty => exact binaryOperation_follows op h.1 h.2.1 ty
  case unary op operand ty => exact unaryOperation_follows op h ty
  case constant value ty => exact .then (putValue_follows value) fun _ => layer_follows (.constant value ty)
  case defaultOf ty => exact .then (putDefault_follows ty) fun _ => layer_follows (.defaultOf ty)
  case var v => exact .then (putVariable_follows v) fun w => layer_follows (.var w)
  case lambda sig body => exact nestedLambda_follows sig h.1 (hholds sig body rfl)
  case invoke target args ty => exact invocation_follows h.1 h.2 ty
  case call receiver m args => exact call_follows h.1 m h.2
  case new ty args => exact .last (creation_follows ty h) fun ts => layer_follows (.new ty ts)
  case newArray form ty items => exact arrayCreation_follows form ty h
  case member receiver m => exact .last (memberAccess_follows h m.owner m.name) fun r => layer_follows (.member r m)
  case memberInit ty args bs => exact memberInit_follows ty h.1 h.2
  case listInit ty args inits => exact listInit_follows ty h.1 h.2
  case index receiver indexer args ty => exact indexAccess_follows h.1 indexer h.2 ty
  case conditional test ifTrue ifFalse ty =>
    refine .ite (by rw [isExpression_right, isExpression_right]) (fun _ => ?_) fun _ => ?_
    · exact ternary_follows h.1 h.2.1 h.2.2.1 ty
    · exact ifStatement_follows _ h.1 h.2.1 h.2.2.1 ty tail
  case block vars body ty => exact block_follows vars h ty tail
  case loop body exit again => exact loop_follows h.1 exit again tail
  case jump kind target value ty => exact jump_follows kind target h
  case label target value => exact finalLabel_follows target h tail
  case switch value cases fallback ty => exact switch_follows h.1.1 h.1.2 h.2 ty tail
  case tryCatch body handlers final fault ty => exact tryCatch_follows h.1.1.1 h.1.1.2 h.1.2 h.2 ty tail
  case typeTest test operand ty => exact typeTest_follows test h.1 ty
  case sequencePoint document span => exact layer_follows (.sequencePoint document span)
  case varSet set =>
    exact .then (field_follows (.varSet set) Ty.runtimeVariables "RuntimeVariables") fun _ =>
      .put_bind <| layer_follows (.varSet set)
  case dynamic op args ty => exact dynamic_follows op h ty
  case extension name ty => exact .throw _

/-- The couple `p` of a node is made from the couples of its children, the layer `n`. -/
structure Couple.Over (c : Comparison) (n : Node Couple) (p : Couple) : Prop where
  tree : p.tree = .mk (n.map Couple.tree)
  first : p.first = (n.map left).rendition
  second : p.second = ((n.map (right c.keys)).relabel c.keys).rendition
  must : p.must → ∃ q ∈ n.kept Couple.tree, q.must
  most : (n.writings.map (·.most)).sum ≤ p.most
  holds {sig : Signature} {body : Couple} : n = .lambda sig body → c.watches → (c.holds sig.id ↔ body.must)

namespace Couple.Over

variable {n : Node Couple}

/-- What is idle has no child that is written for certain. -/
theorem idle (h : p.Over c n) (hmust : p.must) : p.tree.isIdle = false := by
  obtain ⟨q, hq, -⟩ := h.must hmust
  rw [h.tree, Tree.isIdle]
  cases n
  case jump kind target value ty =>
    cases value with
    | none => simp [Node.kept, JumpKind.kept] at hq
    | some value => rfl
  case defaultOf ty => cases hq
  case sequencePoint document span => cases hq
  case label target value => cases hq
  all_goals rfl

theorem weaken {α β : Type} {φ : α → β} {x : Writing α} {y : Writing β} (h : p.Over c n)
    (hx : Follows c (n.kept Couple.tree) n.writings φ x y) : Copies c [p] φ x y := by
  refine hx.weaken ?_ (by simpa using h.most)
  rintro ⟨q, hq, hmust⟩
  obtain rfl := List.mem_singleton.mp hq
  exact h.must hmust

/-- Both runs write a layer alike in all its ways, when they write the children so. -/
theorem sound (h : p.Over c n) (hn : ∀ q ∈ n.children, q.Sound c) : p.Sound c where
  idle := h.idle
  write tail := by
    have hwrite := h.weaken (n.write_follows hn (fun _ _ => h.holds) tail)
    rw [← h.first, ← h.second] at hwrite
    exact hwrite
  branches := by
    rw [h.first, h.second]
    cases n
    case conditional test ifTrue ifFalse ty =>
      simp only [Node.children, List.forall_mem_cons] at hn
      refine ⟨test, ifTrue, ifFalse, ty, by rw [h.tree]; rfl, ?_, hn.2.2.1.idle, ?_, ?_⟩
      · intro hmust
        simpa [Node.kept, Node.children] using h.must hmust
      · have hmost := h.most
        simp [Node.writings, Node.children] at hmost
        omega
      · exact ⟨test_follows hn.1, body_follows hn.2.1, fun tail =>
          h.weaken (ifStatement_follows _ hn.1 hn.2.1 hn.2.2.1 ty tail)⟩
    all_goals trivial
  quoted := by
    rw [h.first, h.second]
    cases n
    case lambda sig body =>
      simp only [Node.children, List.forall_mem_cons] at hn
      exact h.weaken (arrow_follows sig hn.1)
    all_goals trivial

end Couple.Over

end Scribe
