import Scribe.Tree.Placement
import Scribe.Tree.Scope

/-!
# Variables of a tree

`Tree.free` lists the occurrences of variables that nothing around them in the tree binds, by the usual
recursion. A tree is well scoped when there are none. The search for a variable from outside, which keeps the
variables in scope on a stack, finds out whether there are any (`Signature.captures_iff_free`).

`Tree.variables` lists all variables of a tree, those that are bound and those that occur. `Tree.copied`
lists those of the parts that writing the tree may copy instead of writing them.
-/

namespace Scribe

variable {α β : Type}

/-! ## Subtrees -/

namespace Tree

/-- Everything in a tree but the tree itself. -/
def parts (t : Tree) : List Tree := t.fold fun n => n.children.flatMap fun c => c.1 :: c.2

/-- A tree and everything in it. -/
def subtrees (t : Tree) : List Tree := t :: t.parts

theorem parts_mk (n : Node Tree) : (Tree.mk n).parts = n.children.flatMap subtrees := by
  rw [parts, fold_mk, Node.children_map, List.flatMap_map]
  rfl

theorem mem_subtrees_self (t : Tree) : t ∈ t.subtrees := List.mem_cons_self

theorem mem_subtrees_of_child {n : Node Tree} {c s : Tree} (hc : c ∈ n.children) (h : s ∈ c.subtrees) :
    s ∈ (Tree.mk n).subtrees := by
  refine List.mem_cons_of_mem _ ?_
  rw [parts_mk]
  exact List.mem_flatMap.mpr ⟨c, hc, h⟩

theorem mem_subtrees_trans {r s t : Tree} (h : s ∈ t.subtrees) (h' : r ∈ s.subtrees) : r ∈ t.subtrees := by
  induction t using Tree.induction with
  | step n ih =>
    rcases List.mem_cons.mp h with rfl | h
    · exact h'
    · rw [parts_mk] at h
      obtain ⟨c, hc, hs⟩ := List.mem_flatMap.mp h
      exact mem_subtrees_of_child hc (ih c hc hs)

/-- What is in a part of a tree is in the tree. -/
theorem mem_subtrees_child {n : Node Tree} {c t : Tree} (h : Tree.mk n ∈ t.subtrees) (hc : c ∈ n.children) :
    c ∈ t.subtrees :=
  mem_subtrees_trans h (mem_subtrees_of_child hc c.mem_subtrees_self)

end Tree

/-! ## Variables -/

/-- The variables that a layer binds, or that occur in it. -/
def Node.variables : Node α → List Variable
  | .var v => [v]
  | .varSet set => set.members
  | .lambda sig _ => sig.params
  | .block vars _ _ => vars
  | .tryCatch _ handlers _ _ _ => handlers.flatMap (·.caught.toList)
  | _ => []

theorem Node.variables_map (f : α → β) (n : Node α) : (n.map f).variables = n.variables := by
  cases n <;> simp [Node.map, Node.variables, Handler.map, List.flatMap_map]

/-- The variables that a tree binds, and those that occur in it. -/
def Tree.variables (t : Tree) : List Variable := t.subtrees.flatMap (·.node.variables)

namespace Tree

variable {s t : Tree} {v : Variable}

theorem variables_subset (h : s ∈ t.subtrees) : s.variables ⊆ t.variables := by
  intro v hv
  obtain ⟨r, hr, hv⟩ := List.mem_flatMap.mp hv
  exact List.mem_flatMap.mpr ⟨r, mem_subtrees_trans h hr, hv⟩

theorem mem_variables_mk {n : Node Tree} :
    v ∈ (Tree.mk n).variables ↔ v ∈ n.variables ∨ ∃ c ∈ n.children, v ∈ c.variables := by
  rw [Tree.variables, subtrees, List.flatMap_cons, List.mem_append, parts_mk, List.flatMap_assoc,
    List.mem_flatMap]
  rfl

/-- A variable occurs in a layer, or in a child. -/
theorem mentions_mk (n : Node Tree) (v : Ident) :
    (Tree.mk n).mentions v =
      match n with
      | .var w => w.id == v
      | .varSet set => set.members.any (·.id == v)
      | n => n.children.any (·.mentions v) := by
  rw [mentions, fold_mk]
  cases n
  case var => rfl
  case varSet => rfl
  all_goals
    show (Node.children (Node.map _ _)).any _ = _
    rw [Node.children_map, List.any_map]
    rfl

/-- Every occurrence is a mention. -/
theorem mentions_of_mem {t : Tree} {v : Variable} (h : Tree.mk (.var v) ∈ t.subtrees) : t.mentions v.id = true := by
  induction t using Tree.induction with
  | step n ih =>
    rw [mentions_mk]
    rcases List.mem_cons.mp h with hself | hpart
    · cases hself
      exact beq_self_eq_true v.id
    · rw [parts_mk] at hpart
      obtain ⟨c, hc, hmem⟩ := List.mem_flatMap.mp hpart
      have hany : n.children.any (·.mentions v.id) = true := List.any_eq_true.mpr ⟨c, hc, ih c hc hmem⟩
      cases n with
      | var w | varSet set => cases hc
      | _ => exact hany

/-- A variable is known by its identity: two with the same one are the same in everything. -/
def Coherent (t : Tree) : Prop :=
  ∀ v ∈ t.variables, ∀ w ∈ t.variables, v.id = w.id → v = w

instance (t : Tree) : Decidable t.Coherent :=
  inferInstanceAs (Decidable (∀ v ∈ t.variables, ∀ w ∈ t.variables, v.id = w.id → v = w))

end Tree

/-! ## Free variables -/

/-- The variables of `ws` that are not among `vs`. -/
def Variable.outside (vs ws : List Variable) : List Variable :=
  ws.filter fun w => !(vs.map (·.id)).contains w.id

theorem Variable.mem_outside {vs ws : List Variable} {w : Variable} :
    w ∈ outside vs ws ↔ w ∈ ws ∧ w.id ∉ vs.map (·.id) := by
  rw [outside, List.mem_filter, Bool.not_eq_true', ← Bool.not_eq_true, List.contains_iff_mem]

/-- The free variables of a layer, given those of the children. A handler binds its variable in both filter
and body. -/
def Node.free (f : α → List Variable) : Node α → List Variable
  | .var v => [v]
  | .varSet set => set.members
  | .lambda sig body => Variable.outside sig.params (f body)
  | .block vars body _ => Variable.outside vars (body.flatMap f)
  | .tryCatch body handlers final fault _ =>
    f body ++ handlers.flatMap (fun h =>
      Variable.outside h.caught.toList ((h.filter.toList ++ [h.body]).flatMap f)) ++
      final.toList.flatMap f ++ fault.toList.flatMap f
  | n => n.children.flatMap f

theorem Node.free_map (g : α → β) (f : β → List Variable) (n : Node α) : (n.map g).free f = n.free (f ∘ g) := by
  cases n
  case var => rfl
  case varSet => rfl
  case lambda => rfl
  case block => simp [Node.map, Node.free, List.flatMap_map, Function.comp_def]
  case tryCatch =>
    simp [Node.map, Node.free, Handler.map, Option.toList_map, List.flatMap_map, Function.comp_def]
  all_goals
    show (Node.children _).flatMap f = _
    rw [Node.children_map, List.flatMap_map]
    rfl

/-- The occurrences of variables that nothing around them binds. -/
def Tree.free (t : Tree) : List Variable := t.fold (Node.free Prod.snd)

namespace Tree

theorem free_mk (n : Node Tree) : (Tree.mk n).free = n.free Tree.free := by
  rw [free, fold_mk, Node.free_map]
  rfl

end Tree

theorem Node.mem_children_tryCatch {body : α} {handlers : List (Handler α)} {final fault : Option α} {ty : Ty} {c : α} :
    c ∈ (Node.tryCatch body handlers final fault ty).children ↔
      c = body ∨ (∃ h ∈ handlers, c ∈ h.filter.toList ++ [h.body]) ∨ c ∈ final.toList ∨
        c ∈ fault.toList := by
  rw [Node.children, List.mem_append, List.mem_append, List.mem_cons, List.mem_flatMap, or_assoc, or_assoc]

theorem Node.mem_children_switch {value : α} {cases : List (Case α)} {fallback : Option α} {ty : Ty} {c : α} :
    c ∈ (Node.switch value cases fallback ty).children ↔
      c = value ∨ (∃ k ∈ cases, c ∈ k.tests ++ [k.body]) ∨ c ∈ fallback.toList := by
  rw [Node.children, List.mem_append, List.mem_cons, List.mem_flatMap, or_assoc]

/-- What is free in a layer occurs in it, or is free in a child. -/
theorem Node.mem_free {f : α → List Variable} {n : Node α} {v : Variable} (h : v ∈ n.free f) :
    v ∈ n.variables ∨ ∃ c ∈ n.children, v ∈ f c := by
  cases n
  case var => exact Or.inl h
  case varSet => exact Or.inl h
  case lambda sig body =>
    exact Or.inr ⟨body, List.mem_singleton_self _, (Variable.mem_outside.mp h).1⟩
  case block vars body ty =>
    exact Or.inr (List.mem_flatMap.mp (Variable.mem_outside.mp h).1)
  case tryCatch body handlers final fault ty =>
    right
    rw [Node.free, List.mem_append, List.mem_append, List.mem_append] at h
    rcases h with ((h | h) | h) | h
    · exact ⟨body, Node.mem_children_tryCatch.mpr (Or.inl rfl), h⟩
    · obtain ⟨k, hk, h⟩ := List.mem_flatMap.mp h
      obtain ⟨c, hc, h⟩ := List.mem_flatMap.mp (Variable.mem_outside.mp h).1
      exact ⟨c, Node.mem_children_tryCatch.mpr (Or.inr (Or.inl ⟨k, hk, hc⟩)), h⟩
    · obtain ⟨c, hc, h⟩ := List.mem_flatMap.mp h
      exact ⟨c, Node.mem_children_tryCatch.mpr (Or.inr (Or.inr (Or.inl hc))), h⟩
    · obtain ⟨c, hc, h⟩ := List.mem_flatMap.mp h
      exact ⟨c, Node.mem_children_tryCatch.mpr (Or.inr (Or.inr (Or.inr hc))), h⟩
  all_goals exact Or.inr (List.mem_flatMap.mp h)

namespace Tree

theorem free_subset_variables (t : Tree) : t.free ⊆ t.variables := by
  induction t using Tree.induction with
  | step n ih =>
    intro v hv
    rw [free_mk] at hv
    rw [mem_variables_mk]
    rcases Node.mem_free hv with hv | ⟨c, hc, hv⟩
    · exact Or.inl hv
    · exact Or.inr ⟨c, hc, ih c hc hv⟩

end Tree

/-! ## The search for free variables -/

theorem anyM_map (m : α → β) (f : β → Search Bool) (as : List α) : (as.map m).anyM f = as.anyM (f ∘ m) := by
  induction as with
  | nil => rfl
  | cons a as ih =>
    rw [List.map_cons, List.anyM, List.anyM, ih]
    rfl

theorem Node.usesUnbound_map (g : α → β) (f : β → Search Bool) (n : Node α) :
    (n.map g).usesUnbound f = n.usesUnbound (f ∘ g) := by
  cases n
  case var => rfl
  case varSet => rfl
  case lambda => rfl
  case block => simp [Node.map, Node.usesUnbound, anyM_map]
  case tryCatch =>
    simp [Node.map, Node.usesUnbound, Handler.map, Option.toList_map, anyM_map, Function.comp_def]
  all_goals
    show (Node.children _).anyM f = _
    rw [Node.children_map, anyM_map]
    rfl

theorem Tree.usesUnbound_mk (n : Node Tree) : (Tree.mk n).usesUnbound = n.usesUnbound Tree.usesUnbound := by
  rw [usesUnbound, fold_mk, Node.usesUnbound_map]
  rfl

namespace Search

/-- A search *answers* for a list of variables when it tells whether one of them is not on the stack, and leaves the
stack as it was. -/
def Answers (search : Search Bool) (vs : List Variable) : Prop :=
  ∀ bound, search.run bound = (vs.any fun v => !bound.contains v.id, bound)

variable {x y : Search Bool} {vs ws : List Variable}

/-- Only the variables matter, and not their order. -/
theorem Answers.congr (h : Answers x vs) (hvs : ∀ v, v ∈ vs ↔ v ∈ ws) : Answers x ws := by
  intro bound
  have hany : (vs.any fun v => !bound.contains v.id) = ws.any fun v => !bound.contains v.id := by
    rw [Bool.eq_iff_iff, List.any_eq_true, List.any_eq_true]
    simp only [hvs]
  rw [← hany]
  exact h bound

/-- The second search is made when the first has found nothing, from the same stack. -/
theorem Answers.or (hx : Answers x vs) (hy : Answers y ws) : Answers (x <||> y) (vs ++ ws) := by
  intro bound
  have hrun : (x <||> y).run bound =
      match x.run bound with
      | (true, bound') => (true, bound')
      | (false, bound') => y.run bound' := by
    show (match toBool (x.run bound).1 with
      | true => pure (x.run bound).1
      | false => y : Search Bool).run (x.run bound).2 = _
    rcases x.run bound with ⟨found, bound'⟩
    cases found <;> rfl
  rw [hrun, hx bound, List.any_append]
  cases vs.any fun v => !bound.contains v.id with
  | true => rfl
  | false => exact hy bound

theorem Answers.anyM {f : α → Search Bool} {g : α → List Variable} {as : List α}
    (h : ∀ a ∈ as, Answers (f a) (g a)) : Answers (as.anyM f) (as.flatMap g) := by
  induction as with
  | nil => exact fun bound => rfl
  | cons a as ih =>
    rw [List.forall_mem_cons] at h
    have hanyM : (a :: as).anyM f = (f a <||> as.anyM f) := by
      refine bind_congr fun found => ?_
      cases found <;> rfl
    rw [hanyM]
    exact h.1.or (ih h.2)

/-- What is pushed for a search is bound in it, and is taken off the stack again wherever the search has stopped. -/
theorem Answers.under (h : Answers x ws) (vs : List Variable) : Answers (.under vs x) (Variable.outside vs ws) := by
  intro bound
  have hrun : (Search.under vs x).run bound =
      ((x.run (bound ++ vs.map (·.id))).1, (x.run (bound ++ vs.map (·.id))).2.take bound.length) := rfl
  have hany : ((Variable.outside vs ws).any fun v => !bound.contains v.id) =
      ws.any fun v => !(bound ++ vs.map (·.id)).contains v.id := by
    simp [Variable.outside, List.any_filter, Bool.and_comm]
  rw [hrun, h, hany, List.take_left]

end Search

open Search (Answers)

/-- The search of a handler goes through its body before its filter. -/
theorem Node.usesUnbound_answers {n : Node Tree} (h : ∀ c ∈ n.children, Answers c.usesUnbound c.free) :
    Answers (n.usesUnbound Tree.usesUnbound) (n.free Tree.free) := by
  have hchildren : ∀ cs ⊆ n.children, Answers (cs.anyM Tree.usesUnbound) (cs.flatMap Tree.free) :=
    fun cs hcs => .anyM fun c hc => h c (hcs hc)
  cases n
  case var v => exact fun bound => by simp [Node.usesUnbound, Node.free]; rfl
  case varSet set => exact fun bound => rfl
  case lambda sig body => exact (h body (List.mem_singleton_self _)).under sig.params
  case block vars body ty => exact (hchildren body (List.Subset.refl _)).under vars
  case tryCatch body handlers final fault ty =>
    have hmem : ∀ {c}, _ → c ∈ (Node.tryCatch body handlers final fault ty).children := Node.mem_children_tryCatch.mpr
    have hbody := h body (hmem (Or.inl rfl))
    have hfinal := hchildren final.toList fun c hc => hmem (Or.inr (Or.inr (Or.inl hc)))
    have hfault := hchildren fault.toList fun c hc => hmem (Or.inr (Or.inr (Or.inr hc)))
    have hhandlers : Answers (handlers.anyM fun k => .under k.caught.toList
          (k.body.usesUnbound <||> k.filter.toList.anyM Tree.usesUnbound))
        (handlers.flatMap fun k => Variable.outside k.caught.toList
          (k.body.free ++ k.filter.toList.flatMap Tree.free)) := by
      refine .anyM fun k hk => .under (.or ?_ ?_) _
      · exact h _ (hmem (Or.inr (Or.inl ⟨k, hk, by simp⟩)))
      · exact hchildren _ fun c hc => hmem (Or.inr (Or.inl ⟨k, hk, List.mem_append_left _ hc⟩))
    refine (hbody.or (hfinal.or (hfault.or hhandlers))).congr fun v => ?_
    simp only [Node.free, List.mem_append, List.mem_flatMap, Variable.mem_outside, List.flatMap_append,
      List.flatMap_singleton]
    grind
  all_goals exact hchildren _ (List.Subset.refl _)

theorem Tree.usesUnbound_answers (t : Tree) : Answers t.usesUnbound t.free := by
  induction t using Tree.induction with
  | step n ih =>
    rw [usesUnbound_mk, free_mk]
    exact Node.usesUnbound_answers ih

theorem Signature.captures_eq (sig : Signature) (body : Tree) :
    sig.captures body = body.free.any fun v => !(sig.params.map (·.id)).contains v.id := by
  rw [captures, body.usesUnbound_answers]

/-- What is free in the body of a lambda that captures nothing is a parameter of it. -/
theorem Signature.mem_params_of_free {sig : Signature} {body : Tree} (h : sig.captures body = false)
    {v : Variable} (hv : v ∈ body.free) : v.id ∈ sig.params.map (·.id) := by
  rw [captures_eq, List.any_eq_false] at h
  simpa using h v hv

/-- **A lambda captures something exactly when it has a free variable.** The search leaves the stack of the variables
in scope as it found it, whatever the tree and the stack are, and whether it has found something or not. -/
theorem Signature.captures_iff_free (sig : Signature) (body : Tree) :
    (sig.captures body = true ↔ (Tree.mk (.lambda sig body)).free ≠ []) ∧
      ∀ (t : Tree) (bound : List Ident), (t.usesUnbound.run bound).2 = bound := by
  refine ⟨?_, fun t bound => congrArg Prod.snd (t.usesUnbound_answers bound)⟩
  have hfree : (∃ v ∈ body.free, (!(sig.params.map (·.id)).contains v.id) = true) ↔
      ∃ v, v ∈ (Tree.mk (.lambda sig body)).free := by
    refine exists_congr fun v => ?_
    rw [Tree.free_mk, Node.free, Variable.mem_outside, Bool.not_eq_true', ← Bool.not_eq_true, List.contains_iff_mem]
  rw [captures_eq, List.any_eq_true, hfree]
  constructor
  · rintro ⟨v, hv⟩
    exact List.ne_nil_of_mem hv
  · exact List.exists_mem_of_ne_nil _

/-! ## Copies -/

/-- The arguments that a late-bound operation does not write. -/
def LateBound.unread (op : LateBound) (args : List α) : List α :=
  match op with
  | .convert _ | .getMember _ | .deleteMember _ | .unaryOperation _ => args.drop 1
  | .setMember _ | .binaryOperation _ => args.drop 2
  | _ => []

/-- The children of a layer that writing it may copy: the value of a label, the value of a jump that is not
a `return` and has no effect, and the arguments that a late-bound operation does not write. -/
def Node.spares : Node Tree → List Tree
  | .label _ value => value.toList
  | .jump kind _ value _ =>
    if kind = .returnTo then [] else value.toList.filter (!·.node.isEffect)
  | .dynamic op args _ => op.unread args
  | _ => []

/-- The variables of a layer that writing it copies, or may copy. -/
def Node.copies : Node Tree → List Variable
  | .varSet set => set.members
  | n => n.spares.flatMap Tree.variables

/-- The variables that writing a tree copies, or may copy. -/
def Tree.copied (t : Tree) : List Variable := t.subtrees.flatMap (·.node.copies)

theorem Tree.mem_copied_of_spares {p t c : Tree} {v : Variable} (hp : p ∈ t.subtrees)
    (hc : c ∈ p.node.spares) (hv : v ∈ c.variables) : v ∈ t.copied := by
  refine List.mem_flatMap.mpr ⟨p, hp, ?_⟩
  obtain ⟨n⟩ := p
  cases n <;> first | exact List.mem_flatMap.mpr ⟨c, hc, hv⟩ | cases hc

end Scribe
