import Mathlib.Data.List.Forall2
import Scribe.Proofs.Tree.Respanned
import Scribe.Proofs.Tree.Scope
import Scribe.Writing.Jump

/-!
# What a tree becomes

The tree that stands in a script differs from the tree that was written. `Tree.Becomes` says in which ways:
variables have names, statements have sequence points or are dropped, a lambda may be the method of an equal
lambda that was moved earlier, and some parts are copies.

Variables keep their binders on the way. An occurrence that is free in the result is the new form of one
that was free before, or a nameless variable in a copy (`Tree.Becomes.free`), and nothing but a copy holds
nameless variables (`Tree.Becomes.named`).
-/

namespace Scribe

variable {α β : Type}

/-! ## Variables -/

/-- `w` is what stands in the tree for `v`. -/
def Variable.Written (v w : Variable) : Prop := ∃ name, w = v.written name

namespace Variable.Written

variable {v w x : Variable}

theorem self (h : v.name ≠ none) : v.Written v := by
  refine ⟨"", ?_⟩
  unfold written
  split
  · rfl
  · next hnone => exact absurd hnone h

theorem named (h : v.Written w) : w.name ≠ none := by
  obtain ⟨name, rfl⟩ := h
  unfold written
  split
  · next hsome => simp [hsome]
  · simp

theorem id_eq (hw : v.Written w) (hx : v.Written x) : w.id = x.id := by
  obtain ⟨name, rfl⟩ := hw
  obtain ⟨name', rfl⟩ := hx
  unfold written
  split <;> rfl

end Variable.Written

/-- Elements of related lists have counterparts. -/
theorem exists_of_mem_forall₂ {R : α → β → Prop} {as : List α} {bs : List β} (h : List.Forall₂ R as bs) :
    (∀ b ∈ bs, ∃ a ∈ as, R a b) ∧ ∀ a ∈ as, ∃ b ∈ bs, R a b := by
  induction h with
  | nil => exact ⟨nofun, nofun⟩
  | @cons a b as bs hab _ ih =>
    constructor
    · rw [List.forall_mem_cons]
      refine ⟨⟨a, List.mem_cons_self, hab⟩, fun b hb => ?_⟩
      obtain ⟨a', ha', hR⟩ := ih.1 b hb
      exact ⟨a', List.mem_cons_of_mem _ ha', hR⟩
    · rw [List.forall_mem_cons]
      refine ⟨⟨b, List.mem_cons_self, hab⟩, fun a ha => ?_⟩
      obtain ⟨b', hb', hR⟩ := ih.2 a ha
      exact ⟨b', List.mem_cons_of_mem _ hb', hR⟩

/-! ## Layers -/

/-- A layer without variables and jumps. -/
def Node.isPlain : Node α → Bool
  | .var _ | .varSet _ | .lambda _ _ | .block _ _ _ | .tryCatch _ _ _ _ _ | .jump _ _ _ _ => false
  | _ => true

/-- The same handler, with what stands for its variable. -/
structure Handler.Written (h k : Handler α) : Prop where
  test : k.test = h.test
  caught : List.Forall₂ Variable.Written h.caught.toList k.caught.toList
  filter : k.filter = h.filter
  body : k.body = h.body

/-- The same layer, with what stands for its variables. -/
inductive Node.Written : Node α → Node α → Prop where
  | var {v w : Variable} : v.Written w → Written (.var v) (.var w)
  | lambda {sig : Signature} {params : List Variable} (id : Ident) (name : Option String) (body : α) :
      List.Forall₂ Variable.Written sig.params params →
      Written (.lambda sig body) (.lambda { id, name, params, result := sig.result } body)
  | tryCatch (body : α) {handlers handlers' : List (Handler α)} (final fault : Option α) (ty : Ty) :
      List.Forall₂ Handler.Written handlers handlers' →
      Written (.tryCatch body handlers final fault ty) (.tryCatch body handlers' final fault ty)
  | jump (kind : JumpKind) (target : Label) (value : Option α) (ty : Ty) :
      Written (.jump kind target value ty) (.jump kind target value .void)
  | plain {n : Node α} : n.isPlain = true → Written n n

theorem Node.Written.children {n m : Node α} (h : n.Written m) : m.children = n.children := by
  cases h with
  | var _ | lambda _ _ _ _ => rfl
  | tryCatch body final fault ty hs =>
    have hflat : ∀ {hs ks : List (Handler α)}, List.Forall₂ Handler.Written hs ks →
        (ks.flatMap fun k => k.filter.toList ++ [k.body]) = hs.flatMap fun h => h.filter.toList ++ [h.body] := by
      intro hs ks h
      induction h with
      | nil => rfl
      | cons hk _ ih => rw [List.flatMap_cons, List.flatMap_cons, ih, hk.filter, hk.body]
    rw [Node.children, Node.children, hflat hs]
  | jump _ _ _ _ | plain _ => rfl

theorem Node.Written.named {n m : Node α} (h : n.Written m) : ∀ w ∈ m.variables, w.name ≠ none := by
  cases h with
  | var hv =>
    intro w hw
    rw [List.mem_singleton.mp hw]
    exact hv.named
  | lambda _ _ _ hparams =>
    intro w hw
    obtain ⟨v, -, hvw⟩ := (exists_of_mem_forall₂ hparams).1 w hw
    exact hvw.named
  | tryCatch _ _ _ _ hs =>
    intro w hw
    obtain ⟨k, hk, hw⟩ := List.mem_flatMap.mp hw
    obtain ⟨h, -, hhk⟩ := (exists_of_mem_forall₂ hs).1 k hk
    obtain ⟨v, -, hvw⟩ := (exists_of_mem_forall₂ hhk.caught).1 w hw
    exact hvw.named
  | jump _ _ _ _ => exact nofun
  | @plain n hplain => cases n <;> first | (cases hplain; done) | exact nofun

/-- What stands for the variables of a layer does not depend on what it holds. -/
theorem Node.Written.map {n m : Node α} (h : n.Written m) (f : α → β) : (n.map f).Written (m.map f) := by
  cases h with
  | var hv => exact .var hv
  | lambda id name body hparams => exact .lambda id name (f body) hparams
  | tryCatch body final fault ty hs =>
    refine .tryCatch (f body) (final.map f) (fault.map f) ty ?_
    rw [List.forall₂_map_left_iff, List.forall₂_map_right_iff]
    refine hs.imp fun h k hk => ⟨hk.test, hk.caught, ?_, ?_⟩
    · exact congrArg (Option.map f) hk.filter
    · exact congrArg f hk.body
  | jump kind target value ty => exact .jump kind target (value.map f) ty
  | @plain n hplain =>
    refine .plain ?_
    cases n <;> first | rfl | cases hplain

/-! ## Trees -/

/-- A sequence point. -/
def Tree.IsPoint (t : Tree) : Prop := ∃ document span, t = .mk (.sequencePoint document span)

/-- A statement of a block and what it has become: nothing, or a tree, perhaps behind a sequence point. -/
structure Line where
  source : Tree
  point : Option Tree := none
  result : Option Tree

/-- What stands in the block for the statement. -/
def Line.trees (l : Line) : List Tree :=
  match l.result with
  | none => []
  | some u => l.point.toList ++ [u]

theorem Line.mem_trees {l : Line} {u : Tree} (h : u ∈ l.trees) : u ∈ l.point ∨ u ∈ l.result := by
  unfold trees at h
  split at h
  · cases h
  · next v hv =>
    rcases List.mem_append.mp h with h | h
    · exact Or.inl (Option.mem_toList.mp h)
    · rw [List.mem_singleton.mp h]
      exact Or.inr hv

namespace Tree

/-- What `t` may become, when it is written as a part of `whole`. -/
inductive Becomes (whole : Tree) : Tree → Tree → Prop where
  | layer {n m : Node (Tree × Tree)} : n.Written m → (∀ p ∈ n.children, Becomes whole p.1 p.2) →
      Becomes whole (.mk (n.map Prod.fst)) (.mk (m.map Prod.snd))
  | block {vs ws : List Variable} (lines : List Line) (ty : Ty) :
      List.Forall₂ Variable.Written vs ws → (∀ l ∈ lines, ∀ u ∈ l.point, u.IsPoint) →
      (∀ l ∈ lines, l.result = none → l.source.isEmpty = true ∨ l.source.IsPoint) →
      (∀ l ∈ lines, ∀ u ∈ l.result, Becomes whole l.source u) →
      Becomes whole (.mk (.block vs (lines.map (·.source)) ty)) (.mk (.block ws (lines.flatMap Line.trees) ty))
  /-- What has neither parts nor variables may stay as it is. -/
  | leaf {n : Node Tree} : n.children = [] → n.variables = [] → Becomes whole (.mk n) (.mk n)
  /-- A missing value is filled in. -/
  | jumpDefault (kind : JumpKind) (target : Label) (ty valueTy : Ty) :
      Becomes whole (.mk (.jump kind target none ty)) (.jump kind target (some (.defaultOf valueTy)))
  /-- A missing value is filled in. -/
  | labelDefault (target : Label) (valueTy : Ty) :
      Becomes whole (.mk (.label target none)) (.mk (.label target (some (.defaultOf valueTy))))
  /-- A test or a body with a sequence point of its own. -/
  | marked {t u point : Tree} : point.IsPoint → Becomes whole t u → Becomes whole t (.block [] [point, u])
  /-- A body that was a sequence point. -/
  | dropped {t : Tree} : t.IsPoint → Becomes whole t (.block [] [])
  /-- A lambda that was moved earlier. -/
  | moved {sig sig' : Signature} {body body' u : Tree} : sig.captures body = false →
      sig'.captures body' = false → sig'.id = sig.id → Tree.mk (.lambda sig' body') ∈ whole.subtrees →
      Becomes whole (.mk (.lambda sig' body')) u → Becomes whole (.mk (.lambda sig body)) u
  | varSet (set : VariableSet) : Becomes whole (.mk (.varSet set)) (.mk (.varSet set))
  | copied {p t : Tree} : p ∈ whole.subtrees → t ∈ p.node.spares → Becomes whole t t

variable {whole t u : Tree}

theorem Becomes.plain (n : Node (Tree × Tree)) (h : n.isPlain = true) (hc : ∀ p ∈ n.children, Becomes whole p.1 p.2) :
    Becomes whole (.mk (n.map Prod.fst)) (.mk (n.map Prod.snd)) :=
  .layer (.plain h) hc

/-- What is known of a lambda that was moved. -/
def Moved (whole : Tree) (id : Ident) (u : Tree) : Prop :=
  ∃ sig body, sig.id = id ∧ sig.captures body = false ∧ Tree.mk (.lambda sig body) ∈ whole.subtrees ∧
    whole.Becomes (.mk (.lambda sig body)) u

/-! ## Trees that stay as they are -/

theorem mk_node (t : Tree) : Tree.mk t.node = t := by
  cases t
  rfl

theorem Becomes.of_isOmitted {isDiscarded : Bool} (h : t.isOmitted isDiscarded = true) : whole.Becomes t t := by
  unfold isOmitted at h
  split at h
  · next ty hnode =>
    rw [← t.mk_node, hnode]
    exact .leaf rfl rfl
  · cases h

theorem Becomes.of_isEmpty (h : t.isEmpty = true) : whole.Becomes t t := by
  unfold isEmpty at h
  split at h
  · next ty hnode =>
    rw [← t.mk_node, hnode]
    exact .leaf rfl rfl
  · cases h

theorem Becomes.of_leavesLoop {exit : Option Label} (h : t.leavesLoop exit = true) : whole.Becomes t t := by
  unfold leavesLoop at h
  split at h
  · next kind target ty hnode =>
    rw [← t.mk_node, hnode]
    exact .leaf rfl rfl
  · cases h

/-- The value of a label may be copied. -/
theorem Becomes.of_label {target : Label} {value : Option Tree} (h : Tree.mk (.label target value) ∈ whole.subtrees) :
    whole.Becomes (.mk (.label target value)) (.mk (.label target value)) := by
  cases value with
  | none => exact .leaf rfl rfl
  | some t =>
    have hcopy : whole.Becomes t t := .copied h (List.mem_singleton_self t)
    exact .plain (.label target (some (t, t))) rfl (by simp [Node.children, hcopy])

end Tree

/-! ## Lists of statements -/

section Lines

variable {whole t u : Tree} {ts us : List Tree}

/-- The line says what its statement may become. -/
structure Line.Fits (whole : Tree) (l : Line) : Prop where
  point : ∀ u ∈ l.point, u.IsPoint
  missing : l.result = none → l.source.isEmpty = true ∨ l.source.IsPoint
  result : ∀ u ∈ l.result, whole.Becomes l.source u

/-- A line for the statement `t`. -/
abbrev IsLine (whole t : Tree) (us : List Tree) : Prop :=
  ∃ l : Line, l.source = t ∧ l.trees = us ∧ l.Fits whole

theorem IsLine.some {point : Option Tree} (hpoint : ∀ q ∈ point, q.IsPoint) (h : whole.Becomes t u) :
    IsLine whole t (point.toList ++ [u]) := by
  refine ⟨{ source := t, point, result := .some u }, rfl, rfl, hpoint, nofun, ?_⟩
  rintro _ ⟨⟩
  exact h

theorem IsLine.none (h : t.isEmpty = true ∨ t.IsPoint) : IsLine whole t [] :=
  ⟨{ source := t, result := .none }, rfl, rfl, nofun, fun _ => h, nofun⟩

/-- The trees `us` are what the statements `ts` may become, in the same order. -/
def BecomeLines (whole : Tree) (ts us : List Tree) : Prop :=
  ∃ lines : List Line, lines.map (·.source) = ts ∧ lines.flatMap Line.trees = us ∧
    ∀ l ∈ lines, l.Fits whole

theorem BecomeLines.nil : BecomeLines whole [] [] := ⟨[], rfl, rfl, nofun⟩

theorem BecomeLines.cons {vs : List Tree} (h : IsLine whole t us) (hs : BecomeLines whole ts vs) :
    BecomeLines whole (t :: ts) (us ++ vs) := by
  obtain ⟨l, rfl, rfl, hl⟩ := h
  obtain ⟨lines, rfl, rfl, hall⟩ := hs
  exact ⟨l :: lines, rfl, rfl, List.forall_mem_cons.mpr ⟨hl, hall⟩⟩

/-- A block with what stands for its variables and its statements. -/
theorem BecomeLines.block {vs ws : List Variable} (ty : Ty) (hws : List.Forall₂ Variable.Written vs ws)
    (h : BecomeLines whole ts us) : whole.Becomes (.mk (.block vs ts ty)) (.mk (.block ws us ty)) := by
  obtain ⟨lines, rfl, rfl, hall⟩ := h
  exact .block lines ty hws (fun l hl => (hall l hl).point) (fun l hl => (hall l hl).missing)
    fun l hl => (hall l hl).result

theorem BecomeLines.ofStatements (h : BecomeLines whole [t] us) (hempty : t.isEmpty = false) :
    whole.Becomes t (Tree.ofStatements us) := by
  obtain ⟨lines, hsource, rfl, hall⟩ := h
  obtain ⟨l, rfl, rfl⟩ := List.map_eq_singleton_iff.mp hsource
  have hl := hall l (List.mem_singleton_self l)
  rw [List.flatMap_cons, List.flatMap_nil, List.append_nil]
  unfold Line.trees
  cases hresult : l.result with
  | none =>
    rcases hl.missing hresult with h | h
    · rw [hempty] at h
      cases h
    · exact .dropped h
  | some u =>
    have hu := hl.result u hresult
    cases hpoint : l.point with
    | none => exact hu
    | some q => exact .marked (hl.point q hpoint) hu

end Lines

/-! ## Scopes -/

section Scopes

variable {V : List Variable} (hV : ∀ v ∈ V, ∀ w ∈ V, v.id = w.id → v = w) {Q : Variable → Prop}

include hV

/-- What is free inside a binder and outside of it, before and after. -/
theorem Variable.free_outside {vs ws xs ys : List Variable} (hvs : vs ⊆ V) (hxs : xs ⊆ V)
    (hvw : List.Forall₂ Variable.Written vs ws) (h : ∀ y ∈ ys, (∃ x ∈ xs, x.Written y) ∨ Q y) :
    ∀ y ∈ outside ws ys, (∃ x ∈ outside vs xs, x.Written y) ∨ Q y := by
  intro y hy
  obtain ⟨hy, hout⟩ := mem_outside.mp hy
  rcases h y hy with ⟨x, hx, hxy⟩ | hQ
  · refine Or.inl ⟨x, mem_outside.mpr ⟨hx, fun hbound => hout ?_⟩, hxy⟩
    -- the binder of `x` is `x`, so its new form has the identity of `y`
    obtain ⟨v, hv, hid⟩ := List.mem_map.mp hbound
    have hvx : v = x := hV v (hvs hv) x (hxs hx) hid
    subst hvx
    obtain ⟨w, hw, hvw⟩ := (exists_of_mem_forall₂ hvw).2 v hv
    rw [hxy.id_eq hvw]
    exact List.mem_map_of_mem hw
  · exact Or.inr hQ

/-- What is free in a layer, before and after. -/
theorem Node.Written.free {n m : Node α} (h : n.Written m) {f g : α → List Variable} (hn : n.variables ⊆ V)
    (hf : ∀ c ∈ n.children, f c ⊆ V) (hc : ∀ c ∈ n.children, ∀ y ∈ g c, (∃ x ∈ f c, x.Written y) ∨ Q y) :
    ∀ y ∈ m.free g, (∃ x ∈ n.free f, x.Written y) ∨ Q y := by
  have hall : ∀ cs ⊆ n.children, ∀ y ∈ cs.flatMap g, (∃ x ∈ cs.flatMap f, x.Written y) ∨ Q y := by
    intro cs hcs y hy
    obtain ⟨c, hmem, hy⟩ := List.mem_flatMap.mp hy
    rcases hc c (hcs hmem) y hy with ⟨x, hx, hxy⟩ | hQ
    · exact Or.inl ⟨x, List.mem_flatMap.mpr ⟨c, hmem, hx⟩, hxy⟩
    · exact Or.inr hQ
  have hbound : ∀ cs ⊆ n.children, cs.flatMap f ⊆ V := by
    intro cs hcs x hx
    obtain ⟨c, hmem, hx⟩ := List.mem_flatMap.mp hx
    exact hf c (hcs hmem) hx
  cases h with
  | @var v w hv =>
    intro y hy
    rw [List.mem_singleton.mp hy]
    exact Or.inl ⟨v, List.mem_singleton_self v, hv⟩
  | lambda id name body hparams =>
    have hbody : body ∈ [body] := List.mem_singleton_self body
    exact Variable.free_outside hV hn (hf body hbody) hparams (hc body hbody)
  | @tryCatch body handlers handlers' final fault ty hs =>
    intro y hy
    rw [Node.free, List.mem_append, List.mem_append, List.mem_append] at hy
    simp only [Node.free, List.mem_append]
    rcases hy with ((hy | hy) | hy) | hy
    · rcases hc body (mem_children_tryCatch.mpr (Or.inl rfl)) y hy with ⟨x, hx, hxy⟩ | hQ
      · exact Or.inl ⟨x, Or.inl (Or.inl (Or.inl hx)), hxy⟩
      · exact Or.inr hQ
    · obtain ⟨k, hk, hy⟩ := List.mem_flatMap.mp hy
      obtain ⟨h, hh, hhk⟩ := (exists_of_mem_forall₂ hs).1 k hk
      have hsub : h.filter.toList ++ [h.body] ⊆
          (Node.tryCatch body handlers final fault ty).children :=
        fun c hc => mem_children_tryCatch.mpr (Or.inr (Or.inl ⟨h, hh, hc⟩))
      have hcaught : h.caught.toList ⊆ V := fun v hv => hn (List.mem_flatMap.mpr ⟨h, hh, hv⟩)
      rw [hhk.filter, hhk.body] at hy
      rcases Variable.free_outside hV hcaught (hbound _ hsub) hhk.caught (hall _ hsub) y hy with
        ⟨x, hx, hxy⟩ | hQ
      · exact Or.inl ⟨x, Or.inl (Or.inl (Or.inr (List.mem_flatMap.mpr ⟨h, hh, hx⟩))), hxy⟩
      · exact Or.inr hQ
    · rcases hall _ (fun c hc => mem_children_tryCatch.mpr (Or.inr (Or.inr (Or.inl hc)))) y hy with
        ⟨x, hx, hxy⟩ | hQ
      · exact Or.inl ⟨x, Or.inl (Or.inr hx), hxy⟩
      · exact Or.inr hQ
    · rcases hall _ (fun c hc => mem_children_tryCatch.mpr (Or.inr (Or.inr (Or.inr hc)))) y hy with
        ⟨x, hx, hxy⟩ | hQ
      · exact Or.inl ⟨x, Or.inr hx, hxy⟩
      · exact Or.inr hQ
  | jump kind target value ty => exact hall _ (List.Subset.refl _)
  | @plain n hplain =>
    have hfree : ∀ f : α → List Variable, n.free f = n.children.flatMap f := by
      intro f
      cases n <;> first | rfl | cases hplain
    rw [hfree, hfree]
    exact hall _ (List.Subset.refl _)

end Scopes

namespace Tree

variable {whole t u : Tree}

theorem IsPoint.free (h : t.IsPoint) : t.free = [] := by
  obtain ⟨document, span, rfl⟩ := h
  rfl

theorem IsPoint.variables (h : t.IsPoint) : t.variables = [] := by
  obtain ⟨document, span, rfl⟩ := h
  rfl

theorem free_block_nil (ts : List Tree) (ty : Option Ty) : (Tree.block [] ts ty).free = ts.flatMap Tree.free := by
  unfold Tree.block
  rw [free_mk, Node.free, Variable.outside]
  simp

theorem variables_block_nil {ts : List Tree} {ty : Option Ty} {v : Variable} :
    v ∈ (Tree.block [] ts ty).variables ↔ ∃ c ∈ ts, v ∈ c.variables := by
  unfold Tree.block
  rw [mem_variables_mk, Node.variables, Node.children]
  simp

/-- **Binders and occurrences are renamed together.** What is free in the result is the new form of what was
free before, or a nameless variable in a copy. -/
theorem Becomes.free (h : Becomes whole t u) (hwhole : whole.Coherent) (ht : t ∈ whole.subtrees) :
    ∀ w ∈ u.free, (∃ v ∈ t.free, v.Written w) ∨ (w.name = none ∧ w ∈ whole.copied) := by
  induction h with
  | @layer n m hnm _ ih =>
    have hchild : ∀ p ∈ n.children, p.1 ∈ whole.subtrees := by
      intro p hp
      refine mem_subtrees_child ht ?_
      rw [Node.children_map]
      exact List.mem_map_of_mem hp
    have hvars : n.variables ⊆ whole.variables := by
      intro v hv
      refine variables_subset ht (mem_variables_mk.mpr (Or.inl ?_))
      rw [Node.variables_map]
      exact hv
    rw [free_mk, free_mk, Node.free_map, Node.free_map]
    refine hnm.free hwhole hvars (fun p hp => ?_) fun p hp => ih p hp (hchild p hp)
    exact List.Subset.trans (free_subset_variables _) (variables_subset (hchild p hp))
  | @block vs ws lines ty hvw hpoint _ _ ih =>
    have hsource : ∀ l ∈ lines, l.source ∈ whole.subtrees :=
      fun l hl => mem_subtrees_child ht (List.mem_map_of_mem hl)
    rw [free_mk, free_mk]
    refine Variable.free_outside hwhole ?_ ?_ hvw ?_
    · exact fun v hv => variables_subset ht (mem_variables_mk.mpr (Or.inl hv))
    · intro v hv
      rw [List.flatMap_map] at hv
      obtain ⟨l, hl, hv⟩ := List.mem_flatMap.mp hv
      exact variables_subset (hsource l hl) (free_subset_variables _ hv)
    · intro w hw
      rw [List.flatMap_assoc] at hw
      obtain ⟨l, hl, hw⟩ := List.mem_flatMap.mp hw
      obtain ⟨u, hu, hw⟩ := List.mem_flatMap.mp hw
      rcases Line.mem_trees hu with hu | hu
      · rw [(hpoint l hl u hu).free] at hw
        cases hw
      · rcases ih l hl u hu (hsource l hl) w hw with ⟨v, hv, hvw⟩ | hQ
        · refine Or.inl ⟨v, ?_, hvw⟩
          rw [List.flatMap_map]
          exact List.mem_flatMap.mpr ⟨l, hl, hv⟩
        · exact Or.inr hQ
  | @leaf n hchildren hvars =>
    intro w hw
    rw [free_mk] at hw
    rcases Node.mem_free hw with hw | ⟨c, hc, -⟩
    · rw [hvars] at hw
      cases hw
    · rw [hchildren] at hc
      cases hc
  | jumpDefault _ _ _ _ | labelDefault _ _ => exact nofun
  | marked hpoint _ ih =>
    intro w hw
    rw [free_block_nil, List.flatMap_cons, hpoint.free, List.flatMap_cons, List.flatMap_nil,
      List.nil_append, List.append_nil] at hw
    exact ih ht w hw
  | dropped _ =>
    intro w hw
    rw [free_block_nil] at hw
    cases hw
  | @moved sig sig' body body' u _ hcaptures _ hmem _ ih =>
    intro w hw
    -- the lambda captures nothing, so that what is still free was copied into it
    rcases ih hmem w hw with ⟨v, hv, -⟩ | hQ
    · rw [free_mk] at hv
      obtain ⟨hv, hout⟩ := Variable.mem_outside.mp hv
      exact absurd (Signature.mem_params_of_free hcaptures hv) hout
    · exact Or.inr hQ
  | varSet set =>
    intro w hw
    by_cases hname : w.name = none
    · exact Or.inr ⟨hname, List.mem_flatMap.mpr ⟨_, ht, hw⟩⟩
    · exact Or.inl ⟨w, hw, .self hname⟩
  | copied hp hspared =>
    intro w hw
    by_cases hname : w.name = none
    · exact Or.inr ⟨hname, mem_copied_of_spares hp hspared (free_subset_variables _ hw)⟩
    · exact Or.inl ⟨w, hw, .self hname⟩

/-- **Nothing but a copy holds nameless variables.** -/
theorem Becomes.named (h : Becomes whole t u) (ht : t ∈ whole.subtrees) :
    ∀ w ∈ u.variables, w.name = none → w ∈ whole.copied := by
  induction h with
  | @layer n m hnm _ ih =>
    intro w hw hname
    rw [mem_variables_mk, Node.variables_map, Node.children_map, hnm.children] at hw
    rcases hw with hw | ⟨c, hc, hw⟩
    · exact absurd hname (hnm.named w hw)
    · obtain ⟨p, hp, rfl⟩ := List.mem_map.mp hc
      refine ih p hp (mem_subtrees_child ht ?_) w hw hname
      rw [Node.children_map]
      exact List.mem_map_of_mem hp
  | @block vs ws lines ty hvw hpoint _ _ ih =>
    intro w hw hname
    rcases mem_variables_mk.mp hw with hw | ⟨c, hc, hw⟩
    · obtain ⟨v, -, hv⟩ := (exists_of_mem_forall₂ hvw).1 w hw
      exact absurd hname hv.named
    · obtain ⟨l, hl, hc⟩ := List.mem_flatMap.mp hc
      rcases Line.mem_trees hc with hc | hc
      · rw [(hpoint l hl c hc).variables] at hw
        cases hw
      · exact ih l hl c hc (mem_subtrees_child ht (List.mem_map_of_mem hl)) w hw hname
  | @leaf n hchildren hvars =>
    intro w hw
    rw [mem_variables_mk, hchildren, hvars] at hw
    rcases hw with hw | ⟨c, hc, -⟩
    · cases hw
    · cases hc
  | jumpDefault _ _ _ _ | labelDefault _ _ => exact nofun
  | marked hpoint _ ih =>
    intro w hw
    obtain ⟨c, hc, hwc⟩ := variables_block_nil.mp hw
    rcases List.mem_cons.mp hc with rfl | hc
    · rw [hpoint.variables] at hwc
      cases hwc
    · rw [List.mem_singleton.mp hc] at hwc
      exact ih ht w hwc
  | dropped _ =>
    intro w hw
    obtain ⟨c, hc, -⟩ := variables_block_nil.mp hw
    cases hc
  | moved _ _ _ hmem _ ih => exact ih hmem
  | varSet set =>
    intro w hw _
    rcases mem_variables_mk.mp hw with hw | ⟨c, hc, -⟩
    · exact List.mem_flatMap.mpr ⟨_, ht, hw⟩
    · cases hc
  | copied hp hspared => exact fun w hw _ => mem_copied_of_spares hp hspared hw

end Tree

end Scribe
