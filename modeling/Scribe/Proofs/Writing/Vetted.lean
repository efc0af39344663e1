import Scribe.Proofs.Tree.Site
import Scribe.Proofs.Writing.Agree.Statement
import Scribe.Script.Basic

/-!
# Vetting what is written

A tree is written as ever, but whenever a node has been written it is checked, and writing stops with an error when the
check fails. The check knows the site of the node, its tail, and the drafts before and after it. When writing with
checks does the same as writing without, whatever the error is, every node passes: the tree *upholds* the check.

`Tree.upholds` is the induction for this. An invariant relates sites and drafts: it holds at the start, is steady, and
goes on to hold where a loop, a switch, a body with a fault handler or a function is entered. Then the check may be made
under the assumption that the invariant holds where the node is written.
-/

namespace Scribe

open Writing
open Draft (Steady Onward)
open Variants (left right)

/-- What is checked of a node: its site, the node, its tail, and the drafts before and after it is written. -/
abbrev Check := Site → Node Tree → Tail → Draft → Draft → Prop

open Classical in
/-- Fails with `err` when the drafts before and after a run do not pass. -/
noncomputable def Writing.vet (err : ScriptError) (passes : Draft → Draft → Prop) (x : Writing Tree) : Writing Tree :=
  fun desk d =>
    match x desk d with
    | .ok (t, e) => if passes d e then .ok (t, e) else .error err
    | .error err => .error err

theorem Writing.vet_of_passes {err : ScriptError} {passes : Draft → Draft → Prop} {x : Writing Tree} {desk : Desk}
    {d : Draft} (h : ∀ u e, x desk d = .ok (u, e) → passes d e) : vet err passes x desk d = x desk d := by
  unfold vet
  cases hx : x desk d with
  | error err => rfl
  | ok r => exact if_pos (h r.1 r.2 hx)

section Vetted

variable (check : Check) (err : ScriptError)

/-- The pieces of the children at their sites. -/
def Node.placed (n : Node (Tree × (Site → Rendition))) (s : Site) (flag : String) (inPlace : Bool) : Node Piece :=
  (n.sited Prod.fst s flag inPlace).map fun c => (c.1.1, c.1.2 c.2)

/-- The ways of writing a node with checks. -/
noncomputable def Node.vetted (n : Node (Tree × (Site → Rendition))) (s : Site) : Rendition where
  write tail := vet err (check s (n.map Prod.fst) tail) do
    let flag := ((← get).naming.fresh "fault").1
    (n.placed s flag (n.stays Prod.fst)).rendition.write tail
  branches := (n.placed s "" true).rendition.branches
  quoted := (n.placed s "" true).rendition.quoted

/-- The ways of writing a tree at a site, with checks. -/
noncomputable def Tree.vetted (t : Tree) : Site → Rendition := t.fold (Node.vetted check err)

/-- Writes a tree as a whole, with checks. -/
noncomputable def Tree.vetRoot (t : Tree) : Writing Tree :=
  match t.node with
  | .lambda sig body => entryMethod sig (body, body.vetted check err [])
  | _ => (t.vetted check err []).write .discard

end Vetted

/-- Everything that is written passes the check: it makes no difference whether there is one. -/
def Tree.Upholds (t : Tree) (desk : Desk) (check : Check) : Prop :=
  ∀ err, t.vetRoot check err desk { page := desk.firstPage } = t.draft desk

/-- What can be relied upon at a site. -/
structure Invariant (desk : Desk) (I : Site → Draft → Prop) : Prop where
  steady (s : Site) : Steady desk (I s)
  loop {s : Site} {d : Draft} (exit again : Option Label) :
    I s d → I (.loop exit again :: s) (d.enter (.loop exit again false false))
  switch {s : Site} {d : Draft} : I s d → I (.switch :: s) (d.enter .switch)
  guarded {s : Site} {d e : Draft} {body : Tree} : s.Around body → I s d →
    Onward desk { d with naming := (d.naming.fresh "fault").2 } e →
    I (.guarded (d.naming.fresh "fault").1 body :: s) (e.guard ⟨(d.naming.fresh "fault").1, body.labels⟩)
  function {s : Site} {d : Draft} : I s d → I [] { d with flow := {} }
  method {s : Site} {d : Draft} : I s d → I s (d.onMethodPage desk)

/-! ## Writing with checks and without -/

section Duplicates

variable (check : Check) (err : ScriptError)

theorem Tree.vetted_mk (n : Node Tree) (s : Site) :
    (Tree.mk n).vetted check err s = (n.map fun c => (c, c.vetted check err)).vetted check err s := by
  rw [vetted, fold_mk]
  rfl

/-- A tree with its ways of being written, without checks and with checks. -/
noncomputable def Tree.duplicate (t : Tree) (s : Site) : Variants Unit :=
  ⟨t, t.rendition, fun _ => t.vetted check err s⟩

/-- The children, each at its site. -/
noncomputable def Node.duplicates (n : Node Tree) (s : Site) (flag : String) (inPlace : Bool) : Node (Variants Unit) :=
  (n.sited id s flag inPlace).map fun c => c.1.duplicate check err c.2

variable (n : Node Tree) (s : Site) (flag : String) (inPlace : Bool)

theorem Node.map_left_duplicates : (n.duplicates check err s flag inPlace).map left = n.map Tree.piece := by
  have h : (left ∘ fun c : Tree × Site => c.1.duplicate check err c.2) = Tree.piece ∘ Prod.fst := rfl
  rw [duplicates, Node.map_map, h, ← Node.map_map, Node.map_sited]

theorem Node.map_right_duplicates (i : Unit) : (n.duplicates check err s flag inPlace).map (right i) =
    (n.map fun c => (c, c.vetted check err)).placed s flag inPlace := by
  rw [duplicates, placed, Node.sited_map, Node.map_map, Node.map_map]
  rfl

variable {n} in
/-- Most nodes write all of their children as values. -/
theorem Node.duplicates_of_writesValues (h : n.writesValues = true) :
    n.duplicates check err s flag inPlace = n.map fun c => c.duplicate check err (s.ofValue c) := by
  have hsited : n.sited id s flag inPlace = n.map fun c => (c, s.ofValue c) := by
    cases n <;> first | rfl | cases h
  rw [duplicates, hsited, Node.map_map]
  rfl

/-- From the draft `d`, the node is written in the same way with checks of its children as without. -/
def Node.SameFrom (desk : Desk) (tail : Tail) (d : Draft) : Prop :=
  let p := n.duplicates check err s (d.naming.fresh "fault").1 (n.stays id)
  (p.map (right ())).rendition.write tail desk d = (p.map left).rendition.write tail desk d

end Duplicates

/-- A tree is written at a site in the same way with checks as without. -/
structure Tree.Conforms (check : Check) (err : ScriptError) (desk : Desk) (I : Site → Draft → Prop) (t : Tree)
    (s : Site) : Prop where
  under : (t.duplicate check err s).AlikeUnder (Agree.likeness desk (I s)) s.Admits
  quoted : t.rendition.quoted = none ∧ (Unit → (t.vetted check err s).quoted = none) ∨
    ∃ x y, t.rendition.quoted = some x ∧ (∀ i : Unit, (t.vetted check err s).quoted = some (y i)) ∧
      Agree.likeness desk (I s) Tree x y

variable {check : Check} {err : ScriptError} {desk : Desk} {I : Site → Draft → Prop} (hI : Invariant desk I)

section Values

variable {t : Tree} {s : Site}

/-- An expression is written as a value in place. -/
theorem Tree.Conforms.expression (h : t.Conforms check err desk I s) (he : t.isExpression = true) :
    (t.duplicate check err s).Alike (Agree.likeness desk (I s)) where
  value := by
    have hleft : (t.duplicate check err s).left.value = (t.duplicate check err s).left.inline := if_pos he
    have hright (i : Unit) : ((t.duplicate check err s).right i).value = ((t.duplicate check err s).right i).inline :=
      if_pos he
    simp only [hleft, hright]
    exact h.under.write .discard s.admits_discard
  quoted := h.quoted

include hI

theorem Tree.Conforms.closure (h : t.Conforms check err desk I []) (he : t.isExpression ≠ true) :
    (t.duplicate check err []).Alike (Agree.likeness desk (I s)) where
  value := by
    have hleft : (t.duplicate check err []).left.value = (t.duplicate check err []).left.closure := if_neg he
    have hright (i : Unit) : ((t.duplicate check err []).right i).value = ((t.duplicate check err []).right i).closure :=
      if_neg he
    simp only [hleft, hright]
    exact closure_agree (hI.steady s) (fun _ => hI.function) (Tree.steps t) h.under (Site.admits_nil _)
  quoted := by
    rcases h.quoted with hnone | ⟨x, y, hsome, -⟩
    · exact .inl hnone
    · rw [quoted_of_not_isExpression he] at hsome
      cases hsome

theorem Tree.Conforms.value (h : t.Conforms check err desk I (s.ofValue t)) :
    (t.duplicate check err (s.ofValue t)).Alike (Agree.likeness desk (I s)) := by
  by_cases he : t.isExpression = true
  · have hs : s.ofValue t = s := if_pos he
    rw [hs] at h ⊢
    exact h.expression he
  · have hs : s.ofValue t = [] := if_neg he
    rw [hs] at h ⊢
    exact h.closure hI he

end Values

section Layers

variable {s : Site} {tail : Tail} {d : Draft}

/-- The body of a lambda: an expression in place belongs to the function around it, and anything else is a function. -/
theorem Tree.lambda_body {body : Tree} (ih : ∀ s : Site, s.Around body → body.Conforms check err desk I s)
    (haround : s.Around body) (inPlace : Bool) :
    let p := body.duplicate check err (if inPlace then s.ofValue body else [])
    (inPlace = true → body.isExpression = true → p.Alike (Agree.likeness desk (I s))) ∧
      (¬(inPlace = true ∧ body.isExpression = true) →
        p.AlikeUnder (Agree.likeness desk (I [])) (Site.Admits [])) := by
  constructor
  · rintro rfl he
    have hs : s.ofValue body = s := if_pos he
    rw [if_pos rfl, hs]
    exact (ih s haround).expression he
  · intro h
    have hs : (if inPlace then s.ofValue body else []) = [] := by
      split
      · next hin => exact if_neg fun he => h ⟨hin, he⟩
      · rfl
    rw [hs]
    exact (ih [] trivial).under

include hI

theorem Tree.arrow_agree {sig : Signature} {body : Tree}
    (ih : ∀ s : Site, s.Around body → body.Conforms check err desk I s) (haround : s.Around body) :
    Agree desk (I s) (arrow sig (body.duplicate check err (s.ofValue body)).left)
      (arrow sig ((body.duplicate check err (s.ofValue body)).right ())) (I s) := by
  obtain ⟨hvalue, hbody⟩ := Tree.lambda_body ih haround true
  exact Writing.arrow_agree (hI.steady s) (Site.admits_nil _) (hI.steady []) (fun _ => hI.function) (Tree.steps body)
    (hvalue rfl) (fun he => hbody fun h => he h.2) (Site.admits_nil _)

theorem Node.sameFrom_switch {value : Tree} {cases : List (Case Tree)} {fallback : Option Tree} {ty : Ty}
    (haround : s.Around (.mk (.switch value cases fallback ty)))
    (ih : ∀ c ∈ (Node.switch value cases fallback ty).children, ∀ s : Site, s.Around c → c.Conforms check err desk I s)
    (htail : s.Admits tail) (hd : I s d) : (Node.switch value cases fallback ty).SameFrom check err s desk tail d := by
  have hchild : ∀ {c}, _ → c ∈ (Node.switch value cases fallback ty).children := Node.mem_children_switch.mpr
  have hinner : ∀ c ∈ (Node.switch value cases fallback ty).children, Site.Around (.switch :: s) c :=
    fun c hc => haround.child hc
  have hvalue : (value.duplicate check err (s.ofValue value)).Alike (Agree.likeness desk (I s)) :=
    (ih value (hchild (.inl rfl)) _ (haround.child (hchild (.inl rfl))).ofValue).value hI
  refine (switch_agree (A := Site.Admits (.switch :: s)) (hI.steady s) (Site.admits_discard _)
    (hI.steady (.switch :: s)) (fun _ => hI.switch) (Tree.steps value) hvalue ?_ ?_ ?_ ?_ ty htail).same d hd
  · simp only [List.forall_mem_map, Case.map, Case.sited]
    exact fun k _ => ⟨fun c _ => Tree.steps c, Tree.steps k.body⟩
  · simp only [List.forall_mem_map, Case.map, Case.sited]
    intro k hk
    constructor
    · intro c hc
      have hc := hchild (.inr (.inl ⟨k, hk, List.mem_append_left _ hc⟩))
      exact (ih c hc _ (hinner c hc).ofValue).value hI
    · have hc := hchild (.inr (.inl ⟨k, hk, List.mem_append_right _ (List.mem_singleton_self _)⟩))
      exact (ih k.body hc _ (hinner _ hc)).under
  · simp only [Option.forall_mem_map]
    exact fun c _ => Tree.steps c
  · simp only [Option.forall_mem_map]
    intro c hc
    have hc := hchild (.inr (.inr (Option.mem_toList.mpr hc)))
    exact (ih c hc _ (hinner c hc)).under

theorem Node.sameFrom_tryCatch {body : Tree} {handlers : List (Handler Tree)} {final fault : Option Tree} {ty : Ty}
    (haround : s.Around (.mk (.tryCatch body handlers final fault ty)))
    (ih : ∀ c ∈ (Node.tryCatch body handlers final fault ty).children, ∀ s : Site, s.Around c →
      c.Conforms check err desk I s)
    (htail : s.Admits tail) (hd : I s d) :
    (Node.tryCatch body handlers final fault ty).SameFrom check err s desk tail d := by
  have hchild : ∀ {c}, _ → c ∈ (Node.tryCatch body handlers final fault ty).children :=
    Node.mem_children_tryCatch.mpr
  have hhere : ∀ c ∈ (Node.tryCatch body handlers final fault ty).children,
      (c.duplicate check err s).AlikeUnder (Agree.likeness desk (I s)) s.Admits :=
    fun c hc => (ih c hc s (haround.child hc)).under
  have hhandlers : ∀ h ∈ (handlers.map (Handler.sited id s)).map (Handler.map fun c => c.1.duplicate check err c.2),
      (∀ p ∈ h.filter, p.Alike (Agree.likeness desk (I s))) ∧
        h.body.AlikeUnder (Agree.likeness desk (I s)) s.Admits := by
    simp only [List.forall_mem_map, Option.forall_mem_map, Handler.map, Handler.sited]
    intro k hk
    constructor
    · intro c hc
      have hc := hchild (.inr (.inl ⟨k, hk, List.mem_append_left _ (Option.mem_toList.mpr hc)⟩))
      exact (ih c hc _ (haround.child hc).ofValue).value hI
    · exact hhere _ (hchild (.inr (.inl ⟨k, hk, List.mem_append_right _ (List.mem_singleton_self _)⟩)))
  have hfinal : ∀ p ∈ (final.map fun c => (c, s)).map fun c => c.1.duplicate check err c.2,
      p.AlikeUnder (Agree.likeness desk (I s)) s.Admits := by
    simp only [Option.forall_mem_map]
    exact fun c hc => hhere c (hchild (.inr (.inr (.inl (Option.mem_toList.mpr hc)))))
  cases fault with
  | none =>
    have hbody := hhere body (hchild (.inl rfl))
    exact (plainTry_agree (hI.steady s) s.admits_discard hhandlers hfinal hbody ty
      (Tail.atType_mem s.admits_discard htail ty)).same d hd
  | some fault =>
    -- the flag has its name before the body is written, so that no value is returned from inside
    have hkept : ∀ s : Site, ∀ tail, tail ≠ .result → s.Admits tail := fun _ _ => Site.admits_of_ne
    have hfault := (hhere fault (hchild (.inr (.inr (.inr (List.mem_singleton_self fault)))))).mono (hkept s)
    have hbody := (ih body (hchild (.inl rfl)) _
      ((haround.child (hchild (.inl rfl))).guarded (d.naming.fresh "fault").1)).under.mono (hkept _)
    exact tryCatch_same (hI.steady s) (by simp) (fun k hk => ⟨(hhandlers k hk).1, (hhandlers k hk).2.mono (hkept s)⟩)
      (fun p hp => (hfinal p hp).mono (hkept s)) hfault (fun _ h => h) (hI.steady _) (Tree.steps body) hbody hd
      (fun e he => hI.guarded (haround.child (hchild (.inl rfl))) hd he) ty tail

variable {n : Node Tree} (haround : s.Around (.mk n))
  (ih : ∀ c ∈ n.children, ∀ s : Site, s.Around c → c.Conforms check err desk I s)

include haround ih

/-- A layer, from a draft where the invariant holds. -/
theorem Node.sameFrom (htail : s.Admits tail) (hd : I s d) : n.SameFrom check err s desk tail d := by
  have hP := hI.steady s
  have hR := Agree.congruent hP
  have hA := s.admits_discard
  have hvalue : ∀ c ∈ n.children, (c.duplicate check err (s.ofValue c)).Alike (Agree.likeness desk (I s)) :=
    fun c hc => (ih c hc _ (haround.child hc).ofValue).value hI
  cases hplain : n.writesValues with
  | true =>
    have hvalues : ∀ p ∈ (n.map fun c => c.duplicate check err (s.ofValue c)).children,
        p.Alike (Agree.likeness desk (I s)) := by
      simp only [Node.children_map, List.forall_mem_map]
      exact hvalue
    unfold SameFrom
    rw [duplicates_of_writesValues check err s _ _ hplain]
    exact (hR.layer (by rwa [Node.writesValues_map]) (fun _ _ => trivial) (fun _ _ => Allowance.admits_all _) hvalues
      tail).same d hd
  | false =>
    cases n with
    | var v => rfl
    | lambda sig body =>
      have hbody := List.mem_singleton_self body
      obtain ⟨hvalue, hbody⟩ := Tree.lambda_body (ih body hbody) (haround.child hbody) (sig.captures body)
      exact (nestedLambda_agree hP (Site.admits_nil _) (hI.steady []) (fun _ => hI.function)
        (fun _ h => hI.function (hI.method h)) (Tree.steps body) hvalue hbody (Site.admits_nil _)).same d hd
    | conditional test ifTrue ifFalse ty =>
      have hchild : ∀ c ∈ [test, ifTrue, ifFalse], c.Conforms check err desk I s :=
        fun c hc => ih c hc s (haround.child hc)
      simp only [List.forall_mem_cons] at hchild
      exact (hR.conditional hA (hvalue test List.mem_cons_self) hchild.2.1.under hchild.2.2.1.under
        hchild.2.1.expression hchild.2.2.1.expression ty htail).same d hd
    | block vars body ty =>
      refine (block_agree hP hA vars ?_ ty htail).same d hd
      simp only [List.forall_mem_map]
      exact fun c hc => (ih c hc s (haround.child hc)).under
    | loop body exit again =>
      have hbody := List.mem_singleton_self body
      have hunder := (ih body hbody (.loop exit again :: s) (haround.child hbody)).under
      have hloop := loop_agree hP (Site.admits_discard _) (hI.steady _) hunder (Tree.steps body) exit again
        (fun _ => hI.loop exit again)
      exact (hloop tail).same d hd
    | jump kind target value ty =>
      refine (jump_agree hP kind target ?_).same d hd
      simp only [Option.forall_mem_map]
      exact fun c hc => hvalue c (Option.mem_toList.mpr hc)
    | switch value cases fallback ty => exact sameFrom_switch hI haround ih htail hd
    | tryCatch body handlers final fault ty => exact sameFrom_tryCatch hI haround ih htail hd
    | _ => contradiction

theorem Node.branches_duplicates (flag : String) : let p := n.duplicates check err s flag true
    (p.map left).rendition.branches = none ∧ (∀ i, (p.map (right i)).rendition.branches = none) ∨
      ∃ b b', (p.map left).rendition.branches = some b ∧ (∀ i, (p.map (right i)).rendition.branches = some (b' i)) ∧
        b.Alike (Agree.likeness desk (I s)) s.Admits b' := by
  cases n with
  | conditional test ifTrue ifFalse ty =>
    have hmem : ∀ c ∈ [test, ifTrue, ifFalse], s.Around c := fun c hc => haround.child hc
    simp only [Node.children, List.forall_mem_cons] at ih hmem
    exact .inr ((Agree.congruent (hI.steady s)).branches s.admits_discard ((ih.1 _ hmem.1.ofValue).value hI)
      (ih.2.1 s hmem.2.1).under (ih.2.2.1 s hmem.2.2.1).under ty)
  | _ => exact .inl ⟨rfl, fun _ => rfl⟩

theorem Node.quoted_duplicates (flag : String) : let p := n.duplicates check err s flag true
    (p.map left).rendition.quoted = none ∧ (∀ i, (p.map (right i)).rendition.quoted = none) ∨
      ∃ x y, (p.map left).rendition.quoted = some x ∧ (∀ i, (p.map (right i)).rendition.quoted = some (y i)) ∧
        Agree.likeness desk (I s) Tree x y := by
  cases n with
  | lambda sig body =>
    have hbody : body ∈ (Node.lambda sig body).children := List.mem_singleton_self body
    exact .inr ⟨_, _, rfl, fun _ => rfl, Tree.arrow_agree hI (ih body hbody) (haround.child hbody)⟩
  | _ => exact .inl ⟨rfl, fun _ => rfl⟩

/-- A layer whose writing passes the check. -/
theorem Node.conforms (hpasses : ∀ tail d u e, s.Admits tail → I s d →
    (Tree.mk n).piece.write tail desk d = .ok (u, e) → check s n tail d e) :
    (Tree.mk n).Conforms check err desk I s := by
  have hrendition : (Tree.mk n).rendition = (n.map Tree.piece).rendition := congrArg Prod.snd (Tree.piece_mk n)
  have hsteps : (Tree.mk n).piece.Steps desk := Tree.steps _
  refine ⟨⟨fun tail htail => ⟨fun d hd => ?_, (hsteps.write tail).takes (hI.steady s).stable⟩, ?_⟩, ?_⟩
  · have hsame := sameFrom hI haround ih htail hd
    simp only [SameFrom, map_left_duplicates, map_right_duplicates] at hsame
    have htrees : (n.map fun c => (c, c.vetted check err)).map Prod.fst = n := map_undo (fun _ => rfl) n
    have hpiece : (Tree.mk n).piece.write tail = (n.map Tree.piece).rendition.write tail :=
      congrArg (fun r : Rendition => r.write tail) hrendition
    show ((Tree.mk n).vetted check err s).write tail desk d = (Tree.mk n).piece.write tail desk d
    rw [Tree.vetted_mk, vetted, htrees, stays_map, hpiece, ← hsame]
    refine vet_of_passes fun u e hrun => hpasses tail d u e htail hd ?_
    rw [hpiece, ← hsame]
    exact hrun
  · have hbranches := branches_duplicates hI haround ih ""
    simp only [map_left_duplicates, map_right_duplicates] at hbranches
    simp only [Tree.duplicate, hrendition, Tree.vetted_mk]
    exact hbranches
  · have hquoted := quoted_duplicates hI haround ih ""
    simp only [map_left_duplicates, map_right_duplicates] at hquoted
    simp only [hrendition, Tree.vetted_mk]
    exact hquoted

end Layers

/-! ## Trees -/

section Trees

include hI

variable (hpass : ∀ {s n tail d u e}, s.Around (.mk n) → s.Admits tail → I s d →
  (Tree.mk n).piece.write tail desk d = .ok (u, e) → check s n tail d e)
include hpass

theorem Tree.conforms (t : Tree) : ∀ s : Site, s.Around t → t.Conforms check err desk I s := by
  induction t using Tree.induction with
  | step n ih =>
    intro s haround
    exact Node.conforms hI haround ih fun tail d u e htail hd hrun => hpass haround htail hd hrun

/-- A tree upholds a check that is passed wherever the invariant holds. -/
theorem Tree.upholds (t : Tree) (hstart : I [] { page := desk.firstPage }) : t.Upholds desk check := by
  intro err
  have hroot (t : Tree) : t.Conforms check err desk I [] := Tree.conforms hI hpass t [] (Site.around_nil t)
  have hexpression : (t.vetted check err []).write .discard desk { page := desk.firstPage }
      = t.rendition.write .discard desk { page := desk.firstPage } :=
    ((hroot t).under.write .discard (Site.admits_discard [])).same _ hstart
  unfold vetRoot draft writeRoot
  cases t.node with
  | lambda sig body =>
    have hbody : (body.duplicate check err []).AlikeUnder (Agree.likeness desk (I [])) (Site.Admits []) :=
      (hroot body).under
    have hmethod : Agree desk (I []) (entryMethod sig body.piece)
        (entryMethod sig (body, body.vetted check err [])) (I []) :=
      .read_bind (method_agree (hI.steady []) (Site.admits_discard []) hbody (Site.admits_nil _) _ _ _)
    exact hmethod.same _ hstart
  | _ => exact hexpression

end Trees

end Scribe
