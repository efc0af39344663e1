import Scribe.Proofs.Writing.Trail.Statement

/-!
# The trail of a tree

Every tree is logged at every place (`Tree.logged`), by induction over the tree. So every run has a record whose trail is
known (`Tree.exists_record`).
-/

namespace Scribe

open Writing
open Variants (left right)

variable {desk : Desk} {vs : List Variable} {ts : List Tree} {p : Place} {tail : Tail} {d : Draft}

/-! ## Switches -/

namespace Trails

protected theorem switch {value : Variants Observer} {cases : List (Case (Variants Observer))}
    {fallback : Option (Variants Observer)} (hvalue : value.Alike (Trails desk vs ts p))
    (hcases : ∀ k ∈ cases, (∀ c ∈ k.tests, c.Alike (Trails desk vs ts (p.inside .switch))) ∧
      k.body.AlikeUnder (Trails desk vs ts (p.inside .switch)) fun _ => True)
    (hfallback : ∀ c ∈ fallback, c.AlikeUnder (Trails desk vs ts (p.inside .switch)) fun _ => True) (ty : Ty)
    (tail : Tail) :
    Trails desk vs ts p Tree (switch value.left (cases.map (Case.map left)) (fallback.map left) ty tail)
      fun o => switch (value.right o) (cases.map (Case.map (right o))) (fallback.map (right o)) ty tail := by
  have hR := congruent desk vs ts p
  have hI := congruent desk vs ts (p.inside .switch)
  have hbody : Trails desk vs ts (p.inside .switch) _
      (switchBody (cases.map (Case.map left)) (fallback.map left) (tail.atType ty))
      fun o => switchBody (cases.map (Case.map (right o))) (fallback.map (right o)) (tail.atType ty) :=
    hI.switchBody trivial hcases hfallback trivial
  simp only [switch_eq]
  exact hR.putLine_bind <| hR.bind hvalue.value fun _ => hR.put_bind <|
    hR.bind (hR.onPage _) fun _ => hR.bind (hbody.inside .switch) fun _ => hR.map (hR.onPage _)

protected theorem tryCatch {q : Variants Observer} {handlers : List (Handler (Variants Observer))}
    {final fault : Option (Variants Observer)} (hq : q.AlikeUnder (Trails desk vs ts p) fun _ => True)
    (hhandlers : ∀ h ∈ handlers, (∀ v ∈ h.caught, v ∈ vs) ∧ (∀ c ∈ h.filter, c.Alike (Trails desk vs ts p)) ∧
      h.body.AlikeUnder (Trails desk vs ts p) fun _ => True)
    (hfinal : ∀ c ∈ final, c.AlikeUnder (Trails desk vs ts p) fun _ => True)
    (hfault : ∀ c ∈ fault, c.AlikeUnder (Trails desk vs ts p) fun _ => True) (ty : Ty) (tail : Tail) :
    Trails desk vs ts p Tree (tryCatch q.left (handlers.map (Handler.map left)) (final.map left) (fault.map left) ty tail)
      fun o => tryCatch (q.right o) (handlers.map (Handler.map (right o))) (final.map (right o)) (fault.map (right o))
        ty tail := by
  have hR := congruent desk vs ts p
  have hfaults : ∀ f : List FaultScope → List FaultScope, Trails desk vs ts p Unit
      (onFlow fun flow => { flow with faults := f flow.faults })
      fun _ => onFlow fun flow => { flow with faults := f flow.faults } :=
    fun f => of_calm fun d => ⟨_, _, rfl, .refl _, rfl, rfl, rfl, rfl⟩
  have hflagged : ∀ tail flag, Trails desk vs ts p Tree (flaggedBody q.left tail flag)
      fun o => flaggedBody (q.right o) tail flag := fun tail flag =>
    hR.bind (hfaults (⟨flag, q.tree.labels⟩ :: ·)) fun _ => hR.bind (hq.body hR trivial trivial) fun _ =>
      hR.bind (hfaults (·.drop 1)) fun _ => hR.putLine_bind <| hR.pure _
  refine hR.tryCatch trivial (fun h hh => ?_) hfinal (fun _ => trivial) hq (fun tail flag _ => hflagged tail flag) hfault
    (Allowance.admits_all ty) trivial
  exact ⟨Allowance.admits_all _, fun v hv => .putVariable ((hhandlers h hh).1 v hv), (hhandlers h hh).2⟩

end Trails

/-! ## Lambdas -/

section Lambdas

variable {sig : Signature} {body : Tree} (h : ∀ p, body.Logged desk p)

include h

protected theorem Trails.arrow : Trails desk sig.params [body] p Tree (arrow sig (body.variants (p.ofValue body)).left)
    fun o => arrow sig ((body.variants (p.ofValue body)).right o) := by
  have hR := Trails.congruent desk sig.params [body] p
  refine hR.arrow (fun v hv => .putVariable hv) (fun he => ?_) fun he => ?_
  · have hp : p.ofValue body = p := if_pos he
    rw [hp]
    exact (h p).expression (List.mem_singleton_self body) he
  · have hp : p.ofValue body = p.function := if_neg he
    have hunder : (body.variants p.function).AlikeUnder (Trails desk sig.params [body] p.function) fun _ => True :=
      (h p.function).under (List.mem_singleton_self body)
    rw [hp]
    exact .function (hunder.body (Trails.congruent _ _ _ _) trivial trivial)

protected theorem Trails.method (id : Ident) (access name : String) : Trails desk sig.params [body] p Tree
    (method id access name sig (body.variants p).left) fun o => method id access name sig ((body.variants p).right o) := by
  have hR := Trails.congruent desk sig.params [body] p
  have hunder : (body.variants p).AlikeUnder (Trails desk sig.params [body] p) fun _ => True :=
    (h p).under (List.mem_singleton_self body)
  exact hR.method (fun v hv => .putVariable hv) (fun _ _ => Allowance.admits_all _)
    (hunder.bracedBody hR trivial trivial) id access name

omit h in
/-- A lambda that captures nothing is called by its name; the first time, it is moved. -/
theorem Writing.nestedLambda_apply {sig : Signature} {q : Piece} (hcaptures : sig.captures q.tree = false) (desk : Desk)
    (d : Draft) : nestedLambda sig q desk d =
      match d.promoted.lookup sig.id with
      | some t => .ok (t, d.calling sig)
      | none => (movedMethod (d.naming.nameLambda sig).1 sig q desk (d.moving desk sig)).map
          fun f => (f.1, d.moved sig f.1 f.2) := by
  have hcalling : nestedLambda sig q desk d = (match d.promoted.lookup sig.id with
      | some t => pure t
      | none => promote (d.naming.nameLambda sig).1 sig q : Writing Tree) desk (d.calling sig) := by
    unfold nestedLambda
    rw [hcaptures]
    rfl
  rw [hcalling]
  cases d.promoted.lookup sig.id with
  | some t => rfl
  | none =>
    show promote _ sig q desk (d.calling sig) = (movedMethod _ sig q desk (d.moving desk sig)).map _
    rw [promote_apply, inFunction_apply]
    unfold movedMethod Draft.moving
    generalize (newline >>= fun _ => method _ _ _ sig q) desk _ = result
    cases result <;> rfl

/-- A lambda that captures something stays in place. -/
theorem Node.visited_captures (hcaptures : sig.captures body = true) :
    ∃ r, (Node.lambda sig body).Visited desk p tail d r := by
  have hstays : (Node.lambda sig body).stays id = true := hcaptures
  have husual : (Node.lambda sig body).usual p tail = delegateOf sig (body.variants (p.ofValue body)).left := by
    unfold Node.usual
    rw [hstays]
    exact if_pos hcaptures
  have hunseen : (Node.lambda sig body).unseen p tail =
      fun o => delegateOf sig ((body.variants (p.ofValue body)).right o) := by
    funext o
    unfold Node.unseen
    rw [hstays]
    exact if_pos hcaptures
  have hR := Trails.congruent desk sig.params [body] p
  refine Node.exists_visited ?_ hcaptures fun r => nofun
  rw [husual, hunseen]
  exact hR.delegateOf (fun _ _ => Allowance.admits_all _) (Trails.arrow h)

theorem Node.visited_lambda : ∃ r, (Node.lambda sig body).Visited desk p tail d r := by
  let n : Node Tree := .lambda sig body
  cases hcaptures : sig.captures body with
  | true => exact Node.visited_captures h hcaptures
  | false =>
    let q : Variants Observer := body.variants p.function
    have hstays : n.stays id = false := hcaptures
    have husual : n.usual p tail = nestedLambda sig body.piece := by
      unfold Node.usual
      rw [hstays]
      rfl
    have hunseen : ∀ o, n.unseen p tail o = nestedLambda sig (q.right o) := by
      intro o
      unfold Node.unseen
      rw [hstays]
      rfl
    -- a lambda that captures nothing was moved before, or it is moved now
    cases hlookup : d.promoted.lookup sig.id with
    | some u =>
      have hrun : ∀ q : Piece, q.tree = body → nestedLambda sig q desk d = .ok (u, d.calling sig) := by
        rintro q rfl
        rw [nestedLambda_apply hcaptures, hlookup]
      have hends : n.ends tail desk d = some (u, d.calling sig) := by
        rw [n.ends_eq p, husual, hrun _ rfl]
        rfl
      refine ⟨[], .of_parts (fun o => ?_) ?_ nofun⟩
      · rw [husual, hunseen, hrun _ rfl, hrun _ rfl, o.stops_nil]
      · rw [hends]
        exact .visit (.known hcaptures hlookup) (.calm (.refl d))
    | none =>
      have hR := Trails.congruent desk sig.params [body] p.function
      obtain ⟨r, hstops, htrail⟩ := hR.bind hR.newline
        (fun _ => Trails.method h (.promoted sig.id) "private " (d.naming.nameLambda sig).1)
        (d.moving desk sig)
      have hrun : ∀ q : Piece, q.tree = body → nestedLambda sig q desk d =
          (movedMethod (d.naming.nameLambda sig).1 sig q desk (d.moving desk sig)).map
            fun f => (f.1, d.moved sig f.1 f.2) := by
        rintro q rfl
        rw [nestedLambda_apply hcaptures, hlookup]
      have hends : n.ends tail desk d =
          (movedMethod (d.naming.nameLambda sig).1 sig body.piece desk (d.moving desk sig)).toOption.map
            fun f => (f.1, d.moved sig f.1 f.2) := by
        rw [n.ends_eq p, husual, hrun body.piece rfl]
        cases movedMethod (d.naming.nameLambda sig).1 sig body.piece desk (d.moving desk sig) <;> rfl
      refine ⟨r, .of_parts (fun o => ?_) ?_ nofun⟩
      · have hmethod : movedMethod (d.naming.nameLambda sig).1 sig (q.right o) desk (d.moving desk sig) = _ := hstops o
        rw [husual, hunseen, hrun _ rfl, hrun _ rfl, hmethod, Observer.map_stops]
        rfl
      · rw [hends]
        exact .visit (.moved hcaptures hlookup rfl) htrail

end Lambdas

/-! ## Layers -/

/-- Whether a layer may do more than its parts do. -/
def Node.acts {α : Type} : Node α → Bool
  | .var _ | .block _ _ _ | .lambda _ _ | .loop _ _ _ | .jump _ _ _ _ => true
  | _ => false

section Layers

variable {n : Node Tree} (ih : ∀ c ∈ n.children, ∀ p, c.Logged desk p)

include ih

theorem Node.trails_switch {value : Tree} {cases : List (Case Tree)} {fallback : Option Tree} {ty : Ty}
    (hn : n = .switch value cases fallback ty) :
    Trails desk n.binders n.children p Tree (n.usual p tail) (n.unseen p tail) := by
  subst hn
  have hchild : ∀ {c}, _ → c ∈ (Node.switch value cases fallback ty).children := Node.mem_children_switch.mpr
  refine Trails.switch ((ih value (hchild (.inl rfl)) _).value (hchild (.inl rfl))) ?_ ?_ ty tail
  · simp only [List.forall_mem_map, Case.map, Case.located]
    intro k hk
    constructor
    · intro c hc
      have hc := hchild (.inr (.inl ⟨k, hk, List.mem_append_left _ hc⟩))
      exact (ih c hc _).value hc
    · have hc := hchild (.inr (.inl ⟨k, hk, List.mem_append_right _ (List.mem_singleton_self _)⟩))
      exact (ih k.body hc _).under hc
  · simp only [Option.forall_mem_map]
    intro c hc
    have hc := hchild (.inr (.inr (Option.mem_toList.mpr hc)))
    exact (ih c hc _).under hc

theorem Node.trails_tryCatch {body : Tree} {handlers : List (Handler Tree)} {final fault : Option Tree} {ty : Ty}
    (hn : n = .tryCatch body handlers final fault ty) :
    Trails desk n.binders n.children p Tree (n.usual p tail) (n.unseen p tail) := by
  subst hn
  have hchild : ∀ {c}, _ → c ∈ (Node.tryCatch body handlers final fault ty).children := Node.mem_children_tryCatch.mpr
  refine Trails.tryCatch ((ih body (hchild (.inl rfl)) _).under (hchild (.inl rfl))) ?_ ?_ ?_ ty tail
  · simp only [List.forall_mem_map, Option.forall_mem_map, Handler.map, Handler.located]
    intro k hk
    refine ⟨fun v hv => ?_, ?_, ?_⟩
    · exact List.mem_flatMap.mpr ⟨k, hk, by simpa using hv⟩
    · intro c hc
      have hc := hchild (.inr (.inl ⟨k, hk, List.mem_append_left _ (Option.mem_toList.mpr hc)⟩))
      exact (ih c hc _).value hc
    · have hc := hchild (.inr (.inl ⟨k, hk, List.mem_append_right _ (List.mem_singleton_self _)⟩))
      exact (ih k.body hc _).under hc
  · simp only [Option.forall_mem_map]
    intro c hc
    have hc := hchild (.inr (.inr (.inl (Option.mem_toList.mpr hc))))
    exact (ih c hc _).under hc
  · simp only [Option.forall_mem_map]
    intro c hc
    have hc := hchild (.inr (.inr (.inr (Option.mem_toList.mpr hc))))
    exact (ih c hc _).under hc

/-- A layer that does nothing but what its parts do. -/
theorem Node.trails (hacts : n.acts = false) :
    Trails desk n.binders n.children p Tree (n.usual p tail) (n.unseen p tail) := by
  have hR := Trails.congruent desk n.binders n.children p
  cases hplain : n.writesValues with
  | true =>
    have hvalues : ∀ v ∈ (n.map fun c => c.variants (p.ofValue c)).children,
        v.Alike (Trails desk n.binders n.children p) := by
      simp only [Node.children_map, List.forall_mem_map]
      exact fun c hc => (ih c hc _).value hc
    have hlayer := hR.layer (by rwa [Node.writesValues_map]) (fun _ _ => trivial)
      (fun _ _ => Allowance.admits_all _) hvalues tail
    unfold Node.usual Node.unseen
    simpa only [variants_of_writesValues p _ hplain] using hlayer
  | false =>
    cases n with
    | conditional test ifTrue ifFalse ty =>
      have hchild : ∀ c ∈ [test, ifTrue, ifFalse], ∀ p, c.Logged desk p := ih
      simp only [List.forall_mem_cons] at hchild
      have htrue : ifTrue ∈ [test, ifTrue, ifFalse] := by simp
      have hfalse : ifFalse ∈ [test, ifTrue, ifFalse] := by simp
      exact hR.conditional (A := fun _ => True) trivial ((hchild.1 _).value List.mem_cons_self)
        ((hchild.2.1 p).under htrue) ((hchild.2.2.1 p).under hfalse) ((hchild.2.1 p).expression htrue)
        ((hchild.2.2.1 p).expression hfalse) ty trivial
    | switch value cases fallback ty => exact trails_switch ih rfl
    | tryCatch body handlers final fault ty => exact trails_tryCatch ih rfl
    | _ => contradiction

theorem Node.visited : ∃ r, n.Visited desk p tail d r := by
  cases hacts : n.acts with
  | true =>
    cases n with
    | var v => exact ⟨[], .var v⟩
    | block vars body ty => exact Node.visited_block fun c hc => ih c hc p
    | lambda sig body => exact Node.visited_lambda (ih body (List.mem_singleton_self body))
    | loop body exit again => exact Node.visited_loop (ih body (List.mem_singleton_self body) _)
    | jump kind target value ty => exact Node.visited_jump fun c hc => ih c (Option.mem_toList.mpr hc) _
    | _ => cases hacts
  | false =>
    by_cases hassign : ∃ v value ty, n = .binary .assign (.mk (.var v)) value ty
    · obtain ⟨v, value, ty, rfl⟩ := hassign
      exact Node.visited_assign (ih value (by simp [Node.children]) _)
    · have hplain : n.Plain d (n.ends tail desk d) := by
        cases n <;> trivial
      exact Node.exists_visited (Node.trails ih hacts) hplain fun r v value ty hn => absurd ⟨v, value, ty, hn⟩ hassign

end Layers

/-! ## Trees -/

section Trees

/-- What is done with the parts of a node. -/
theorem Trails.within {α : Type} {n : Node Tree} {x : Writing α} {y : Observer → Writing α}
    (h : Trails desk n.binders n.children p α x y) : Trails desk [] [.mk n] p α x y := by
  intro d
  obtain ⟨r, hr, htrail⟩ := h d
  exact ⟨r, hr, .within htrail⟩

theorem Tree.variants_usual (n : Node Tree) (p : Place) :
    ((Tree.mk n).variants p).usual = ((n.variants p true).map left).rendition := by
  rw [Node.map_left_variants]
  exact congrArg Prod.snd (piece_mk n)

theorem Tree.variants_branches (n : Node Tree) (p : Place) (o : Observer) :
    (((Tree.mk n).variants p).other o).branches = ((n.variants p true).map (right o)).rendition.branches := by
  have hobserved : (((Tree.mk n).variants p).other o).branches = _ := congrArg Rendition.branches (observed_mk o n p)
  rw [hobserved, Node.map_right_variants]
  rfl

theorem Tree.variants_quoted (n : Node Tree) (p : Place) (o : Observer) :
    (((Tree.mk n).variants p).other o).quoted = ((n.variants p true).map (right o)).rendition.quoted := by
  have hobserved : (((Tree.mk n).variants p).other o).quoted = _ := congrArg Rendition.quoted (observed_mk o n p)
  rw [hobserved, Node.map_right_variants]
  rfl

theorem Tree.logged (t : Tree) : ∀ p, t.Logged desk p := by
  induction t using Tree.induction with
  | step n ih =>
    intro p
    refine ⟨fun tail d => Node.visited ih, ?_, ?_⟩
    · simp only [variants_usual, variants_branches]
      cases n with
      | conditional test ifTrue ifFalse ty =>
        simp only [Node.children, List.forall_mem_cons] at ih
        have hR := Trails.congruent desk [] [test, ifTrue, ifFalse] p
        obtain ⟨b, b', hb, hb', halike⟩ := hR.branches (A := fun _ => True) trivial
          ((ih.1 _).value (by simp)) ((ih.2.1 p).under (by simp)) ((ih.2.2.1 p).under (by simp)) ty
        exact .inr ⟨b, b', hb, hb', .within halike.test, fun tail h => .within (halike.whenTrue tail h),
          fun tail h => .within (halike.elseIf tail h)⟩
      | _ => exact .inl ⟨rfl, fun _ => rfl⟩
    · simp only [variants_usual, variants_quoted]
      cases n with
      | lambda sig body =>
        exact .inr ⟨_, _, rfl, fun _ => rfl, .within (Trails.arrow (ih body (List.mem_singleton_self body)))⟩
      | _ => exact .inl ⟨rfl, fun _ => rfl⟩

/-- Every run has a record, and its trail leads from the first draft to the last one. -/
theorem Tree.exists_record (t : Tree) (desk : Desk) :
    ∃ record, t.Records desk record ∧
      Trail desk [] [t] {} { page := desk.firstPage } record ((t.draft desk).toOption.map Prod.snd) := by
  obtain ⟨n⟩ := t
  have hlogged : (Tree.mk n).Logged desk {} := logged _ _
  have hexpression := hlogged.write .discard { page := desk.firstPage }
  cases n with
  | lambda sig body =>
    have hR := Trails.congruent desk sig.params [body] {}
    have hentry : Trails desk sig.params [body] {} Tree (entryMethod sig body.piece)
        fun o => entryMethod sig (body, body.observed o {}) :=
      hR.read_bind fun desk => Trails.method body.logged _ _ _
    exact (Trails.within (n := .lambda sig body) hentry) { page := desk.firstPage }
  | _ => exact hexpression

end Trees

end Scribe
