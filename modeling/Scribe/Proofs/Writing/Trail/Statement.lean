import Scribe.Proofs.Flow.Tested
import Scribe.Proofs.Writing.Trail.Visit

/-!
# The trails of statements

What blocks, jumps and loops do besides visiting their parts. A block declares its variables in front of its statements,
and leaves some declarations to assignments among them: the first visit that has to do with such a variable is that of an
assignment (`Trails.exists_statementsFrom`).
-/

namespace Scribe

open Writing
open Variants (left right)

variable {desk : Desk} {p : Place} {tail : Tail} {d : Draft}

/-! ## Assignments -/

/-- The operands of an assignment to a variable, behind each other. -/
theorem Writing.assignment_eq {l r : Piece} {v : Variable} (hl : l.tree = .mk (.var v)) (ty : Ty) :
    binaryOperation .assign l r ty = (do
      let a ← l.inline
      put " = "
      let b ← r.operand (.binary .assign) true
      return .mk (.binary .assign a b ty)) := by
  have hoperand : l.operand (.binary .assign) = l.inline := by
    unfold Piece.operand Piece.value
    rw [hl]
    rfl
  have htoken : tokenOf (.binary .assign) = pure "=" := rfl
  simp [binaryOperation, infixed, hoperand, htoken]

/-- The visit of an assignment begins with that of its target. -/
theorem Node.visited_assign {v : Variable} {value : Tree} {ty : Ty} (hvalue : value.Logged desk (p.ofValue value)) :
    ∃ r, (Node.binary .assign (.mk (.var v)) value ty).Visited desk p tail d r := by
  let n : Node Tree := .binary .assign (.mk (.var v)) value ty
  let w : Tree := .mk (.var (v.written (d.naming.nameVariable v).1))
  let s : Stint := .mk ⟨p, .var v, .discard, d⟩ [] ((Node.var v).ends .discard desk d)
  let rest (q : Piece) : Writing Tree := do
    put " = "
    let b ← q.operand (.binary .assign) true
    return .mk (.binary .assign w b ty)
  have hR := Trails.congruent desk n.binders n.children p
  have halike : (value.variants (p.ofValue value)).Alike (Trails desk n.binders n.children p) :=
    hvalue.value (by simp [n, Node.children])
  have hrest : Trails desk n.binders n.children p Tree (rest value.piece)
      fun o => rest ((value.variants (p.ofValue value)).right o) :=
    hR.put_bind <| hR.map (halike.operand hR.lined _ _)
  have htarget : (Node.var v).Visited desk p .discard d [] := .var v
  obtain ⟨r, hstops, htrail⟩ := hrest (d.writing v)
  have husual : n.usual p tail desk d = rest value.piece desk (d.writing v) := by
    have hparts : n.usual p tail = _ := assignment_eq rfl ty
    rw [hparts]
    exact bind_of_ok (Tree.write_var v)
  -- the target is one stint of its own, in front of those of the value
  refine ⟨s :: r, .of_parts (fun o => ?_) (.visit (.plain rfl trivial) ?_) ?_⟩
  · have hparts : n.unseen p tail o = _ := assignment_eq rfl ty
    have hparts' : n.usual p tail = _ := assignment_eq rfl ty
    rw [hparts, hparts']
    exact Observer.stops_bind (Tree.write_var v) (htarget.stops o) (hstops o)
  · have hfirst : Trail desk [] [.mk (.var v)] p d [s] (some (d.writing v)) := by
      have hends : ((Node.var v).ends .discard desk d).map Prod.snd = some (d.writing v) := by
        rw [Node.ends_var]
        rfl
      rw [← hends]
      exact htarget.trail
    rw [n.ends_eq p, husual]
    exact .trans (.part (by simp [Node.children]) hfirst) htrail
  · rintro v' value' ty' ⟨⟩
    exact ⟨r, rfl⟩

/-! ## Blocks -/

theorem Tree.eq_of_assignsFirst {c : Tree} {i : Ident} (h : c.assignsFirst i = true) :
    ∃ v value ty, c = .mk (.binary .assign (.mk (.var v)) value ty) ∧ v.id = i := by
  obtain ⟨n⟩ := c
  unfold assignsFirst at h
  split at h
  · next l value ty hn =>
    cases hn
    obtain ⟨l⟩ := l
    split at h
    · next v hl =>
      cases hl
      rw [Bool.and_eq_true_iff] at h
      exact ⟨v, value, ty, rfl, beq_iff_eq.mp h.1⟩
    · cases h
  · cases h

/-- A visit, and then something that nobody observes. -/
theorem Node.Visited.then_calm {β : Type} {n : Node Tree} {r : List Stint} (h : n.Visited desk p tail d r)
    {rest : Tree → Writing β} (hrest : ∀ t e, ∃ b e', rest t desk e = .ok (b, e') ∧ e.Calm e') :
    (∀ o, (((Tree.mk n).observed o p).write tail >>= rest) desk d =
      o.stops [.mk ⟨p, n, tail, d⟩ r (n.ends tail desk d)] (((Tree.mk n).piece.write tail >>= rest) desk d)) ∧
    Trail desk [] [.mk n] p d [.mk ⟨p, n, tail, d⟩ r (n.ends tail desk d)]
      ((((Tree.mk n).piece.write tail >>= rest) desk d).toOption.map Prod.snd) := by
  have htrail := h.trail
  cases hrun : (Tree.mk n).piece.write tail desk d with
  | error err =>
    have hends : n.ends tail desk d = none := congrArg Except.toOption hrun
    refine ⟨fun o => Observer.stops_bind_error hrun (h.stops o), ?_⟩
    rw [bind_apply, hrun]
    rw [hends] at htrail ⊢
    exact htrail
  | ok a =>
    obtain ⟨t, e⟩ := a
    obtain ⟨b, e', hrun', hcalm⟩ := hrest t e
    have hends : n.ends tail desk d = some (t, e) := congrArg Except.toOption hrun
    refine ⟨fun o => Observer.stops_bind hrun (h.stops o) (o.stops_nil _).symm, ?_⟩
    rw [bind_of_ok hrun, hrun']
    rw [hends] at htrail ⊢
    exact .trans htrail (.calm hcalm)

/-- The record of a statement; an assignment is one visit. -/
theorem Tree.Logged.exists_statement {c : Tree} (h : c.Logged desk p) (tail : Tail) (isFirst isLast : Bool) (d : Draft) :
    ∃ r, (∀ o, statement ((c.variants p).right o) tail isFirst isLast desk d =
        o.stops r (statement c.piece tail isFirst isLast desk d)) ∧
      Trail desk [] [c] p d r ((statement c.piece tail isFirst isLast desk d).toOption.map Prod.snd) ∧
      ∀ i, c.assignsFirst i = true → tail = .discard → ∃ s, r = [s] ∧ s.Assigns desk i := by
  -- an assignment is written in one visit, with nothing in front of it on the line
  by_cases hc : ∃ v value ty, c = .mk (.binary .assign (.mk (.var v)) value ty)
  · obtain ⟨v, value, ty, rfl⟩ := hc
    let n : Node Tree := .binary .assign (.mk (.var v)) value ty
    let lead := leadOf (.mk n) tail
    let d' : Draft := { d with page := d.page.newline.write lead }
    let rest (t : Tree) : Writing (List Tree) := do
      put ";"
      let point ← mark (.statement lead) d.page.newline
      return point.toList ++ [t]
    have hline : ∀ q : Piece, q.tree = .mk n → statement q tail isFirst isLast desk d = (q.inline >>= rest) desk d' := by
      rintro ⟨tree, rendition⟩ htree
      cases htree
      rfl
    have hrest : ∀ t e, ∃ b e', rest t desk e = .ok (b, e') ∧ e.Calm e' := by
      intro t e
      simp only [rest, put_bind]
      unfold mark
      rw [bind_assoc, read_bind]
      cases desk.wrapper.document with
      | none => exact ⟨_, _, rfl, e.calm_page _⟩
      | some document => exact ⟨_, _, rfl, .refl _, rfl, rfl, rfl, rfl⟩
    obtain ⟨r, hvisited⟩ := h.visited .discard d'
    obtain ⟨hstops, htrail⟩ := hvisited.then_calm hrest
    rw [hline _ rfl]
    refine ⟨_, fun o => (hline _ rfl).trans (hstops o), .trans (.calm (d.calm_page _)) htrail, ?_⟩
    rintro i hassigns rfl
    obtain ⟨v', value', ty', ⟨⟩, hid⟩ := eq_of_assignsFirst hassigns
    obtain ⟨inner, rfl⟩ := hvisited.opens v value ty rfl
    refine ⟨_, rfl, p, v, value, ty, d', inner, _, rfl, hid, ?_⟩
    · have hlead : lead = "" := by
        simp only [lead, leadOf]
        split <;> rfl
      show (d.page.newline.write lead).owesIndent = true
      rw [hlead, Text.Page.write_empty, Text.Page.newline_owesIndent]
  · have hR := Trails.congruent desk [] [c] p
    obtain ⟨r, hstops, htrail⟩ := hR.statement trivial (h.under (List.mem_singleton_self c)) trivial isFirst isLast d
    refine ⟨r, hstops, htrail, fun i hassigns => ?_⟩
    obtain ⟨v, value, ty, hcv, -⟩ := eq_of_assignsFirst hassigns
    exact absurd ⟨v, value, ty, hcv⟩ hc

/-- The record of a list of statements: a variable that one of them can declare is first assigned, unless it is not
reached. -/
theorem Trails.exists_statementsFrom {ts cs : List Tree} (hcs : ∀ c ∈ cs, c ∈ ts) (h : ∀ c ∈ cs, c.Logged desk p)
    (tail : Tail) (isFirst : Bool) (d : Draft) :
    ∃ r, (∀ o, statementsFrom tail isFirst (cs.map fun c => (c.variants p).right o) desk d =
        o.stops r (statementsFrom tail isFirst (cs.map Tree.piece) desk d)) ∧
      Trail desk [] ts p d r ((statementsFrom tail isFirst (cs.map Tree.piece) desk d).toOption.map Prod.snd) ∧
      ∀ i, declaredInPlace i (tail ≠ .discard) cs = true →
        (statementsFrom tail isFirst (cs.map Tree.piece) desk d).toOption = none ∧ (∀ s ∈ Stint.allOf r, ¬s.Writes i) ∨
          Stint.FirstAssigns desk i r := by
  induction cs generalizing isFirst d with
  | nil => exact ⟨[], fun o => (o.stops_nil _).symm, .calm (.refl d), nofun⟩
  | cons c cs ih =>
    rw [List.forall_mem_cons] at h hcs
    simp only [List.map_cons, statementsFrom, List.isEmpty_map]
    obtain ⟨r, hstops, htrail, hassigns⟩ :=
      h.1.exists_statement (if cs.isEmpty then tail else .discard) isFirst cs.isEmpty d
    -- a statement that mentions the variable is the assignment
    have hmentioned : ∀ i, declaredInPlace i (tail ≠ .discard) (c :: cs) = true → c.mentions i = true →
        ∃ s, r = [s] ∧ s.Assigns desk i := by
      intro i hplace hmentions
      rw [declaredInPlace, if_pos hmentions, Bool.and_eq_true_iff, Bool.not_eq_true', Bool.and_eq_false_iff] at hplace
      refine hassigns i hplace.1 ?_
      rcases hplace.2 with hmore | hdiscard
      · rw [hmore]
        rfl
      · simp only [ne_eq, decide_eq_false_iff_not, not_not] at hdiscard
        rw [hdiscard, ite_self]
    cases hrun : statement c.piece (if cs.isEmpty then tail else .discard) isFirst cs.isEmpty desk d with
    | error err =>
      rw [hrun] at htrail
      refine ⟨r, fun o => Observer.stops_bind_error hrun (hstops o), ?_, fun i hplace => ?_⟩
      · rw [bind_apply, hrun]
        exact .part hcs.1 htrail
      · rw [bind_apply, hrun]
        cases hmentions : c.mentions i with
        | false => exact .inl ⟨rfl, htrail.not_writes hmentions⟩
        | true =>
          obtain ⟨s, rfl, hs⟩ := hmentioned i hplace hmentions
          exact .inr ⟨[], s, [], rfl, by simp, hs⟩
    | ok a =>
      obtain ⟨here, e⟩ := a
      obtain ⟨r', hstops', htrail', hfirst⟩ := ih hcs.2 h.2 false e
      rw [hrun] at htrail
      refine ⟨r ++ r', fun o => Observer.stops_bind hrun (hstops o) (Observer.stops_map (hstops' o) _), ?_,
        fun i hplace => ?_⟩
      · rw [bind_of_ok hrun, end_map]
        exact .trans (.part hcs.1 htrail) htrail'
      · cases hmentions : c.mentions i with
        | true =>
          obtain ⟨s, rfl, hs⟩ := hmentioned i hplace hmentions
          exact .inr ⟨[], s, r', rfl, by simp, hs⟩
        | false =>
          have hhere := htrail.not_writes hmentions
          rw [declaredInPlace, hmentions] at hplace
          rcases hfirst i hplace with ⟨hnone, hnot⟩ | ⟨before, s, behind, rfl, hbefore, hs⟩
          · refine .inl ⟨?_, ?_⟩
            · rw [bind_of_ok hrun, bind_apply]
              cases hrest : statementsFrom tail false (cs.map Tree.piece) desk e with
              | error err => rfl
              | ok b =>
                rw [hrest] at hnone
                cases hnone
            · rw [Stint.allOf_append]
              exact List.forall_mem_append.mpr ⟨hhere, hnot⟩
          · refine .inr ⟨r ++ before, s, behind, (List.append_assoc _ _ _).symm, ?_, hs⟩
            rw [Stint.allOf_append]
            exact List.forall_mem_append.mpr ⟨hhere, hbefore⟩

/-- The draft where other labels take over values. -/
def Draft.taking (d : Draft) (takers : List (Ident × Tail)) : Draft := { d with flow := { d.flow with takers } }

theorem Draft.taking_calm (d : Draft) (takers : List (Ident × Tail)) : d.Calm (d.taking takers) :=
  ⟨.refl _, rfl, rfl, rfl, rfl⟩

/-- A label at the end takes over values, and then the statements are written. -/
theorem Writing.statements_apply (cs : List Tree) (tail : Tail) (desk : Desk) (d : Draft) :
    ∃ d', d.Calm d' ∧ ∀ ps : List Piece, ps.map (·.tree) = cs →
      statements ps tail desk d = statementsFrom tail true ps desk d' := by
  have hlast : ∀ ps : List Piece, ps.map (·.tree) = cs →
      ps.getLast?.bind (·.tree.node.labelTarget?) = cs.getLast?.bind (·.node.labelTarget?) := by
    rintro ps rfl
    rw [List.getLast?_map]
    cases ps.getLast? <;> rfl
  cases htarget : cs.getLast?.bind (·.node.labelTarget?) with
  | none =>
    refine ⟨d, .refl d, fun ps hps => ?_⟩
    unfold statements
    rw [hlast ps hps, htarget]
  | some target =>
    have htaken : ∃ takers, addTaker target (tail.atType target.ty) desk d = .ok ((), d.taking takers) := by
      unfold addTaker
      split
      · exact ⟨(target.id, tail.atType target.ty) :: d.flow.takers, rfl⟩
      · exact ⟨d.flow.takers, rfl⟩
    obtain ⟨takers, hrun⟩ := htaken
    refine ⟨_, d.taking_calm takers, fun ps hps => ?_⟩
    unfold statements
    rw [hlast ps hps, htarget]
    exact bind_of_ok hrun

/-- The draft behind the declaration of a variable of a block. -/
def Draft.declaring (d : Draft) (v : Variable) (inPlace : Bool) : Draft :=
  if inPlace then
    { d with
      naming := (d.naming.nameVariable v).2
      undeclared := v.id :: d.undeclared.filter (· != v.id) }
  else
    let typed : Draft := { d with
      lexicon := ((Lexicon.spell v.ty).run d.lexicon).2
      page := (d.page.newline.write ((Lexicon.spell v.ty).run d.lexicon).1).write " " }
    { typed.writing v with page := (typed.writing v).page.write ";" }

/-- The draft behind the last of the declarations of a block. -/
def Draft.declaringAll (d : Draft) (vars : List Variable) (inPlace : Variable → Bool) : Draft :=
  vars.foldl (fun d v => d.declaring v (inPlace v)) d

/-- The draft where the statements of a block begin: an empty line divides them from the declarations, if there are any. -/
def Draft.heading (d : Draft) (vars : List Variable) (inPlace : Variable → Bool) : Draft :=
  let declared := d.declaringAll vars inPlace
  if vars.all inPlace then declared else { declared with page := declared.page.newline }

theorem Writing.declare_apply (v : Variable) (inPlace : Bool) (desk : Desk) (d : Draft) :
    ∃ w, declare v inPlace desk d = .ok (w, d.declaring v inPlace) := by
  cases inPlace with
  | true => exact ⟨_, rfl⟩
  | false =>
    let typed : Draft := { d with
      lexicon := ((Lexicon.spell v.ty).run d.lexicon).2
      page := (d.page.newline.write ((Lexicon.spell v.ty).run d.lexicon).1).write " " }
    have hsplit : declare v false desk d = (do let w ← putVariable v; put ";"; return w) desk typed := rfl
    rw [hsplit, bind_of_ok (putVariable_apply v desk typed)]
    exact ⟨_, rfl⟩

theorem Writing.blockHead_apply (vars : List Variable) (inPlace : Variable → Bool) (desk : Desk) (d : Draft) :
    ∃ ws, blockHead vars inPlace desk d = .ok (ws, d.heading vars inPlace) := by
  have hdeclare : ∀ (vs : List Variable) (d : Draft), ∃ ws, vs.mapM (fun v => declare v (inPlace v)) desk d =
      .ok (ws, d.declaringAll vs inPlace) := by
    intro vs
    induction vs with
    | nil => exact fun d => ⟨[], rfl⟩
    | cons v vs ih =>
      intro d
      obtain ⟨w, hw⟩ := declare_apply v (inPlace v) desk d
      obtain ⟨ws, hws⟩ := ih (d.declaring v (inPlace v))
      rw [List.mapM_cons, bind_of_ok hw, bind_of_ok hws]
      exact ⟨w :: ws, rfl⟩
  obtain ⟨ws, hws⟩ := hdeclare vars d
  refine ⟨ws, ?_⟩
  unfold blockHead Draft.heading
  rw [bind_of_ok hws]
  split <;> rfl

theorem Node.visited_block {vars : List Variable} {body : List Tree} {ty : Ty} (h : ∀ c ∈ body, c.Logged desk p) :
    ∃ r, (Node.block vars body ty).Visited desk p tail d r := by
  let n : Node Tree := .block vars body ty
  let inPlace (v : Variable) : Bool := declaredInPlace v.id (tail.atType ty ≠ .discard) body
  obtain ⟨ws, hhead⟩ := blockHead_apply vars inPlace desk d
  obtain ⟨d', hcalm, hfrom⟩ := statements_apply body (tail.atType ty) desk (d.heading vars inPlace)
  obtain ⟨r, hstops, htrail, hfirst⟩ := Trails.exists_statementsFrom (fun _ => id) h (tail.atType ty) true d'
  -- what stands in front of the statements does not look at their renditions
  have hparts : ∀ ps : List Piece, ps.map (·.tree) = body → Writing.block vars ps ty tail desk d =
      (do let ts ← statementsFrom (tail.atType ty) true ps; return Tree.mk (.block ws ts ty)) desk d' := by
    intro ps hps
    rw [block_eq, hps, bind_of_ok hhead, bind_apply, hfrom ps hps, bind_apply]
  have husual : n.usual p tail desk d =
      (do
        let ts ← statementsFrom (tail.atType ty) true (body.map Tree.piece)
        return Tree.mk (.block ws ts ty)) desk d' := by
    have hpieces : n.usual p tail = Writing.block vars (body.map Tree.piece) ty tail := by
      rw [Node.usual, Node.map_left_variants]
      rfl
    rw [hpieces]
    exact hparts _ (by simp [Function.comp_def, Tree.piece, Piece.tree])
  have hunseen : ∀ o, n.unseen p tail o desk d =
      (do
        let ts ← statementsFrom (tail.atType ty) true (body.map fun c : Tree => (c.variants p).right o)
        return Tree.mk (.block ws ts ty)) desk d' := by
    intro o
    have hpieces : n.unseen p tail o = Writing.block vars (body.map fun c => (c.variants p).right o) ty tail := by
      simp only [Node.unseen, Node.variants, n, Node.located, Node.map, List.map_map]
      rfl
    rw [hpieces]
    exact hparts _ (by simp [Function.comp_def, Tree.variants, right, Piece.tree])
  have hends : (n.ends tail desk d).map Prod.snd =
      (statementsFrom (tail.atType ty) true (body.map Tree.piece) desk d').toOption.map Prod.snd := by
    rw [n.ends_eq p, husual, end_map]
  refine ⟨r, .of_parts (fun o => ?_) (.visit (.block rfl hhead ?_) ?_) (by rintro _ _ _ ⟨⟩)⟩
  · rw [husual, hunseen]
    exact Observer.stops_map (hstops o) _
  · intro v hv hplace
    rcases hfirst v.id hplace with ⟨hnone, hnot⟩ | hassigned
    · refine .inl ⟨Option.map_eq_none_iff.mp (hends.trans ?_), hnot⟩
      rw [hnone]
      rfl
    · exact .inr hassigned
  · rw [hends]
    exact .trans (.calm hcalm) htrail

/-! ## Jumps -/

theorem Writing.depart_apply (target : Label) (desk : Desk) (m : Draft) :
    ∃ e, (do clearFaults (some target); putJump target) desk m = .ok ((), e) ∧
      ∀ u, depart target u desk m = .ok (u, e) := by
  obtain ⟨naming, flow, hjump⟩ := putJump_apply target desk
    { m with page := m.page.cleared (m.flow.flagsLeft (some target.id)) }
  refine ⟨_, (clearFaults_bind _ _ _ _).trans hjump, fun u => ?_⟩
  rw [depart, clearFaults_bind, Option.map_some, bind_of_ok hjump]
  rfl

section Jumps

variable {kind : JumpKind} {target : Label} {value : Option Tree} {ty : Ty}

/-- Something is written, and then the jump. -/
theorem Node.exists_visited_departs {α : Type} {x : Writing α} {y : Observer → Writing α} {g : α → Tree}
    (h : Trails desk [] value.toList p α x y) (hreturns : ¬d.flow.Returns kind target)
    (husual : (Node.jump kind target value ty).usual p tail desk d = (x >>= fun a => depart target (g a)) desk d)
    (hunseen : ∀ o, (Node.jump kind target value ty).unseen p tail o desk d =
      (y o >>= fun a => depart target (g a)) desk d) :
    ∃ r, (Node.jump kind target value ty).Visited desk p tail d r := by
  let n : Node Tree := .jump kind target value ty
  obtain ⟨r, hstops, htrail⟩ := h d
  cases hrun : x desk d with
  | error err =>
    have hends : n.ends tail desk d = none := by
      rw [n.ends_eq p, husual, bind_apply, hrun]
      rfl
    rw [hrun] at htrail
    refine ⟨r, .of_parts (fun o => ?_) (.visit (.plain rfl (.inl hends)) ?_) nofun⟩
    · rw [husual, hunseen]
      exact Observer.stops_bind_error hrun (hstops o)
    · show Trail desk [] value.toList p d r ((n.ends tail desk d).map Prod.snd)
      rw [hends]
      exact htrail
  | ok a =>
    obtain ⟨a, m⟩ := a
    obtain ⟨e, hjump, hdepart⟩ := depart_apply target desk m
    have hends : n.ends tail desk d = some (g a, e) := by
      rw [n.ends_eq p, husual, bind_of_ok hrun, hdepart]
      rfl
    rw [hrun] at htrail
    refine ⟨r, .of_parts (fun o => ?_) ?_ nofun⟩
    · rw [husual, hunseen, ← List.append_nil r]
      exact Observer.stops_bind hrun (hstops o) (o.stops_nil _).symm
    · rw [hends]
      exact .visit (.jump hends hreturns hjump) htrail

/-- A `return` writes nothing behind its value. -/
theorem Node.exists_visited_returns {x : Writing Tree} {y : Observer → Writing Tree}
    (h : Trails desk [] value.toList p Tree x y) (hreturns : d.flow.Returns kind target)
    (husual : (Node.jump kind target value ty).usual p tail desk d = x desk d)
    (hunseen : ∀ o, (Node.jump kind target value ty).unseen p tail o desk d = y o desk d) :
    ∃ r, (Node.jump kind target value ty).Visited desk p tail d r := by
  obtain ⟨r, hstops, htrail⟩ := h d
  refine ⟨r, .of_parts (fun o => ?_) (.visit (.plain rfl (.inr hreturns)) ?_) nofun⟩
  · rw [husual, hunseen, hstops]
  · rw [Node.ends_eq _ p, husual]
    exact htrail

theorem Node.visited_jump (h : ∀ c ∈ value, c.Logged desk (p.ofValue c)) :
    ∃ r, (Node.jump kind target value ty).Visited desk p tail d r := by
  let q : Option (Variants Observer) := value.map fun c => c.variants (p.ofValue c)
  have hR := Trails.congruent desk [] value.toList p
  have hq : ∀ v ∈ q, v.Alike (Trails desk [] value.toList p) :=
    Option.forall_mem_map.mpr fun c hc => (h c hc).value (Option.mem_toList.mpr hc)
  have husual : (Node.jump kind target value ty).usual p tail = Writing.jump kind target (q.map left) := by
    cases value <;> rfl
  have hunseen : ∀ o, (Node.jump kind target value ty).unseen p tail o = Writing.jump kind target (q.map (right o)) := by
    intro o
    cases value <;> rfl
  -- the value is returned or assigned where a label takes it over, and else returned or evaluated
  by_cases hresult : d.flow.takers.lookup target.id = some .result
  · refine exists_visited_returns ?_ (.inl hresult) (husual ▸ jump_of_result hresult)
      fun o => hunseen o ▸ jump_of_result hresult
    exact hR.bind (hR.clearFaults none) fun _ => hR.put_bind <|
      hR.map (hR.valueOrDefault hq (Allowance.admits_all target.ty))
  by_cases hassign : ∃ name, d.flow.takers.lookup target.id = some (.assign name)
  · obtain ⟨name, hname⟩ := hassign
    have hreturns : ¬d.flow.Returns kind target := by
      rintro (hresult' | ⟨-, hnot⟩)
      · exact hresult hresult'
      · exact hnot name hname
    have hvalue := hR.bind (hR.put (name ++ " = ")) fun _ =>
      hR.bind (hR.valueOrDefault hq (Allowance.admits_all target.ty)) fun t =>
        hR.bind (hR.put ";") fun _ => hR.bind hR.newline fun _ => hR.pure t
    refine exists_visited_departs (g := fun t => .jump kind target (some t)) hvalue hreturns ?_ fun o => ?_
    · rw [husual, jump_of_assign hname]
      simp only [bind_assoc, pure_bind]
    · rw [hunseen, jump_of_assign hname]
      simp only [bind_assoc, pure_bind]
  rw [not_exists] at hassign
  by_cases hkind : kind = .returnTo
  · subst hkind
    refine exists_visited_returns ?_ (.inr ⟨rfl, hassign⟩) (husual ▸ jump_of_returnTo hresult hassign)
      fun o => hunseen o ▸ jump_of_returnTo hresult hassign
    refine hR.bind (hR.clearFaults none) fun _ => hR.put_bind ?_
    cases value with
    | none => exact hR.map (hR.pure _)
    | some c =>
      exact hR.put_bind <| hR.bind (hq _ rfl).value fun _ => hR.map (hR.pure _)
  · have hreturns : ¬d.flow.Returns kind target := by
      rintro (hresult' | ⟨hkind', -⟩)
      · exact hresult hresult'
      · exact hkind hkind'
    exact exists_visited_departs (hR.effectOf hq) hreturns (husual ▸ jump_of_untaken hresult hassign hkind)
      fun o => hunseen o ▸ jump_of_untaken hresult hassign hkind

end Jumps

/-! ## Loops and switches -/

section Loops

variable {exit again : Option Label}

theorem Writing.enterLoop_apply (exit again : Option Label) (tail : Tail) (desk : Desk) (d : Draft) :
    ∃ takers, enterLoop exit again tail desk d = .ok ((), (d.taking takers).enter (.loop exit again false false)) := by
  cases exit with
  | none => exact ⟨d.flow.takers, rfl⟩
  | some target =>
    by_cases htail : tail = .discard
    · subst htail
      exact ⟨d.flow.takers, rfl⟩
    · refine ⟨(target.id, tail) :: d.flow.takers, ?_⟩
      unfold enterLoop addTaker
      simp only [if_pos htail]
      rfl

/-- The label that is needed behind the body of the innermost loop. -/
def Flow.neededAgain : List JumpScope → Option Label
  | .loop _ again _ true :: _ => again
  | _ => none

/-- The label that is needed behind the innermost loop. -/
def Flow.neededExit : List JumpScope → Option Label
  | .loop exit _ true _ :: _ => exit
  | _ => none

/-- The draft behind a line with a label, when there is one. -/
def Draft.labelling (d : Draft) : Option Label → Draft
  | none => d
  | some target =>
    { d with
      naming := (d.naming.nameLabel target).2
      page := d.page.labelled (some (d.naming.nameLabel target).1) }

/-- The draft behind the line with which a loop hands on a default value when its test fails. -/
def Draft.handing (d : Draft) (tested : Bool) (ty : Ty) (tail : Tail) : Draft :=
  match tested, tail.lead? with
  | true, some lead =>
    { d with
      page := ((d.page.writeLine lead).write (d.defaultText ty)).write ";"
      lexicon := ((Lexicon.spell ty).run d.lexicon).2 }
  | _, _ => d

theorem Writing.putAgainLabel_eq (desk : Desk) (m : Draft) :
    putAgainLabel desk m = .ok ((), m.labelling (Flow.neededAgain m.flow.scopes)) := by
  unfold putAgainLabel
  simp only [bind_apply, get_apply]
  rcases m.flow.scopes with _ | ⟨⟨exit, _ | target, x, _ | _⟩ | _, outer⟩ <;> rfl

theorem Writing.leaveLoop_eq (desk : Desk) (m : Draft) :
    leaveLoop desk m = .ok ((), m.leave.labelling (Flow.neededExit m.flow.scopes)) := by
  unfold leaveLoop
  simp only [bind_apply, get_apply]
  rcases m.flow.scopes with _ | ⟨⟨_ | target, again, _ | _, y⟩ | _, outer⟩ <;> rfl

theorem Draft.labelling_flow (d : Draft) (target : Option Label) : (d.labelling target).flow = d.flow := by
  cases target <;> rfl

theorem Draft.handing_flow (d : Draft) (tested : Bool) (ty : Ty) (tail : Tail) :
    (d.handing tested ty tail).flow = d.flow := by
  unfold handing
  split <;> rfl

/-- The draft behind the closing brace of a loop, which the label for the next round stands in front of. -/
def Draft.closing (m : Draft) : Draft :=
  let labelled := m.labelling (Flow.neededAgain m.flow.scopes)
  { labelled with page := labelled.page.closeBrace }

/-- The draft behind a loop; `m` is that behind its body. -/
def Draft.lowered (m : Draft) (tested : Bool) (ty : Ty) (tail : Tail) : Draft :=
  (m.closing.handing tested ty tail).leave.labelling (Flow.neededExit m.flow.scopes)

theorem Writing.lowerLoop_apply (tested : Bool) (ty : Ty) (tail : Tail) (desk : Desk) (m : Draft) :
    lowerLoop tested ty tail desk m = .ok ((), m.lowered tested ty tail) := by
  have hhanded : lowerLoop tested ty tail desk m = leaveLoop desk (m.closing.handing tested ty tail) := by
    unfold lowerLoop
    rw [bind_of_ok (putAgainLabel_eq desk m)]
    cases tested with
    | false => rfl
    | true => cases tail <;> rfl
  have hflow : (m.closing.handing tested ty tail).flow = m.flow :=
    (Draft.handing_flow _ _ _ _).trans (m.labelling_flow _)
  rw [hhanded, leaveLoop_eq, hflow]
  rfl

theorem Node.visited_loop {body : Tree} (h : body.Logged desk (p.inside (.loop exit again))) :
    ∃ r, (Node.loop body exit again).Visited desk p tail d r := by
  let n : Node Tree := .loop body exit again
  let q : Variants Observer := body.variants (p.inside (.loop exit again))
  let inner : Tail := tail.atType (exitTy exit)
  obtain ⟨takers, henter⟩ := enterLoop_apply exit again inner desk d
  let d' : Draft := d.taking takers
  have hunder : q.AlikeUnder (Trails desk [] [body] (p.inside (.loop exit again))) fun _ => True :=
    h.under (List.mem_singleton_self body)
  obtain ⟨r, hstops, htrail⟩ :=
    (Trails.congruent _ _ _ _).upperLoop trivial hunder exit (d'.enter (.loop exit again false false))
  have husual : n.usual p tail desk d = (do
      let t ← upperLoop q.left exit
      lowerLoop (tested? q.left exit).isSome (exitTy exit) inner
      return Tree.mk (.loop t exit again)) desk (d'.enter (.loop exit again false false)) := by
    have hparts : n.usual p tail = _ := loop_parts q.left exit again tail
    rw [hparts, bind_of_ok henter]
  have hunseen : ∀ o, n.unseen p tail o desk d = (do
      let t ← upperLoop (q.right o) exit
      lowerLoop (tested? q.left exit).isSome (exitTy exit) inner
      return Tree.mk (.loop t exit again)) desk (d'.enter (.loop exit again false false)) := by
    intro o
    have hparts : n.unseen p tail o = _ := loop_parts (q.right o) exit again tail
    rw [hparts, bind_of_ok henter, hunder.isSome_tested?]
  -- the loop is always entered; the visit may be broken off in its body
  cases hrun : upperLoop q.left exit desk (d'.enter (.loop exit again false false)) with
  | error err =>
    have hends : n.ends tail desk d = none := by
      rw [n.ends_eq p, husual, bind_apply, hrun]
      rfl
    rw [hrun] at htrail
    refine ⟨r, .of_parts (fun o => ?_) (.visit (.plain rfl hends) ?_) nofun⟩
    · rw [husual, hunseen]
      exact Observer.stops_bind_error hrun (hstops o)
    · show Trail desk [] [body] p d ([] ++ r) ((n.ends tail desk d).map Prod.snd)
      rw [hends]
      exact .trans (.calm (d.taking_calm takers)) (.inside (.loop exit again) htrail)
  | ok a =>
    obtain ⟨t, m⟩ := a
    let e : Draft := m.lowered (tested? q.left exit).isSome (exitTy exit) inner
    have hlower : lowerLoop (tested? q.left exit).isSome (exitTy exit) inner desk m = .ok ((), e) :=
      lowerLoop_apply _ _ _ desk m
    have hends : n.ends tail desk d = some (.mk (.loop t exit again), e) := by
      rw [n.ends_eq p, husual, bind_of_ok hrun, bind_of_ok hlower]
      rfl
    rw [hrun] at htrail
    refine ⟨r, .of_parts (fun o => ?_) ?_ nofun⟩
    · rw [husual, hunseen, ← List.append_nil r]
      exact Observer.stops_bind hrun (hstops o) (o.stops_nil _).symm
    · rw [hends]
      exact .visit (.loop hends henter hrun hlower) htrail

end Loops

end Scribe
