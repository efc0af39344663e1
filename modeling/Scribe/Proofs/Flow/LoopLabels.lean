import Scribe.Proofs.Writing.Trail.Keep

/-!
# The labels of loops

A jump to a label of a loop is a `break` or a `continue` when no other loop or switch is in between. Any other jump is a
`goto`, and the loop writes the label for it: behind its closing brace, or at the end of its body. What a loop has to
write is known in its scope: a jump that is resolved marks the loop that has its label, and a loop looks at these marks
when it ends.

`Tree.loop_writes_needed_labels` says that this comes out right for every loop that is written. It follows from what
happens to the marks of one loop along a trail (`Trail.marks`).
-/

namespace Scribe

open Writing
open Text (Page)
open Draft (LeadsTo)

/-! ## Scopes of loops and switches -/

/-- The loop has the label. -/
def Ring.Owns (i : Ident) : Ring → Prop
  | .loop exit again => exit.map (·.id) = some i ∨ again.map (·.id) = some i
  | .switch => False

/-- The scope is that of the loop or switch. -/
inductive Ring.Fits : Ring → JumpScope → Prop where
  | loop (exit again : Option Label) (x y : Bool) : Fits (.loop exit again) (.loop exit again x y)
  | switch : Fits .switch .switch

/-- The scopes are those of the loops and switches. -/
abbrev Flow.Fit : List Ring → List JumpScope → Prop := List.Forall₂ Ring.Fits

theorem Ring.fits_scope (ring : Ring) : ring.Fits ring.scope := by
  cases ring with
  | loop exit again => exact .loop exit again false false
  | switch => exact .switch

/-- What is learned of jumps is no matter here. -/
theorem Flow.Fit.learnTo {rings : List Ring} {scopes scopes' : List JumpScope} (h : Fit rings scopes)
    (hlearn : LearnTo scopes scopes') : Fit rings scopes' := by
  induction h generalizing scopes' with
  | nil =>
    cases hlearn
    exact .nil
  | cons hfits _ ih =>
    cases hlearn with
    | cons hhead htail =>
      refine .cons ?_ (ih htail)
      cases hfits <;> cases hhead
      · exact .loop _ _ _ _
      · exact .switch

section Resolve

variable {tops : List Ring} {scopes outer : List JumpScope} {exit again : Option Label} {x y : Bool}
  (hfit : Flow.Fit tops scopes) (i : Ident)

/-- A loop or switch without the label is passed. -/
theorem Flow.resolve_passes {ring : Ring} {scope : JumpScope} (hfits : ring.Fits scope) {i : Ident}
    (hfree : ¬ring.Owns i) (innermost : Bool) (outer : List JumpScope) :
    resolve i innermost (scope :: outer) = ((resolve i false outer).1, scope :: (resolve i false outer).2) := by
  cases hfits with
  | switch => rfl
  | loop exit again x y =>
    obtain ⟨hexit, hagain⟩ := not_or.mp hfree
    rw [resolve, if_neg (by rwa [beq_iff_eq]), if_neg (by rwa [beq_iff_eq])]

/-- A loop with the label keeps it from those further out. -/
theorem Flow.resolve_stops {ring : Ring} {scope : JumpScope} (hfits : ring.Fits scope) {i : Ident} (howns : ring.Owns i)
    (innermost : Bool) (outer : List JumpScope) :
    ∃ scope', ring.Fits scope' ∧ (resolve i innermost (scope :: outer)).2 = scope' :: outer := by
  cases hfits with
  | switch => exact howns.elim
  | loop exit again x y =>
    rw [resolve]
    split
    · cases innermost
      · exact ⟨_, .loop exit again true y, rfl⟩
      · exact ⟨_, .loop exit again x y, rfl⟩
    · next hexit =>
      rw [beq_iff_eq] at hexit
      rw [if_pos (beq_iff_eq.mpr (howns.resolve_left hexit))]
      cases innermost
      · exact ⟨_, .loop exit again x true, rfl⟩
      · exact ⟨_, .loop exit again x y, rfl⟩

include hfit

/-- The form of a jump to a label of a loop that no other loop in between has. -/
theorem Flow.resolve_form (howns : (Ring.loop exit again).Owns i) (hfree : ∀ ring ∈ tops, ¬ring.Owns i)
    (innermost : Bool) :
    (resolve i innermost (scopes ++ .loop exit again x y :: outer)).1 =
      if innermost = true ∧ tops = [] then if exit.map (·.id) = some i then .exit else .again else .goto := by
  induction hfit generalizing innermost with
  | nil =>
    rw [List.nil_append, resolve]
    by_cases hexit : exit.map (·.id) = some i
    · cases innermost <;> simp [hexit]
    · cases innermost <;> simp [hexit, howns.resolve_left hexit]
  | cons hfits _ ih =>
    rw [List.forall_mem_cons] at hfree
    rw [List.cons_append, resolve_passes hfits hfree.1]
    simp [ih hfree.2]

/-- What a jump does to the marks of a loop. -/
theorem Flow.resolve_marks (hlabels : ∀ i, exit.map (·.id) = some i → again.map (·.id) ≠ some i)
    (outer : List JumpScope) (innermost : Bool) :
    let reaches := (innermost = true → tops ≠ []) ∧ ∀ ring ∈ tops, ¬ring.Owns i
    ∃ scopes' outer' x' y', (resolve i innermost (scopes ++ .loop exit again x y :: outer)).2 =
        scopes' ++ .loop exit again x' y' :: outer' ∧ Fit tops scopes' ∧
      (x' = true ↔ x = true ∨ reaches ∧ exit.map (·.id) = some i) ∧
      (y' = true ↔ y = true ∨ reaches ∧ again.map (·.id) = some i) := by
  induction hfit generalizing innermost with
  | nil =>
    rw [List.nil_append, resolve]
    by_cases hexit : exit.map (·.id) = some i
    · cases innermost
      · exact ⟨[], outer, true, y, by simp [hexit], .nil, by simp [hexit], by simp [hlabels i hexit]⟩
      · exact ⟨[], outer, x, y, by simp [hexit], .nil, by simp, by simp⟩
    · by_cases hagain : again.map (·.id) = some i
      · cases innermost
        · exact ⟨[], outer, x, true, by simp [hexit, hagain], .nil, by simp [hexit], by simp [hagain]⟩
        · exact ⟨[], outer, x, y, by simp [hexit, hagain], .nil, by simp, by simp⟩
      · exact ⟨[], (resolve i false outer).2, x, y, by simp [hexit, hagain], .nil, by simp [hexit], by simp [hagain]⟩
  | @cons ring scope tops scopes hfits hrest ih =>
    by_cases howns : ring.Owns i
    · obtain ⟨scope', hfits', hstops⟩ := resolve_stops hfits howns innermost (scopes ++ .loop exit again x y :: outer)
      refine ⟨scope' :: scopes, outer, x, y, hstops, .cons hfits' hrest, ?_, ?_⟩
      · simp [howns]
      · simp [howns]
    · obtain ⟨scopes', outer', x', y', hresolve, hfit', hx, hy⟩ := ih false
      refine ⟨scope :: scopes', outer', x', y', ?_, .cons hfits hfit', ?_, ?_⟩
      · rw [List.cons_append, resolve_passes hfits howns, hresolve]
        rfl
      · simp [hx, howns]
      · simp [hy, howns]

end Resolve

/-! ## The marks of a loop -/

/-- The draft is inside a loop, with the loops and switches `tops` in between; `x` and `y` are the marks of the loop. -/
def Draft.InLoop (d : Draft) (tops : List Ring) (exit again : Option Label) (x y : Bool) : Prop :=
  ∃ scopes outer, d.flow.scopes = scopes ++ .loop exit again x y :: outer ∧ Flow.Fit tops scopes

/-- The visit is that of a jump to `target` that is written as such and not as a `return`. It is made in the function of
the loop at `p`, inside the loops and switches `between`, and none of these has the label. -/
structure Stint.JumpsTo (s : Stint) (p : Place) (exit again : Option Label) (between : List Ring) (target : Label) :
    Prop where
  place : s.start.place = ⟨between ++ .loop exit again :: p.rings, p.depth⟩
  free : ∀ ring ∈ between, ¬ring.Owns target.id
  jump : ∃ kind value ty, s.start.node = .jump kind target value ty ∧ ¬s.start.before.flow.Returns kind target
  done : s.finish.isSome = true

/-- The visit is that of a jump to the label of the loop at `p` from inside another loop or switch. -/
def Stint.Needs (s : Stint) (p : Place) (exit again label : Option Label) : Prop :=
  ∃ between target, s.JumpsTo p exit again between target ∧ between ≠ [] ∧ label.map (·.id) = some target.id

section Marks

variable {desk : Desk} {vs : List Variable} {ts : List Tree} {p q : Place} {d m e : Draft} {r : List Stint}
  {o : Option Draft} {exit again label : Option Label} {tops : List Ring} {x y : Bool} {n : Node Tree} {tail : Tail}
  {finish : Option (Tree × Draft)}

theorem Draft.InLoop.of_scopes (h : d.InLoop tops exit again x y) (hscopes : e.flow.scopes = d.flow.scopes) :
    e.InLoop tops exit again x y := by
  unfold InLoop
  rw [hscopes]
  exact h

theorem Draft.InLoop.enter (h : d.InLoop tops exit again x y) (ring : Ring) :
    (d.enter ring.scope).InLoop (ring :: tops) exit again x y := by
  obtain ⟨scopes, outer, hscopes, hfit⟩ := h
  exact ⟨ring.scope :: scopes, outer, congrArg (ring.scope :: ·) hscopes, .cons ring.fits_scope hfit⟩

theorem Draft.InLoop.leave {ring : Ring} (h : d.InLoop (ring :: tops) exit again x y) :
    d.leave.InLoop tops exit again x y := by
  obtain ⟨_, outer, hscopes, hfit⟩ := h
  cases hfit with
  | @cons _ scope _ scopes _ hfit => exact ⟨scopes, outer, congrArg (List.drop 1) hscopes, hfit⟩

/-- The loop is not needed by visits in other functions. -/
theorem Stint.not_needs_of_depth {s : Stint} (h : p.depth < s.start.place.depth) : ¬s.Needs p exit again label := by
  rintro ⟨between, target, hjumps, -⟩
  rw [hjumps.place] at h
  exact absurd h (Nat.lt_irrefl _)

/-- A visit is that of a jump only when its course is. -/
theorem Stint.not_needs_of_node {s : Stint}
    (h : ∀ kind target value ty, s.start.node = .jump kind target value ty →
      s.finish.isSome = true → s.start.before.flow.Returns kind target) : ¬s.Needs p exit again label := by
  rintro ⟨between, target, hjumps, -⟩
  obtain ⟨kind, value, ty, hnode, hreturns⟩ := hjumps.jump
  exact hreturns (h kind target value ty hnode hjumps.done)

/-- What a list of visits does to a mark. -/
def Marked (p : Place) (exit again label : Option Label) (r : List Stint) (x x' : Bool) : Prop :=
  x' = true ↔ x = true ∨ ∃ s ∈ Stint.allOf r, s.Needs p exit again label

namespace Marked

variable {r' : List Stint} {x' x'' : Bool}

theorem of_forall_not (h : ∀ s ∈ Stint.allOf r, ¬s.Needs p exit again label) : Marked p exit again label r x x := by
  have hnone : ¬∃ s ∈ Stint.allOf r, s.Needs p exit again label := fun ⟨s, hs, hneeds⟩ => h s hs hneeds
  simp [Marked, hnone]

theorem nil : Marked p exit again label [] x x := of_forall_not (by simp)

theorem append (h : Marked p exit again label r x x') (h' : Marked p exit again label r' x' x'') :
    Marked p exit again label (r ++ r') x x'' := by
  unfold Marked at h h' ⊢
  simp only [h', h, Stint.allOf_append, List.mem_append, or_assoc, or_and_right, exists_or]

/-- A visit that needs no label has the marks of those inside. -/
theorem visit {start : Moment} (h : Marked p exit again label r x x')
    (hs : ¬(Stint.mk start r finish).Needs p exit again label) :
    Marked p exit again label [.mk start r finish] x x' := by
  unfold Marked at h ⊢
  rw [h, Stint.allOf_singleton]
  simp only [List.exists_mem_cons_iff, hs, false_or]

end Marked

/-- Between the two drafts, which are inside the loop at `p`, the visits `r` are made. -/
def Draft.Marks (p : Place) (exit again : Option Label) (tops : List Ring) (x y : Bool) (r : List Stint) (e : Draft) :
    Prop :=
  ∃ x' y', e.InLoop tops exit again x' y' ∧ Marked p exit again exit r x x' ∧ Marked p exit again again r y y'

/-- Nothing in another function needs the labels of the loop. -/
theorem Trail.not_needs (h : Trail desk vs ts q.function d r o) (hq : q.depth = p.depth) :
    ∀ s ∈ Stint.allOf r, ¬s.Needs p exit again label := by
  intro s hs
  refine Stint.not_needs_of_depth ?_
  rcases h.place s hs with hdepth | ⟨hdepth, -⟩
  · exact hq ▸ Nat.lt_of_succ_lt hdepth
  · exact hq ▸ hdepth ▸ Nat.lt_succ_self q.depth

variable (hlabels : ∀ i, exit.map (·.id) = some i → again.map (·.id) ≠ some i)

include hlabels in
/-- A jump marks the loop when it reaches it from inside another loop or switch. -/
theorem Draft.Marks.jump {kind : JumpKind} {target : Label} {value : Option Tree} {ty : Ty} {u : Tree}
    (h : Draft.Marks p exit again tops x y r m) (hreturns : ¬d.flow.Returns kind target)
    (hjump : (do clearFaults (some target); putJump target) desk m = .ok ((), e)) :
    Draft.Marks p exit again tops x y [.mk ⟨⟨tops ++ .loop exit again :: p.rings, p.depth⟩,
      .jump kind target value ty, tail, d⟩ r (some (u, e))] e := by
  let s : Stint := .mk ⟨⟨tops ++ .loop exit again :: p.rings, p.depth⟩, .jump kind target value ty, tail, d⟩ r
    (some (u, e))
  obtain ⟨x', y', ⟨scopes, outer, hscopes, hfit⟩, hx, hy⟩ := h
  obtain ⟨scopes', outer', x'', y'', hresolve, hfit', hx', hy'⟩ := Flow.resolve_marks (x := x') (y := y')
    hfit target.id hlabels outer true
  have hneeds : ∀ label : Option Label, s.Needs p exit again label ↔
      (tops ≠ [] ∧ ∀ ring ∈ tops, ¬ring.Owns target.id) ∧ label.map (·.id) = some target.id := by
    intro label
    constructor
    · rintro ⟨between, target', ⟨hplace, hfree, ⟨_, _, _, hnode, _⟩, _⟩, hne, hlabel⟩
      cases hnode
      obtain rfl : tops = between := List.append_cancel_right (congrArg Place.rings hplace)
      exact ⟨⟨hne, hfree⟩, hlabel⟩
    · rintro ⟨⟨hne, hfree⟩, hlabel⟩
      exact ⟨tops, target, ⟨rfl, hfree, ⟨kind, value, ty, rfl, hreturns⟩, rfl⟩, hne, hlabel⟩
  -- the visit itself, and those inside it
  have hmarked : ∀ {label : Option Label} {z z' z'' : Bool}, Marked p exit again label r z z' →
      (z'' = true ↔ z' = true ∨ (tops ≠ [] ∧ ∀ ring ∈ tops, ¬ring.Owns target.id) ∧ label.map (·.id) = some target.id) →
      Marked p exit again label [s] z z'' := by
    intro label z z' z'' hz hz'
    unfold Marked at hz ⊢
    rw [hz', hz, ← hneeds, Stint.allOf_singleton, List.exists_mem_cons_iff, or_assoc, or_comm (a := s.Needs _ _ _ _)]
  refine ⟨x'', y'', ⟨scopes', outer', ?_, hfit'⟩, hmarked hx ?_, hmarked hy ?_⟩
  · rw [(depart_step hjump).2.1, hscopes, hresolve]
  · simpa using hx'
  · simpa using hy'

include hlabels in
/-- **The marks of a loop along a trail.** Inside the loop at `p`, a mark is set by the jumps that need it. -/
theorem Trail.marks (h : Trail desk vs ts q d r o) (hq : q = ⟨tops ++ .loop exit again :: p.rings, p.depth⟩)
    (hd : d.InLoop tops exit again x y) : ∀ e ∈ o, Draft.Marks p exit again tops x y r e := by
  induction h generalizing tops x y with
  | broken => exact nofun
  | calm hcalm | bound _ hcalm _ =>
    rintro e ⟨⟩
    exact ⟨x, y, hd.of_scopes hcalm.scopes, .nil, .nil⟩
  | trans _ _ ih ih' =>
    intro e he
    obtain ⟨x', y', hm, hx, hy⟩ := ih hq hd _ rfl
    obtain ⟨x'', y'', he, hx', hy'⟩ := ih' hq hm e he
    exact ⟨x'', y'', he, hx.append hx', hy.append hy'⟩
  | part _ _ ih | within _ ih => exact ih hq hd
  | inside ring _ ih =>
    intro e he
    obtain ⟨f, hf, rfl⟩ := Option.map_eq_some_iff.mp he
    obtain ⟨x', y', hf, hx, hy⟩ := ih (by rw [hq]; rfl) (hd.enter ring) f hf
    exact ⟨x', y', hf.leave, hx, hy⟩
  | function htrail ih =>
    intro e he
    obtain ⟨f, hf, rfl⟩ := Option.map_eq_some_iff.mp he
    have hnot : ∀ label, ∀ s ∈ Stint.allOf _, ¬s.Needs p exit again label :=
      fun label => htrail.not_needs (by rw [hq])
    exact ⟨x, y, hd.of_scopes rfl, .of_forall_not (hnot exit), .of_forall_not (hnot again)⟩
  | visit hcourse htrail ih =>
    -- all visits but those of jumps leave the marks to the visits inside
    have hvisit : ∀ {start : Moment} {r : List Stint} {finish : Option (Tree × Draft)} {e : Draft},
        (∀ kind target value ty, start.node = .jump kind target value ty → finish.isSome = true →
          start.before.flow.Returns kind target) →
        Draft.Marks p exit again tops x y r e → Draft.Marks p exit again tops x y [.mk start r finish] e := by
      rintro start r finish e hnode ⟨x', y', he, hx, hy⟩
      have hnot : ∀ label, ¬(Stint.mk start r finish).Needs p exit again label :=
        fun label => Stint.not_needs_of_node hnode
      exact ⟨x', y', he, hx.visit (hnot exit), hy.visit (hnot again)⟩
    cases hcourse with
    | var v =>
      rw [Node.ends_var]
      rintro e ⟨⟩
      exact hvisit nofun ⟨x, y, hd.of_scopes (Draft.writing_calm _ v).scopes, .nil, .nil⟩
    | block _ hhead _ =>
      rw [blockHead_eq hhead] at ih
      exact fun e he => hvisit nofun (ih hq (hd.of_scopes (Draft.heading_calm _ _ _).scopes) e he)
    | jump _ hreturns hjump =>
      rintro e ⟨⟩
      rw [hq] at ih ⊢
      exact (ih rfl hd _ rfl).jump hlabels hreturns hjump
    | loop _ henter _ hlower =>
      rintro e ⟨⟩
      obtain ⟨takers, rfl⟩ := enterLoop_eq henter
      obtain ⟨x', y', hm, hx, hy⟩ := ih (by rw [hq]; rfl)
        ((hd.of_scopes (Draft.taking_calm _ takers).scopes).enter (.loop _ _)) _ rfl
      exact hvisit nofun ⟨x', y', hm.leave.of_scopes (lowerLoop_step hlower).scopes, hx, hy⟩
    | known =>
      rintro e ⟨⟩
      exact hvisit nofun ⟨x, y, hd.of_scopes rfl, .nil, .nil⟩
    | moved =>
      intro e he
      obtain ⟨f, hf, rfl⟩ := Option.map_eq_some_iff.mp he
      obtain ⟨g, rfl, rfl⟩ := Option.map_eq_some_iff.mp hf
      have hnot : ∀ label, ∀ s ∈ Stint.allOf _, ¬s.Needs p exit again label :=
        fun label => htrail.not_needs (by rw [hq])
      exact hvisit nofun ⟨x, y, hd.of_scopes rfl, .of_forall_not (hnot exit), .of_forall_not (hnot again)⟩
    | plain _ hplain =>
      intro e he
      refine hvisit ?_ (ih hq hd e he)
      rintro kind target value ty rfl hsome
      refine hplain.resolve_left fun hnone => ?_
      rw [hnone] at hsome
      cases hsome

include hlabels in
/-- Every visit in the function of the loop is made inside the loop. -/
theorem Trail.inLoop (h : Trail desk vs ts q d r o) (hq : q = ⟨tops ++ .loop exit again :: p.rings, p.depth⟩)
    (hd : d.InLoop tops exit again x y) : ∀ s ∈ Stint.allOf r, ∀ between,
      s.start.place = ⟨between ++ .loop exit again :: p.rings, p.depth⟩ →
      ∃ x y, s.start.before.InLoop between exit again x y := by
  -- what is visited in another function has another depth
  have helsewhere : ∀ {vs ts q d r o}, Trail desk vs ts (Place.function q) d r o → q.depth = p.depth →
      ∀ s ∈ Stint.allOf r, ∀ between, s.start.place = ⟨between ++ .loop exit again :: p.rings, p.depth⟩ →
      ∃ x y, s.start.before.InLoop between exit again x y := by
    intro vs ts q d r o htrail hdepth s hs between hplace
    have hbelow := htrail.place s hs
    rw [hplace] at hbelow
    rcases hbelow with hbelow | ⟨hbelow, -⟩
    · exact absurd (Nat.lt_of_succ_lt hbelow) (hdepth ▸ Nat.lt_irrefl _)
    · exact absurd (hbelow.trans (congrArg Nat.succ hdepth)) (Nat.succ_ne_self _).symm
  induction h generalizing tops x y with
  | broken | calm | bound => simp
  | trans htrail _ ih ih' =>
    obtain ⟨x', y', hm, -⟩ := htrail.marks hlabels hq hd _ rfl
    rw [Stint.allOf_append]
    exact List.forall_mem_append.mpr ⟨ih hq hd, ih' hq hm⟩
  | part _ _ ih | within _ ih => exact ih hq hd
  | inside ring _ ih => exact ih (by rw [hq]; rfl) (hd.enter ring)
  | function htrail _ => exact helsewhere htrail (by rw [hq])
  | visit hcourse htrail ih =>
    rw [Stint.allOf_singleton]
    refine List.forall_mem_cons.mpr ⟨fun between hplace => ?_, ?_⟩
    · rw [hq] at hplace
      obtain rfl : tops = between := List.append_cancel_right (congrArg Place.rings hplace)
      exact ⟨x, y, hd⟩
    · cases hcourse with
      | var | known => simp
      | block _ hhead _ =>
        rw [blockHead_eq hhead] at ih
        exact ih hq (hd.of_scopes (Draft.heading_calm _ _ _).scopes)
      | loop _ henter _ _ =>
        obtain ⟨takers, rfl⟩ := enterLoop_eq henter
        exact ih (by rw [hq]; rfl)
          ((hd.of_scopes (Draft.taking_calm _ takers).scopes).enter (.loop _ _))
      | moved => exact helsewhere htrail (by rw [hq])
      | jump | plain => exact ih hq hd

end Marks

/-! ## The text of a jump -/

section Jumps

variable {desk : Desk} {d e : Draft} {kind : JumpKind} {target : Label} {value : Option Piece} {t : Tree}
  (hvalue : ∀ p ∈ value, p.Steps desk)

include hvalue

/-- A jump that does not return ends with the jump itself, from a draft that is among the same loops and switches. -/
theorem Writing.jump_departs (hreturns : ¬d.flow.Returns kind target) (h : jump kind target value desk d = .ok (t, e)) :
    ∃ lead m u, LeadsTo desk d m ∧ depart target u desk m = .ok (t, e) ∧
      d.Clears (d.flow.flagsLeft (some target.id)) lead
        ((m.flow.formOf target).word (m.naming.nameLabel target).1) e := by
  have hresult : d.flow.takers.lookup target.id ≠ some .result := fun hresult => hreturns (.inl hresult)
  -- what is on the line of the value ends it in front of the cleared flags
  by_cases hassign : ∃ name, d.flow.takers.lookup target.id = some (.assign name)
  · obtain ⟨name, hname⟩ := hassign
    rw [jump_of_assign hname, put_bind] at h
    obtain ⟨a, m, hrun, h⟩ := bind_eq_ok.mp h
    obtain ⟨v, hprints, -⟩ := valueOrDefault_prints hvalue hrun
    have hlead : m.page.settle.text = d.page.settle.text ++ (name ++ " = " ++ v) := by
      rw [hprints.text, Page.settle_write_text, String.append_assoc]
    have hm : LeadsTo desk d m := (LeadsTo.put d _).trans hprints.runs.1
    have hclears := endLine_clears hm hlead h
    exact ⟨_, { m with page := (m.page.write ";").newline }, _,
      hm.trans ((LeadsTo.put m ";").trans (.newline _)), h, hclears⟩
  rw [not_exists] at hassign
  have hkind : kind ≠ .returnTo := fun hkind => hreturns (.inr ⟨hkind, hassign⟩)
  rw [jump_of_untaken hresult hassign hkind] at h
  obtain ⟨a, m, hrun, h⟩ := bind_eq_ok.mp h
  by_cases heffect : ∃ p ∈ value, p.tree.node.isEffect = true
  · obtain ⟨p, rfl, heffect⟩ := heffect
    simp only [effectOf, if_pos heffect] at hrun
    obtain ⟨b, k, hinline, hrun⟩ := bind_eq_ok.mp hrun
    cases hrun
    obtain ⟨v, hprints⟩ := Draft.Prints.of_runs
      ((hvalue p rfl).inline .discard (isExpression_of_isEffect heffect) _ _ _ hinline)
    have hend : (do put ";"; newline; depart target (Tree.jump kind target (some b))) desk k = .ok (t, e) := h
    have hclears := endLine_clears hprints.runs.1 hprints.text hend
    exact ⟨_, { k with page := (k.page.write ";").newline }, _,
      hprints.runs.1.trans ((LeadsTo.put k ";").trans (.newline _)), h, hclears⟩
  · have hnothing : effectOf value desk d = .ok (value.map (·.tree), d) := by
      cases value with
      | none => rfl
      | some p =>
        have heffect : ¬p.tree.node.isEffect = true := fun he => heffect ⟨p, rfl, he⟩
        simp only [effectOf, if_neg heffect]
        rfl
    rw [hnothing] at hrun
    cases hrun
    exact ⟨"", d, _, .refl d, h, depart_clears (.refl d) String.append_empty.symm h⟩

end Jumps

theorem Draft.InLoop.learnTo {d e : Draft} {tops : List Ring} {exit again : Option Label} {x y : Bool}
    (h : d.InLoop tops exit again x y) (hlearn : Flow.LearnTo d.flow.scopes e.flow.scopes) :
    ∃ x y, e.InLoop tops exit again x y := by
  obtain ⟨scopes, outer, hscopes, hfit⟩ := h
  have hsplit : ∀ {scopes later : List JumpScope}, Flow.LearnTo (scopes ++ .loop exit again x y :: outer) later →
      ∃ scopes' outer' x y, later = scopes' ++ .loop exit again x y :: outer' ∧ Flow.LearnTo scopes scopes' := by
    intro scopes
    induction scopes with
    | nil =>
      rintro later (_ | ⟨⟨_, _, _, _⟩, _⟩)
      exact ⟨[], _, _, _, rfl, .nil⟩
    | cons scope scopes ih =>
      rintro later (_ | ⟨hhead, htail⟩)
      obtain ⟨scopes', outer', x, y, rfl, hlearn⟩ := ih htail
      exact ⟨_ :: scopes', outer', x, y, rfl, .cons hhead hlearn⟩
  rw [hscopes] at hlearn
  obtain ⟨scopes', outer', x, y, hlater, hlearn⟩ := hsplit hlearn
  exact ⟨x, y, scopes', outer', hlater, hfit.learnTo hlearn⟩

/-- The visit writes a jump to `target`: what becomes of its value, the lines that clear flags, and then `word`. -/
def Stint.Goes (s : Stint) (target : Label) (word : String) : Prop :=
  ∃ lead, ∃ f ∈ s.finish, s.start.before.Clears (s.start.before.flow.flagsLeft (some target.id)) lead word f.2

section Visits

variable {desk : Desk} {s : Stint} {p q : Place} {exit again : Option Label} {between : List Ring} {target : Label}
  {vs : List Variable} {ts : List Tree} {m : Draft} {o : Option Draft} {x y : Bool}

/-- A jump inside the loop has the right form, and a label that it needs has its name behind it. -/
theorem Stint.JumpsTo.goes (h : s.JumpsTo p exit again between target)
    (hcourse : s.start.node.Course desk s.start.place s.start.tail s.start.before vs ts q m s.inner o s.finish)
    (hin : s.start.before.InLoop between exit again x y) (howns : (Ring.loop exit again).Owns target.id) :
    (between = [] → s.Goes target (if exit.map (·.id) = some target.id then "break" else "continue")) ∧
      (between ≠ [] → ∃ name, s.Goes target ("goto " ++ name) ∧
        ∀ f ∈ s.finish, f.2.naming.label? target.id = some name) := by
  obtain ⟨⟨place, node, tail, d⟩, inner, finish⟩ := s
  obtain ⟨-, hfree, ⟨kind, value, ty, hnode, hreturns⟩, hdone⟩ := h
  obtain ⟨⟨u, e⟩, rfl⟩ := Option.isSome_iff_exists.mp hdone
  cases hnode
  have hends : (Node.jump kind target value ty).ends tail desk d = some (u, e) := by
    cases hcourse with
    | jump hends | plain hends => exact hends
  have hrun := Node.run_of_ends hends
  rw [Tree.piece_mk] at hrun
  obtain ⟨lead, m', t, hleads, hdepart, hclears⟩ := jump_departs (Tree.steps_of_mem_map value desk) hreturns hrun
  obtain ⟨x', y', scopes, outer, hscopes, hfit⟩ := hin.learnTo hleads.scopes
  -- behind its value the jump still is among the same loops, so its form is that of the beginning
  have hform : m'.flow.formOf target = if between = [] then if exit.map (·.id) = some target.id then .exit else .again
      else .goto := by
    unfold Flow.formOf
    rw [hscopes, Flow.resolve_form hfit target.id howns hfree]
    simp
  constructor
  · rintro rfl
    refine ⟨lead, _, rfl, ?_⟩
    rw [hform, if_pos rfl] at hclears
    split at hclears
    · next hexit =>
      rw [if_pos hexit]
      exact hclears
    · next hexit =>
      rw [if_neg hexit]
      exact hclears
  · intro hne
    rw [if_neg hne] at hform
    rw [hform] at hclears
    obtain ⟨e', hjump, hall⟩ := depart_apply target desk m'
    rw [hall] at hdepart
    cases hdepart
    refine ⟨_, ⟨lead, _, rfl, hclears⟩, ?_⟩
    rintro f ⟨⟩
    exact (depart_step hjump).2.2 hform

end Visits

/-! ## The text of a loop -/

/-- A line, when there is one. -/
def Text.Page.lined (p : Page) : Option String → Page
  | none => p
  | some line => p.writeLine line

theorem Draft.labelling_page (d : Draft) (target : Option Label) :
    (d.labelling target).page = d.page.labelled (target.map fun l => (d.naming.nameLabel l).1) := by
  cases target <;> rfl

/-- The line that hands on a default value. -/
theorem Draft.handing_page (d : Draft) (tested : Bool) (ty : Ty) (tail : Tail) :
    ∃ handed, (d.handing tested ty tail).page = d.page.lined handed ∧
      ∀ line ∈ handed, ∃ lead type, tail.lead? = some lead ∧ line = lead ++ "default(" ++ type ++ ");" := by
  unfold handing
  split
  · next lead hlead =>
    refine ⟨some (lead ++ d.defaultText ty ++ ";"), ?_, ?_⟩
    · show ((d.page.newline.write lead).write (d.defaultText ty)).write ";" = d.page.newline.write _
      rw [Page.write_write, Page.write_write, String.append_assoc]
    · rintro line ⟨⟩
      refine ⟨lead, ((Lexicon.spell ty).run d.lexicon).1, hlead, ?_⟩
      simp only [Draft.defaultText, String.append_assoc]
      rfl
  · exact ⟨none, rfl, nofun⟩

namespace Writing

variable {desk : Desk} {d m : Draft} {q : Piece} {exit : Option Label} {t : Tree}

/-- What is written of a loop up to the end of its body. -/
theorem upperLoop_text (hq : q.Steps desk) (h : upperLoop q exit desk d = .ok (t, m)) :
    ∃ s, m.page.text = (d.page.writeLine "while (").text ++ s := by
  let start : String := (d.page.writeLine "while (").text
  have hstable := Draft.InOrder.stable desk start []
  have hsettled : (d.page.writeLine "while (").owesIndent = false := Page.write_owesIndent (by decide) _
  suffices htakes : Takes desk (· = d) (upperLoop q exit) (Draft.InOrder start []) from htakes d t m rfl h
  unfold upperLoop
  split
  · next branches ifFalse ty htested =>
    have hb : branches.Steps desk := by
      unfold tested? at htested
      split at htested
      · next hbranches =>
        split at htested
        · cases htested
          exact hq.branches hbranches
        · cases htested
      · cases htested
    have hopens : Takes desk (· = d) (putLine "while (") (Draft.Settled (Draft.InOrder start [])) := by
      intro k _ _ hk hrun
      rw [hk] at hrun
      cases hrun
      exact ⟨⟨"", String.append_empty.symm⟩, hsettled⟩
    exact .bind hopens fun _ => .bind (hb.test hstable) fun _ => .bind ((put_inline _).stepwise.takes hstable) fun _ =>
      .bind openBrace_inOrder fun _ => .map ((hb.whenTrue _).takes hstable)
  · have hopens : Takes desk (· = d) (putLine "while (true)") (Draft.InOrder start []) := by
      intro k _ _ hk hrun
      rw [hk] at hrun
      cases hrun
      refine ⟨"true)", ?_⟩
      show (d.page.newline.write ("while (" ++ "true)")).text = _
      rw [← Page.write_write]
      exact Page.write_text_of_settled hsettled _
    exact .bind hopens fun _ => .bind openBrace_inOrder fun _ => (Piece.body_stepwise hq _).takes hstable

end Writing

/-! ## The labels that are needed -/

/-- What becomes of the jumps to the label of the loop at `p`; `name` is the label that the loop writes, if it does. -/
structure Reached (p : Place) (exit again label : Option Label) (word : String) (name : Option String)
    (r : List Stint) : Prop where
  near (s : Stint) (target : Label) : s ∈ Stint.allOf r → label.map (·.id) = some target.id →
    s.JumpsTo p exit again [] target → s.Goes target word
  far (s : Stint) (between : List Ring) (target : Label) : s ∈ Stint.allOf r → label.map (·.id) = some target.id →
    s.JumpsTo p exit again between target → between ≠ [] → ∃ n ∈ name, s.Goes target ("goto " ++ n)
  needed : name.isSome = true → ∃ s ∈ Stint.allOf r, s.Needs p exit again label

section Loops

variable {desk : Desk} {p : Place} {exit again : Option Label} {d d' m : Draft} {r : List Stint} {vs : List Variable}
  {ts : List Tree} {x y : Bool}
  (hlabels : ∀ i, exit.map (·.id) = some i → again.map (·.id) ≠ some i)
  (htrail : Trail desk vs ts (p.inside (.loop exit again)) d r (some m)) (hd : d.InLoop [] exit again x y)

include hlabels htrail hd

/-- The jumps to a label of a loop whose body is written between `d` and `m`; later on the loop writes the label, if it
has been marked. -/
theorem Trail.reached {label needed : Option Label} {word : String} {later : Naming} {z : Bool}
    (hlabel : ∀ i, label.map (·.id) = some i → (Ring.loop exit again).Owns i ∧
      (if exit.map (·.id) = some i then "break" else "continue") = word)
    (hmarked : Marked p exit again label r false z) (hneeded : needed = if z = true then label else none)
    (hlater : m.naming.Extends later) :
    Reached p exit again label word (needed.map fun l => (later.nameLabel l).1) r := by
  have hgoes : ∀ s ∈ Stint.allOf r, ∀ between target, label.map (·.id) = some target.id →
      s.JumpsTo p exit again between target → (between = [] → s.Goes target word) ∧
        (between ≠ [] → ∃ name, s.Goes target ("goto " ++ name) ∧
          ∀ f ∈ s.finish, f.2.naming.label? target.id = some name) := by
    intro s hs between target htarget hjumps
    obtain ⟨vs, ts, q, k, o, hcourse, -⟩ := htrail.course s hs
    obtain ⟨x, y, hin⟩ := htrail.inLoop hlabels rfl hd s hs between hjumps.place
    have hgoes := hjumps.goes hcourse hin (hlabel _ htarget).1
    rwa [(hlabel _ htarget).2] at hgoes
  refine ⟨fun s target hs htarget hjumps => ?_, fun s between target hs htarget hjumps hne => ?_, fun hsome => ?_⟩
  · exact (hgoes s hs [] target htarget hjumps).1 rfl
  · obtain ⟨name, hgoto, hname⟩ := (hgoes s hs between target htarget hjumps).2 hne
    have hz : z = true := hmarked.mpr (.inr ⟨s, hs, between, target, hjumps, hne, htarget⟩)
    rw [if_pos hz] at hneeded
    subst hneeded
    obtain ⟨l, hl, hid⟩ := Option.map_eq_some_iff.mp htarget
    obtain ⟨f, hf⟩ := Option.isSome_iff_exists.mp hjumps.done
    have hknown : later.label? l.id = some name := by
      rw [hid]
      exact hlater.onLabel _ _ (((htrail.names_visit s hs).2 f hf m rfl).onLabel _ _ (hname f hf))
    refine ⟨name, ?_, hgoto⟩
    rw [hl, Option.map_some, Naming.nameLabel_of_known hknown]
    rfl
  · cases z with
    | true => exact (hmarked.mp rfl).resolve_left nofun
    | false =>
      subst hneeded
      cases hsome

end Loops

/-- **The jumps to the labels of a loop find them.** Of every loop with different labels that is written: a jump to one of
them in the same function is a `break` or a `continue` when no other loop or switch is in between, and otherwise a `goto`
to a label that the loop writes. The loop writes its labels only where such a `goto` needs them: for the next round at the
end of the body, and for the end behind the closing brace and all else, once each. -/
theorem Tree.loop_writes_needed_labels (t : Tree) (desk : Desk) : ∃ record, t.Records desk record ∧
    ∀ p body exit again tail d inner u e,
      .mk ⟨p, .loop body exit again, tail, d⟩ inner (some (u, e)) ∈ Stint.allOf record →
      (∀ i, exit.map (·.id) = some i → again.map (·.id) ≠ some i) →
      ∃ (content : Page) (exitName againName handed : Option String),
        (∃ text, content.text = (d.page.writeLine "while (").text ++ text) ∧
        e.page = ((content.labelled againName).closeBrace.lined handed).labelled exitName ∧
        (∀ line ∈ handed, ∃ lead type, (tail.atType (exitTy exit)).lead? = some lead ∧
          line = lead ++ "default(" ++ type ++ ");") ∧
        Reached p exit again exit "break" exitName inner ∧ Reached p exit again again "continue" againName inner := by
  obtain ⟨record, hrecord, htrail⟩ := t.exists_record desk
  refine ⟨record, hrecord, fun p body exit again tail d inner u e hs hlabels => ?_⟩
  obtain ⟨vs, ts, q, k, o, hcourse, hinner⟩ := htrail.course _ hs
  cases hcourse with
  | plain _ hplain => cases hplain
  | @loop d' m _ _ _ t _ _ _ _ henter hupper hlower =>
    obtain ⟨takers, rfl⟩ := enterLoop_eq henter
    have hin : ((d.taking takers).enter (.loop exit again false false)).InLoop [] exit again false false :=
      ⟨[], _, rfl, .nil⟩
    obtain ⟨x, y, ⟨_, outer, hscopes, ⟨⟩⟩, hx, hy⟩ := hinner.marks hlabels rfl hin m rfl
    let tested : Bool := (tested? body.piece exit).isSome
    let handing : Draft := m.closing.handing tested (exitTy exit) (tail.atType (exitTy exit))
    have hend : lowerLoop tested (exitTy exit) (tail.atType (exitTy exit)) desk m = .ok ((), e) := hlower
    rw [lowerLoop_apply] at hend
    cases hend
    have hexit : Flow.neededExit m.flow.scopes = if x = true then exit else none := by
      rw [hscopes]
      cases x <;> rfl
    have hagain : Flow.neededAgain m.flow.scopes = if y = true then again else none := by
      rw [hscopes]
      cases y <;> rfl
    have hnames : m.naming.Extends handing.naming := (m.handed_calm _ _ _).names
    have htext := upperLoop_text body.steps hupper
    obtain ⟨handed, hhanded, hline⟩ := m.closing.handing_page tested (exitTy exit) (tail.atType (exitTy exit))
    refine ⟨m.page, _, _, handed, htext, ?_, hline,
      hinner.reached hlabels hin (fun i hi => ⟨.inl hi, if_pos hi⟩) hx hexit hnames,
      hinner.reached hlabels hin (fun i hi => ⟨.inr hi, if_neg fun h => hlabels i h hi⟩) hy hagain (.refl _)⟩
    rw [Draft.lowered, Draft.labelling_page, ← Draft.labelling_page m]
    show Page.labelled handing.page _ = _
    rw [hhanded]
    rfl

/-- The expression that is the body of a lambda in place belongs to the function around the lambda: the only jump to the
label of this loop stands inside a lambda, and the loop writes the label for it. -/
theorem Tree.jump_in_lambda_makes_label :
    let l : Label := { id := .given "l", ty := .void }
    let one : Tree := .mk (.constant (.int 1) .int)
    let lambda : Tree := .lambda (.given "f") [] (.jump .breakTo l none)
    let t : Tree := .mk (.loop (.switch one [⟨[one], .unary .quote (some lambda)⟩] none) (some l) none)
    (t.toScript {}).toOption.map (·.text) = some
      ("while (true)\n\x7b\n    switch (1)\n    \x7b\n        case 1:\n            () => goto label1;\n" ++
        "            break;\n    \x7d\n\x7d\nlabel1:;") := by
  decide +kernel

end Scribe
