import Scribe.Proofs.Writing.Trail

/-!
# The trails of visits

Every tree has a trail wherever it is written (`Tree.logged`). The proof goes by induction over the tree: what a node does
besides its parts is shown for each kind of node that does so, and all other nodes go by congruence.
-/

namespace Scribe

open Writing
open Variants (left right)

/-! ## Observed trees -/

/-- The visit of a node is one stint. -/
theorem Writing.watched_stops {x y : Writing Tree} {o : Observer} {start : Draft → Moment} {r : List Stint}
    {desk : Desk} {d : Draft} (h : y desk d = o.stops r (x desk d)) :
    watched o start y desk d = o.stops [.mk (start d) r (x desk d).toOption] (x desk d) := by
  unfold watched Observer.stops at *
  simp only [Stint.stoppedOf, Stint.stopped]
  rw [bind_apply, get_apply]
  simp only [orStop]
  cases o.begins (start d) with
  | some err => rfl
  | none =>
    simp only
    rw [bind_apply, h]
    cases Stint.stoppedOf o r with
    | some err => rfl
    | none =>
      cases x desk d with
      | error err => rfl
      | ok result =>
        obtain ⟨t, e⟩ := result
        simp only [bind_apply, get_apply]
        cases hends : o.ends (start d) t e with
        | some err | none => simp [Except.toOption, hends]

theorem Tree.observed_mk (o : Observer) (n : Node Tree) (p : Place) :
    (Tree.mk n).observed o p = (n.map fun c => (c, c.observed o)).observed o p := by
  rw [observed, fold_mk]
  rfl

/-- A tree with its usual rendition and the observed ones. -/
def Tree.variants (t : Tree) (p : Place) : Variants Observer := ⟨t, t.rendition, fun o => t.observed o p⟩

/-- The children, each at its place. -/
def Node.variants (n : Node Tree) (p : Place) (inPlace : Bool) : Node (Variants Observer) :=
  (n.located id p inPlace).map fun c => c.1.variants c.2

section Variants

variable (n : Node Tree) (p : Place) (inPlace : Bool)

theorem Node.map_left_variants : (n.variants p inPlace).map left = n.map Tree.piece := by
  have h : (left ∘ fun c : Tree × Place => c.1.variants c.2) = Tree.piece ∘ Prod.fst := rfl
  rw [variants, Node.map_map, h, ← Node.map_map, Node.map_located]

theorem Node.map_right_variants (o : Observer) :
    (n.variants p inPlace).map (right o) = (n.map fun c => (c, c.observed o)).pieces p inPlace := by
  rw [variants, pieces, Node.located_map, Node.map_map, Node.map_map]
  rfl

variable {n} in
/-- Most nodes write all of their children as values. -/
theorem Node.variants_of_writesValues (h : n.writesValues = true) :
    n.variants p inPlace = n.map fun c => c.variants (p.ofValue c) := by
  have hlocated : n.located id p inPlace = n.map fun c => (c, p.ofValue c) := by
    cases n <;> first | rfl | cases h
  rw [variants, hlocated, Node.map_map]
  rfl

end Variants

/-- An assignment to a variable begins with the variable. -/
def Node.Opens (n : Node Tree) (desk : Desk) (p : Place) (d : Draft) (r : List Stint) : Prop :=
  ∀ v value ty, n = .binary .assign (.mk (.var v)) value ty →
    ∃ inner, r = .mk ⟨p, .var v, .discard, d⟩ [] ((Node.var v).ends .discard desk d) :: inner

/-- The node is visited, and the visits inside are `r`. -/
structure Node.Visited (n : Node Tree) (desk : Desk) (p : Place) (tail : Tail) (d : Draft) (r : List Stint) : Prop where
  stops (o : Observer) : ((Tree.mk n).observed o p).write tail desk d =
    o.stops [.mk ⟨p, n, tail, d⟩ r (n.ends tail desk d)] ((Tree.mk n).piece.write tail desk d)
  trail : Trail desk [] [.mk n] p d [.mk ⟨p, n, tail, d⟩ r (n.ends tail desk d)]
    ((n.ends tail desk d).map Prod.snd)
  opens : n.Opens desk p d r

/-- Whatever is written of the tree at the place has a trail. -/
structure Tree.Logged (desk : Desk) (t : Tree) (p : Place) : Prop where
  visited (tail : Tail) (d : Draft) : ∃ r, t.node.Visited desk p tail d r
  branches : (t.variants p).usual.branches = none ∧ (∀ o, ((t.variants p).other o).branches = none) ∨
    ∃ b b', (t.variants p).usual.branches = some b ∧ (∀ o, ((t.variants p).other o).branches = some (b' o)) ∧
      b.Alike (Trails desk [] [t] p) (fun _ => True) b'
  quoted : (t.variants p).usual.quoted = none ∧ (∀ o, ((t.variants p).other o).quoted = none) ∨
    ∃ x y, (t.variants p).usual.quoted = some x ∧ (∀ o, ((t.variants p).other o).quoted = some (y o)) ∧
      Trails desk [] [t] p Tree x y

section Logged

variable {desk : Desk} {t : Tree} {p : Place} {vs : List Variable} {ts : List Tree}

theorem Tree.Logged.write (h : t.Logged desk p) (tail : Tail) :
    Trails desk [] [t] p Tree (t.piece.write tail) fun o => (t.observed o p).write tail := by
  obtain ⟨n⟩ := t
  intro d
  obtain ⟨r, hr⟩ := h.visited tail d
  exact ⟨_, hr.stops, hr.trail⟩

theorem Tree.Logged.under (h : t.Logged desk p) (ht : t ∈ ts) :
    (t.variants p).AlikeUnder (Trails desk vs ts p) fun _ => True := by
  have hown : (t.variants p).AlikeUnder (Trails desk [] [t] p) fun _ => True :=
    ⟨fun tail _ => h.write tail, h.branches⟩
  exact hown.imp (.part ht)

/-- An expression is written as a value in place. -/
theorem Tree.Logged.expression (h : t.Logged desk p) (ht : t ∈ ts) (he : t.isExpression = true) :
    (t.variants p).Alike (Trails desk vs ts p) := by
  have hleft : (t.variants p).left.value = (t.variants p).left.inline := if_pos he
  have hright : ∀ o, ((t.variants p).right o).value = ((t.variants p).right o).inline := fun _ => if_pos he
  have hown : (t.variants p).Alike (Trails desk [] [t] p) := by
    refine ⟨?_, h.quoted⟩
    simp only [hleft, hright]
    exact h.write .discard
  exact hown.imp (.part ht)

theorem Tree.Logged.closure (h : t.Logged desk p.function) (ht : t ∈ ts) (he : t.isExpression ≠ true) :
    (t.variants p.function).Alike (Trails desk vs ts p) := by
  have hleft : (t.variants p.function).left.value = (t.variants p.function).left.closure := if_neg he
  have hright : ∀ o, ((t.variants p.function).right o).value = ((t.variants p.function).right o).closure :=
    fun _ => if_neg he
  constructor
  · simp only [hleft, hright]
    exact (Trails.congruent _ _ _ _).closure (Allowance.admits_all _) (.function ((h.under ht).write _ trivial))
  · have hnone : (t.variants p.function).usual.quoted = none := Tree.quoted_of_not_isExpression he
    rcases h.quoted with hquoted | ⟨x, y, hx, -⟩
    · exact .inl hquoted
    · rw [hnone] at hx
      cases hx

theorem Tree.Logged.value (h : t.Logged desk (p.ofValue t)) (ht : t ∈ ts) :
    (t.variants (p.ofValue t)).Alike (Trails desk vs ts p) := by
  by_cases he : t.isExpression = true
  · have hp : p.ofValue t = p := if_pos he
    rw [hp] at h ⊢
    exact h.expression ht he
  · have hp : p.ofValue t = p.function := if_neg he
    rw [hp] at h ⊢
    exact h.closure ht he

end Logged

/-! ## Variables -/

/-- The text is a way to spell the type. -/
def Ty.SpelledAs (ty : Ty) (s : String) : Prop := ∃ lexicon, ((Lexicon.spell ty).run lexicon).1 = s

/-- The draft behind a variable: it has its name, and it is declared. -/
def Draft.writing (d : Draft) (v : Variable) : Draft :=
  if d.undeclared.contains v.id then
    { d with
      naming := (d.naming.nameVariable v).2
      undeclared := d.undeclared.filter (· != v.id)
      lexicon := ((Lexicon.spell v.ty).run d.lexicon).2
      page := ((d.page.write ((Lexicon.spell v.ty).run d.lexicon).1).write " ").write (d.naming.nameVariable v).1 }
  else
    { d with
      naming := (d.naming.nameVariable v).2
      page := d.page.write (d.naming.nameVariable v).1 }

theorem Writing.putVariable_apply (v : Variable) (desk : Desk) (d : Draft) :
    putVariable v desk d = .ok (v.written (d.naming.nameVariable v).1, d.writing v) := by
  unfold putVariable Draft.writing
  simp only [bind_apply, get_apply, naming, modifyGet_apply]
  split
  · rfl
  · rfl

theorem Draft.writing_undeclared (d : Draft) (v : Variable) :
    (d.writing v).undeclared = d.undeclared.filter (· != v.id) := by
  unfold writing
  split
  · rfl
  · next hv =>
    have hothers : ∀ i ∈ d.undeclared, (i != v.id) = true := by
      intro i hi
      rw [bne_iff_ne]
      rintro rfl
      exact hv (List.contains_iff_mem.mpr hi)
    exact (List.filter_eq_self.mpr hothers).symm

/-- Nothing else happens. -/
theorem Draft.writing_calm (d : Draft) (v : Variable) : d.Calm { d.writing v with undeclared := d.undeclared } := by
  unfold writing
  split
  · exact ⟨d.naming.extends_nameVariable v, rfl, rfl, rfl, rfl⟩
  · exact ⟨d.naming.extends_nameVariable v, rfl, rfl, rfl, rfl⟩

theorem Trails.putVariable {desk : Desk} {vs : List Variable} {ts : List Tree} {p : Place} {v : Variable} (hv : v ∈ vs) :
    Trails desk vs ts p Variable (putVariable v) fun _ => putVariable v := by
  intro d
  refine ⟨[], fun o => (o.stops_nil _).symm, ?_⟩
  rw [putVariable_apply]
  exact .bound hv (d.writing_calm v) (d.writing_undeclared v)

/-! ## What a visit is made of -/

section Visits

variable {desk : Desk} {p : Place} {tail : Tail} {d : Draft} {n : Node Tree}

/-- The node is written from its children in the usual way. -/
def Node.usual (n : Node Tree) (p : Place) (tail : Tail) : Writing Tree :=
  ((n.variants p (n.stays id)).map left).rendition.write tail

/-- The node is written from its children under the eyes of an observer, who does not see the node itself. -/
def Node.unseen (n : Node Tree) (p : Place) (tail : Tail) (o : Observer) : Writing Tree :=
  ((n.variants p (n.stays id)).map (right o)).rendition.write tail

theorem Tree.write_eq_usual (n : Node Tree) (p : Place) (tail : Tail) :
    (Tree.mk n).piece.write tail = n.usual p tail := by
  rw [Node.usual, Node.map_left_variants, piece_mk]
  rfl

theorem Node.ends_eq (n : Node Tree) (p : Place) (tail : Tail) (desk : Desk) (d : Draft) :
    n.ends tail desk d = (n.usual p tail desk d).toOption := by
  rw [Node.ends, Tree.write_eq_usual n p]

theorem Node.run_of_ends {a : Tree × Draft} (h : n.ends tail desk d = some a) :
    (Tree.mk n).piece.write tail desk d = .ok a :=
  ok_of_toOption h

theorem Tree.observed_write (o : Observer) (n : Node Tree) (p : Place) (tail : Tail) :
    ((Tree.mk n).observed o p).write tail = watched o (fun d => ⟨p, n, tail, d⟩) (n.unseen p tail o) := by
  have hnode : (n.map fun c => (c, c.observed o)).map Prod.fst = n := by
    rw [Node.map_map]
    exact Node.map_id n
  rw [observed_mk, Node.unseen, Node.map_right_variants]
  unfold Node.observed
  rw [hnode, Node.stays_map]
  rfl

/-- How a visit is put together from the visits of the parts. -/
theorem Node.Visited.of_parts {r : List Stint}
    (hstops : ∀ o, n.unseen p tail o desk d = o.stops r (n.usual p tail desk d))
    (htrail : Trail desk [] [.mk n] p d [.mk ⟨p, n, tail, d⟩ r (n.ends tail desk d)] ((n.ends tail desk d).map Prod.snd))
    (hopens : n.Opens desk p d r) : n.Visited desk p tail d r where
  stops o := by
    rw [Tree.observed_write, Node.ends, Tree.write_eq_usual n p]
    exact watched_stops (hstops o)
  trail := htrail
  opens := hopens

/-- A node that does nothing but what its parts do. -/
theorem Node.exists_visited (h : Trails desk n.binders n.children p Tree (n.usual p tail) (n.unseen p tail))
    (hplain : n.Plain d (n.ends tail desk d)) (hopens : ∀ r, n.Opens desk p d r) : ∃ r, n.Visited desk p tail d r := by
  obtain ⟨r, hr, htrail⟩ := h d
  refine ⟨r, .of_parts hr (.visit (.plain rfl hplain) ?_) (hopens r)⟩
  rw [n.ends_eq p]
  exact htrail

theorem Tree.write_var (v : Variable) : (Tree.mk (.var v)).piece.write tail desk d =
    .ok (.mk (.var (v.written (d.naming.nameVariable v).1)), d.writing v) := by
  have hrun : (Tree.mk (.var v)).piece.write tail = (do let w ← putVariable v; return .mk (.var w)) := by
    rw [piece_mk]
    rfl
  rw [hrun, bind_apply, putVariable_apply]
  rfl

theorem Node.ends_var (v : Variable) : (Node.var v).ends tail desk d =
    some (.mk (.var (v.written (d.naming.nameVariable v).1)), d.writing v) := by
  rw [Node.ends, Tree.write_var]
  rfl

theorem Node.Visited.var (v : Variable) : (Node.var v).Visited desk p tail d [] := by
  exact .of_parts (fun o => (o.stops_nil _).symm) (.visit (.var v) (.calm (.refl d))) nofun

end Visits

end Scribe
