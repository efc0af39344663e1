import Mathlib.Data.List.Nodup
import Scribe.Proofs.Writing.Names
import Scribe.Proofs.Writing.Trail.Keep

/-!
# Where variables are declared

A block declares each of its variables once: on a line in front of its statements, or where one of its statements first
assigns it. The declaration in place is left to the first visit that writes the variable; in the meantime the variable is
pending.

Whether a variable is pending can be said of every visit of a trail (`Trail.pending`): it is until it is written, as long
as it is not bound again. A variable that is pending when a block begins is not written inside the block
(`Trail.undisturbed`), since the first statement that mentions it is an assignment to it.
-/

namespace Scribe

open Writing
open Text (Page)

variable {ss : List Stint} {vars : List Variable} {v : Variable}

/-! ## Binders -/

/-- Somewhere in the tree a variable with this identity is bound. -/
def Tree.Binds (t : Tree) (i : Ident) : Prop := ∃ s ∈ t.subtrees, ∃ v ∈ s.node.binders, v.id = i

/-- Nothing in the tree binds a variable twice, or one that is bound again inside. -/
def Tree.BindsOnce (t : Tree) : Prop :=
  ∀ s ∈ t.subtrees, (s.node.binders.map (·.id)).Nodup ∧ ∀ v ∈ s.node.binders, ∀ c ∈ s.node.children, ¬c.Binds v.id

instance (t : Tree) (i : Ident) : Decidable (t.Binds i) :=
  inferInstanceAs (Decidable (∃ s ∈ t.subtrees, ∃ v ∈ s.node.binders, v.id = i))

instance (t : Tree) : Decidable t.BindsOnce :=
  inferInstanceAs (Decidable (∀ s ∈ t.subtrees,
    (s.node.binders.map (·.id)).Nodup ∧ ∀ v ∈ s.node.binders, ∀ c ∈ s.node.children, ¬c.Binds v.id))

/-- What is not bound in a tree is bound neither by its root nor in its children. -/
theorem Tree.not_binds_mk {n : Node Tree} {i : Ident} (h : ¬(Tree.mk n).Binds i) :
    (∀ v ∈ n.binders, v.id ≠ i) ∧ ∀ c ∈ n.children, ¬c.Binds i := by
  refine ⟨fun v hv hid => h ⟨.mk n, mem_subtrees_self _, v, hv, hid⟩, fun c hc hbinds => h ?_⟩
  obtain ⟨s, hs, hbinds⟩ := hbinds
  exact ⟨s, mem_subtrees_of_child hc hs, hbinds⟩

theorem Tree.BindsOnce.of_mem {s t : Tree} (h : t.BindsOnce) (hs : s ∈ t.subtrees) : s.BindsOnce :=
  fun r hr => h r (mem_subtrees_trans hs hr)

theorem Tree.BindsOnce.of_root {n : Node Tree} (h : (Tree.mk n).BindsOnce) :
    (n.binders.map (·.id)).Nodup ∧ ∀ v ∈ n.binders, ∀ c ∈ n.children, ¬c.Binds v.id :=
  h _ (mem_subtrees_self _)

theorem Tree.BindsOnce.child {n : Node Tree} {c : Tree} (h : (Tree.mk n).BindsOnce) (hc : c ∈ n.children) :
    c.BindsOnce :=
  h.of_mem (mem_subtrees_of_child hc c.mem_subtrees_self)

/-! ## Pending variables -/

namespace Stint

/-- Along the visits, in the order in which they begin, the variable is pending until one of them writes it; `pending`
says whether it is at first. -/
def Pends (i : Ident) : (pending : Prop) → List Stint → Prop
  | _, [] => True
  | pending, s :: ss => (i ∈ s.start.before.undeclared ↔ pending) ∧ Pends i (pending ∧ ¬s.Writes i) ss

theorem Pends.congr {i : Ident} {pending pending' : Prop} (h : Pends i pending ss)
    (hiff : pending ↔ pending') : Pends i pending' ss :=
  propext hiff ▸ h

theorem pends_append {i : Ident} {pending : Prop} {ss' : List Stint} :
    Pends i pending (ss ++ ss') ↔ Pends i pending ss ∧ Pends i (pending ∧ ∀ s ∈ ss, ¬s.Writes i) ss' := by
  induction ss generalizing pending with
  | nil => simp [Pends]
  | cons s ss ih => simp only [List.cons_append, Pends, ih, List.forall_mem_cons, and_assoc]

/-- A variable that is not pending at first is not pending later. -/
theorem Pends.not_mem {i : Ident} (h : Pends i False ss) : ∀ s ∈ ss, i ∉ s.start.before.undeclared := by
  induction ss with
  | nil => exact nofun
  | cons s ss ih =>
    refine List.forall_mem_cons.mpr ⟨h.1.mp, ih (h.2.congr ?_)⟩
    exact ⟨And.left, False.elim⟩

/-- If the visits write the variable, then the first of them that has to do with it writes it or is an assignment to it. -/
def Awaits (desk : Desk) (i : Ident) (record : List Stint) : Prop :=
  (∀ s ∈ allOf record, ¬s.Writes i) ∨
    ∃ before s behind, record = before ++ s :: behind ∧ (∀ x ∈ allOf before, ¬x.Writes i) ∧
      (s.Writes i ∨ s.Assigns desk i)

section Awaits

variable {desk : Desk} {i : Ident} {r r' : List Stint}

theorem FirstAssigns.awaits (h : FirstAssigns desk i r) : Awaits desk i r := by
  obtain ⟨before, s, behind, hr, hbefore, hs⟩ := h
  exact .inr ⟨before, s, behind, hr, hbefore, .inr hs⟩

theorem exists_writes {s : Stint} (h : s.Writes i ∨ s.Assigns desk i) : ∃ x ∈ s.all, x.Writes i := by
  rcases h with h | ⟨place, v, value, ty, d, inner, finish, rfl, hid, -⟩
  · obtain ⟨start, inner, finish⟩ := s
    exact ⟨_, by rw [all_mk]; exact List.mem_cons_self, h⟩
  · refine ⟨mk ⟨place, .var v, .discard, d⟩ [] ((Node.var v).ends .discard desk d), ?_, v, rfl, hid⟩
    rw [all_mk, allOf_cons, all_mk]
    exact List.mem_cons_of_mem _ (List.mem_append_left _ List.mem_cons_self)

theorem Awaits.left (h : Awaits desk i (r ++ r')) : Awaits desk i r := by
  rcases h with h | ⟨before, s, behind, hr, hbefore, hs⟩
  · rw [allOf_append, List.forall_mem_append] at h
    exact .inl h.1
  · rcases List.append_eq_append_iff.mp hr with ⟨c, rfl, -⟩ | ⟨c, rfl, hc⟩
    · rw [allOf_append, List.forall_mem_append] at hbefore
      exact .inl hbefore.1
    · cases c with
      | nil => exact .inl (by rwa [List.append_nil])
      | cons x c =>
        cases hc
        exact .inr ⟨before, _, c, rfl, hbefore, hs⟩

theorem Awaits.right (h : Awaits desk i (r ++ r')) (hr : ∀ s ∈ allOf r, ¬s.Writes i) : Awaits desk i r' := by
  rcases h with h | ⟨before, s, behind, heq, hbefore, hs⟩
  · rw [allOf_append, List.forall_mem_append] at h
    exact .inl h.2
  · rcases List.append_eq_append_iff.mp heq with ⟨c, rfl, rfl⟩ | ⟨c, rfl, hc⟩
    · rw [allOf_append, List.forall_mem_append] at hbefore
      exact .inr ⟨c, s, behind, rfl, hbefore.2, hs⟩
    · cases c with
      | nil => exact .inr ⟨[], s, behind, hc.symm, nofun, hs⟩
      | cons x c =>
        cases hc
        obtain ⟨x, hx, hwrites⟩ := exists_writes hs
        refine absurd hwrites (hr x ?_)
        rw [allOf_append, allOf_cons]
        exact List.mem_append_right _ (List.mem_append_left _ hx)

/-- A single visit awaits a variable if nothing in it writes the variable, or if it begins with that. -/
theorem Awaits.single {start : Moment} {inner : List Stint} {finish : Option (Tree × Draft)}
    (h : Awaits desk i [mk start inner finish]) : (∀ x ∈ allOf inner, ¬x.Writes i) ∨
      (∃ v, start.node = .var v ∧ v.id = i) ∨ (mk start inner finish).Assigns desk i := by
  rcases h with h | ⟨before, s, behind, heq, -, hs⟩
  · rw [allOf_singleton, List.forall_mem_cons] at h
    exact .inl h.2
  · obtain ⟨rfl, heq⟩ | ⟨c, rfl, hc⟩ := List.cons_eq_append_iff.mp heq
    · cases heq
      exact .inr hs
    · simp at hc

end Awaits

end Stint

namespace Draft

variable (d : Draft)

theorem mem_declaring_undeclared (v : Variable) (inPlace : Bool) (i : Ident) :
    i ∈ (d.declaring v inPlace).undeclared ↔ inPlace = true ∧ i = v.id ∨ i ∈ d.undeclared ∧ i ≠ v.id := by
  cases inPlace with
  | true => simp [declaring]
  | false => simp [declaring, writing_undeclared]

theorem declaringAll_cons (v : Variable) (vars : List Variable) (inPlace : Variable → Bool) :
    d.declaringAll (v :: vars) inPlace = (d.declaring v (inPlace v)).declaringAll vars inPlace := rfl

theorem heading_undeclared (vars : List Variable) (inPlace : Variable → Bool) :
    (d.heading vars inPlace).undeclared = (d.declaringAll vars inPlace).undeclared := by
  unfold heading
  split <;> rfl

theorem heading_naming (vars : List Variable) (inPlace : Variable → Bool) :
    (d.heading vars inPlace).naming = (d.declaringAll vars inPlace).naming := by
  unfold heading
  split <;> rfl

/-- The declarations of a block leave other variables as they are. -/
theorem mem_heading_of_ne (inPlace : Variable → Bool) {i : Ident} (hi : ∀ v ∈ vars, v.id ≠ i) :
    i ∈ (d.heading vars inPlace).undeclared ↔ i ∈ d.undeclared := by
  rw [heading_undeclared]
  induction vars generalizing d with
  | nil => exact .rfl
  | cons v vars ih =>
    obtain ⟨hv, hvars⟩ := List.forall_mem_cons.mp hi
    rw [declaringAll_cons, ih _ hvars, mem_declaring_undeclared]
    simp [hv.symm]

/-- The declarations of a block leave only those variables pending that are declared in place. -/
theorem mem_or_of_mem_heading {inPlace : Variable → Bool} {i : Ident}
    (hi : i ∈ (d.heading vars inPlace).undeclared) : i ∈ d.undeclared ∨ ∃ v ∈ vars, inPlace v = true ∧ v.id = i := by
  rw [heading_undeclared] at hi
  induction vars generalizing d with
  | nil => exact .inl hi
  | cons v vars ih =>
    rcases ih _ hi with hi | ⟨w, hw, hplace, hid⟩
    · rw [mem_declaring_undeclared] at hi
      rcases hi with ⟨hplace, rfl⟩ | ⟨hi, -⟩
      · exact .inr ⟨v, List.mem_cons_self, hplace, rfl⟩
      · exact .inl hi
    · exact .inr ⟨w, List.mem_cons_of_mem _ hw, hplace, hid⟩

/-- Behind the declarations of a block those of its variables are pending that are declared in place. -/
theorem mem_heading (inPlace : Variable → Bool) (hvars : (vars.map (·.id)).Nodup) (hv : v ∈ vars) :
    v.id ∈ (d.heading vars inPlace).undeclared ↔ inPlace v = true := by
  induction vars generalizing d with
  | nil => cases hv
  | cons w vars ih =>
    rw [List.map_cons, List.nodup_cons] at hvars
    have hrest : (d.heading (w :: vars) inPlace).undeclared =
        ((d.declaring w (inPlace w)).heading vars inPlace).undeclared := by
      rw [heading_undeclared, heading_undeclared, declaringAll_cons]
    rw [hrest]
    rcases List.mem_cons.mp hv with rfl | hv
    · rw [mem_heading_of_ne _ _ fun w hw hid => hvars.1 (List.mem_map.mpr ⟨w, hw, hid⟩), mem_declaring_undeclared]
      simp
    · exact ih _ hvars.2 hv

end Draft

section Courses

variable {desk : Desk} {p q : Place} {tail : Tail} {d m : Draft} {n : Node Tree} {vs : List Variable} {ts : List Tree}
  {r : List Stint} {o : Option Draft} {finish : Option (Tree × Draft)}
  (h : n.Course desk p tail d vs ts q m r o finish)

include h

/-- Nothing is bound inside a visit but what the node or its children bind. -/
theorem Node.Course.not_binds {i : Ident} (hi : ¬(Tree.mk n).Binds i) :
    (∀ v ∈ vs, v.id ≠ i) ∧ ∀ t ∈ ts, ¬t.Binds i := by
  obtain ⟨hbinders, hchildren⟩ := Tree.not_binds_mk hi
  refine ⟨?_, fun t ht => hchildren t (h.mem_children t ht)⟩
  cases h with
  | moved | plain => exact hbinders
  | _ => exact nofun

theorem Node.Course.of_var (hn : n = .var v) : r = [] ∧ finish = (Node.var v).ends tail desk d := by
  subst hn
  cases h with
  | var => exact ⟨rfl, rfl⟩
  | plain _ hplain => exact hplain.elim

/-- A variable that is not bound here is pending where the visits inside begin if it is where the visit begins. -/
theorem Node.Course.pending_begin {i : Ident} (hi : ∀ v ∈ n.binders, v.id ≠ i) : i ∈ m.undeclared ↔ i ∈ d.undeclared := by
  cases h with
  | block _ hhead _ =>
    rw [blockHead_eq hhead]
    exact d.mem_heading_of_ne _ hi
  | loop _ henter _ _ =>
    obtain ⟨takers, rfl⟩ := enterLoop_eq henter
    exact .rfl
  | _ => exact .rfl

/-- A variable that is pending where the visits inside begin is so already where the visit begins, or a block declares it
in place. -/
theorem Node.Course.mem_begin {i : Ident} (hi : i ∈ m.undeclared) : i ∈ d.undeclared ∨
    ∃ vars body ty, n = .block vars body ty ∧ vs = [] ∧ ts = body ∧ (∃ v ∈ vars, v.id = i) ∧
      (finish = none ∧ (∀ s ∈ Stint.allOf r, ¬s.Writes i) ∨ Stint.FirstAssigns desk i r) := by
  cases h with
  | @block _ _ vars _ _ ty _ _ hhead hplace =>
    rw [blockHead_eq hhead] at hi
    rcases d.mem_or_of_mem_heading hi with hi | ⟨v, hv, hinPlace, rfl⟩
    · exact .inl hi
    · exact .inr ⟨vars, ts, ty, rfl, rfl, rfl, ⟨v, hv, rfl⟩, hplace v hv hinPlace⟩
  | loop _ henter _ _ =>
    obtain ⟨takers, rfl⟩ := enterLoop_eq henter
    exact .inl hi
  | _ => exact .inl hi

/-- A variable that is pending behind the visits inside is pending behind the visit, unless the visit writes it. -/
theorem Node.Course.pending_end {i : Ident} : ∀ e ∈ o, ∀ f ∈ finish,
    i ∈ f.2.undeclared ↔ i ∈ e.undeclared ∧ ¬(∃ v, n = .var v ∧ v.id = i) := by
  cases h with
  | var v =>
    rw [Node.ends_var]
    rintro e ⟨⟩ f ⟨⟩
    simp [Draft.writing_undeclared, @eq_comm _ i]
  | jump _ _ hjump =>
    rintro e ⟨⟩ f ⟨⟩
    simp [← (depart_step hjump).1.undeclared]
  | loop _ _ _ hlower =>
    rintro e ⟨⟩ f ⟨⟩
    simp [(lowerLoop_step hlower).undeclared, Draft.leave]
  | known =>
    rintro e ⟨⟩ f ⟨⟩
    simp [Draft.calling]
  | moved =>
    rintro e he f hf
    obtain ⟨g, rfl, rfl⟩ := Option.map_eq_some_iff.mp he
    cases hf
    simp [Draft.moved]
  | block =>
    rintro e he f rfl
    cases he
    simp
  | plain _ hplain =>
    rintro e he f rfl
    cases he
    simp
    rintro hf v rfl
    exact hplain.elim

end Courses

namespace Trail

variable {desk : Desk} {vs : List Variable} {ts : List Tree} {p : Place} {d : Draft} {r : List Stint} {o : Option Draft}

/-- A variable that is not bound along a trail is pending until it is written. -/
theorem pending (h : Trail desk vs ts p d r o) {i : Ident} (hvs : ∀ v ∈ vs, v.id ≠ i) (hts : ∀ t ∈ ts, ¬t.Binds i) :
    Stint.Pends i (i ∈ d.undeclared) (Stint.allOf r) ∧
      ∀ e ∈ o, i ∈ e.undeclared ↔ i ∈ d.undeclared ∧ ∀ s ∈ Stint.allOf r, ¬s.Writes i := by
  -- what holds behind a part is what the next part begins with
  induction h with
  | broken => exact ⟨trivial, nofun⟩
  | calm hcalm =>
    refine ⟨trivial, ?_⟩
    rintro e ⟨⟩
    simp [hcalm.undeclared]
  | trans _ _ ih ih' =>
    obtain ⟨hpends, hend⟩ := ih hvs hts
    obtain ⟨hpends', hend'⟩ := ih' hvs hts
    have hmiddle := hend _ rfl
    rw [Stint.allOf_append]
    refine ⟨Stint.pends_append.mpr ⟨hpends, hpends'.congr hmiddle⟩, fun e he => ?_⟩
    rw [hend' e he, hmiddle, List.forall_mem_append, and_assoc]
  | part hc _ ih => exact ih nofun (List.forall_mem_singleton.mpr (hts _ hc))
  | within _ ih =>
    have hn := List.forall_mem_singleton.mp hts
    obtain ⟨hbinders, hchildren⟩ := Tree.not_binds_mk hn
    exact ih hbinders hchildren
  | bound hv _ hundeclared =>
    refine ⟨trivial, ?_⟩
    rintro e ⟨⟩
    simp [hundeclared, (hvs _ hv).symm]
  | inside _ _ ih | function _ ih =>
    obtain ⟨hpends, hend⟩ := ih hvs hts
    refine ⟨hpends, fun e he => ?_⟩
    obtain ⟨f, hf, rfl⟩ := Option.map_eq_some_iff.mp he
    exact hend f hf
  | @visit p q tail d m n vs ts r o finish hcourse _ ih =>
    have hn := List.forall_mem_singleton.mp hts
    obtain ⟨hvs', hts'⟩ := hcourse.not_binds hn
    obtain ⟨hpends, hend⟩ := ih hvs' hts'
    have hbegin := hcourse.pending_begin (Tree.not_binds_mk hn).1
    rw [Stint.allOf_singleton]
    refine ⟨⟨.rfl, ?_⟩, fun e he => ?_⟩
    · by_cases hwrites : Stint.Writes i (.mk ⟨p, n, tail, d⟩ r finish)
      · obtain ⟨v, rfl, -⟩ := hwrites
        rw [(hcourse.of_var rfl).1]
        exact trivial
      · exact hpends.congr (hbegin.trans (and_iff_left hwrites).symm)
    · obtain ⟨f, rfl, rfl⟩ := Option.map_eq_some_iff.mp he
      obtain ⟨g, rfl⟩ := hcourse.exists_finish rfl
      rw [hcourse.pending_end g rfl f rfl, hend g rfl, hbegin, List.forall_mem_cons, and_assoc, and_comm (b := ¬_)]
      exact .rfl

/-- No variable is pending behind a trail that is not before. -/
theorem undeclared_subset (h : Trail desk vs ts p d r o) (hts : ∀ t ∈ ts, t.BindsOnce) :
    ∀ e ∈ o, ∀ i ∈ e.undeclared, i ∈ d.undeclared := by
  induction h with
  | broken => exact nofun
  | calm hcalm =>
    rintro e ⟨⟩ i hi
    rwa [hcalm.undeclared] at hi
  | trans _ _ ih ih' => exact fun e he i hi => ih hts _ rfl i (ih' hts e he i hi)
  | part hc _ ih => exact ih (List.forall_mem_singleton.mpr (hts _ hc))
  | within _ ih => exact ih fun t ht => (List.forall_mem_singleton.mp hts).child ht
  | bound _ _ hundeclared =>
    rintro e ⟨⟩ i hi
    rw [hundeclared] at hi
    exact List.mem_of_mem_filter hi
  | inside _ _ ih | function _ ih =>
    intro e he
    obtain ⟨f, hf, rfl⟩ := Option.map_eq_some_iff.mp he
    exact ih hts f hf
  | @visit p q tail d m n vs ts r o finish hcourse htrail ih =>
    intro e he i hi
    have hn := List.forall_mem_singleton.mp hts
    obtain ⟨f, rfl, rfl⟩ := Option.map_eq_some_iff.mp he
    obtain ⟨g, rfl⟩ := hcourse.exists_finish rfl
    have hg : i ∈ g.undeclared := ((hcourse.pending_end g rfl f rfl).mp hi).1
    have hm := ih (fun t ht => hn.child (hcourse.mem_children t ht)) g rfl i hg
    rcases hcourse.mem_begin hm with hd | ⟨vars, body, ty, rfl, rfl, rfl, ⟨v, hv, rfl⟩, hplace⟩
    · exact hd
    · -- A variable of the block has been written, since the visit is not broken off.
      rcases hplace with ⟨hnone, -⟩ | ⟨before, s, behind, rfl, -, hs⟩
      · cases hnone
      · have hbody := hn.of_root.2 v hv
        have hwritten := (((htrail.pending nofun hbody).2 g rfl).mp hg).2
        obtain ⟨x, hx, hwrites⟩ := Stint.exists_writes (.inr hs)
        refine absurd hwrites (hwritten x ?_)
        rw [Stint.allOf_append, Stint.allOf_cons]
        exact List.mem_append_right _ (List.mem_append_left _ hx)

/-- A variable that is pending where a block begins is not bound again in the block, and it is not written in it. -/
theorem undisturbed (h : Trail desk vs ts p d r o) (hts : ∀ t ∈ ts, t.BindsOnce)
    (hd : ∀ i ∈ d.undeclared, (∀ v ∈ vs, v.id ≠ i) ∧ (∀ t ∈ ts, ¬t.Binds i) ∧ Stint.Awaits desk i r) :
    ∀ s ∈ Stint.allOf r, ∀ vars body ty, s.start.node = .block vars body ty → ∀ i ∈ s.start.before.undeclared,
      ¬(Tree.mk s.start.node).Binds i ∧ ∀ x ∈ Stint.allOf s.inner, ¬x.Writes i := by
  -- what is pending awaits its first assignment, and no block begins before that
  induction h with
  | broken | calm | bound => simp
  | trans htrail _ ih ih' =>
    rw [Stint.allOf_append]
    refine List.forall_mem_append.mpr ⟨?_, ?_⟩
    · exact ih hts fun i hi => ⟨(hd i hi).1, (hd i hi).2.1, (hd i hi).2.2.left⟩
    · refine ih' hts fun i hi => ?_
      obtain ⟨hvs, hbinds, hawaits⟩ := hd i (htrail.undeclared_subset hts _ rfl i hi)
      have hunwritten := (((htrail.pending hvs hbinds).2 _ rfl).mp hi).2
      exact ⟨hvs, hbinds, hawaits.right hunwritten⟩
  | part hc _ ih =>
    refine ih (List.forall_mem_singleton.mpr (hts _ hc)) fun i hi => ?_
    exact ⟨nofun, List.forall_mem_singleton.mpr ((hd i hi).2.1 _ hc), (hd i hi).2.2⟩
  | within _ ih =>
    refine ih (fun t ht => (List.forall_mem_singleton.mp hts).child ht) fun i hi => ?_
    obtain ⟨hbinders, hchildren⟩ := Tree.not_binds_mk ((hd i hi).2.1 _ (List.mem_singleton_self _))
    exact ⟨hbinders, hchildren, (hd i hi).2.2⟩
  | inside _ _ ih | function _ ih => exact ih hts hd
  | @visit p q tail d m n vs ts r o finish hcourse htrail ih =>
    have hn := List.forall_mem_singleton.mp hts
    rw [Stint.allOf_singleton]
    refine List.forall_mem_cons.mpr ⟨?_, ih (fun t ht => hn.child (hcourse.mem_children t ht)) fun i hi => ?_⟩
    · rintro vars body ty rfl i hi
      obtain ⟨-, hbinds, hawaits⟩ := hd i hi
      refine ⟨hbinds _ (List.mem_singleton_self _), ?_⟩
      rcases hawaits.single with hnone | ⟨v, ⟨⟩, -⟩ | ⟨_, _, _, _, _, _, _, ⟨⟩, -⟩
      exact hnone
    · rcases hcourse.mem_begin hi with hi | ⟨vars, body, ty, rfl, rfl, rfl, ⟨v, hv, rfl⟩, hplace⟩
      · obtain ⟨-, hbinds, hawaits⟩ := hd i hi
        obtain ⟨hvs, hts⟩ := hcourse.not_binds (hbinds _ (List.mem_singleton_self _))
        refine ⟨hvs, hts, ?_⟩
        rcases hawaits.single with hnone | ⟨v, hvar, -⟩ | ⟨_, v, _, _, _, inner, _, hassign, hid, -⟩
        · exact .inl hnone
        · rw [(hcourse.of_var hvar).1]
          exact .inl nofun
        · -- The target of the assignment is visited first.
          cases hassign
          exact .inr ⟨[], _, inner, rfl, nofun, .inl ⟨v, rfl, hid⟩⟩
      · exact ⟨nofun, hn.of_root.2 v hv,
          hplace.elim (fun hbroken => .inl hbroken.2) (·.awaits)⟩

end Trail

/-! ## Declarations -/

namespace Stint

/-- The visit writes the name and nothing else. -/
def Names (name : String) (s : Stint) : Prop :=
  ∃ u e, s.finish = some (u, e) ∧ e.page = s.start.before.page.write name

/-- The visit writes the name of a variable with its type in front. -/
def Declares (name : String) (s : Stint) : Prop :=
  ∃ v type u e, s.start.node = .var v ∧ v.ty.SpelledAs type ∧ s.finish = some (u, e) ∧
    e.page = s.start.before.page.write (type ++ " " ++ name)

/-- The visit `a` is that of an assignment to the variable that the visit `s` writes. The assignment begins a line, and
its sign follows the variable. -/
structure AssignsTo (a s : Stint) : Prop where
  node : ∃ value ty, a.start.node = .binary .assign (.mk s.start.node) value ty
  target : ∃ rest, a.inner = s :: rest
  before : s.start.before = a.start.before
  line : a.start.before.page.owesIndent = true
  text : ∃ f g rest, a.finish = some f ∧ s.finish = some g ∧ f.2.page.text = (g.2.page.write " = ").text ++ rest

end Stint

/-- How a variable of a block is declared, where `lines` stand in front of the statements of the block and `inner` are
the visits among them. -/
inductive Variable.DeclaredOnce (v : Variable) (name : String) (lines : List (Variable × String)) (inner : List Stint) :
    Prop where
  /-- In front of the statements. Among them it is called by its name. -/
  | line {type : String} : v.ty.SpelledAs type → (v, type ++ " " ++ name ++ ";") ∈ lines →
    (∀ s ∈ Stint.allOf inner, s.Writes v.id → s.Names name) → DeclaredOnce v name lines inner
  /-- By the first visit that writes it, which is that of the target of an assignment. From there on it is called by its
  name. -/
  | assignment {before behind : List Stint} {a s : Stint} : (∀ l ∈ lines, l.1.id ≠ v.id) →
    Stint.allOf inner = before ++ a :: s :: behind → (∀ x ∈ before, ¬x.Writes v.id) → a.AssignsTo s → s.Writes v.id →
    s.Declares name → (∀ x ∈ behind, x.Writes v.id → x.Names name) → DeclaredOnce v name lines inner

/-- A block that is written between `d` and `e` with the visits `inner` declares each of its variables once, and leaves
no other ones pending than before. -/
structure DeclaresEach (vars : List Variable) (d e : Draft) (inner : List Stint) : Prop where
  undeclared : ∀ i, i ∈ e.undeclared ↔ i ∈ d.undeclared
  declared : ∃ lines : List (Variable × String), (lines.map Prod.fst).Sublist vars ∧
    (∃ text, e.page.text = (lines.foldl (fun p l => p.writeLine l.2) d.page).text ++ text) ∧
    ∀ v ∈ vars, ∃ name, v.DeclaredOnce name lines inner

/-! ## Variables -/

theorem Naming.lookup_nameVariable (n : Naming) (v : Variable) :
    (n.nameVariable v).2.variableNames.lookup v.id = some (n.nameVariable v).1 := by
  have hknows : (n.nameVariable v).2.Knows v.id := knows_nameVariable_iff.mpr (.inl rfl)
  obtain ⟨name, hname⟩ := Option.isSome_iff_exists.mp hknows
  rw [nameVariable_fst, ofVariable, hname, Option.getD_some]

theorem Naming.nameVariable_of_lookup {n : Naming} {name : String}
    (h : n.variableNames.lookup v.id = some name) : (n.nameVariable v).1 = name := by
  rw [nameVariable, h]

theorem Draft.writing_naming (d : Draft) (v : Variable) : (d.writing v).naming = (d.naming.nameVariable v).2 := by
  unfold writing
  split <;> rfl

/-- A variable that is pending is written with its type in front. -/
theorem Draft.writing_page_of_mem {d : Draft} (h : v.id ∈ d.undeclared) : ∃ type, v.ty.SpelledAs type ∧
    (d.writing v).page = d.page.write (type ++ " " ++ (d.naming.nameVariable v).1) := by
  refine ⟨_, ⟨d.lexicon, rfl⟩, ?_⟩
  rw [writing, if_pos (List.contains_iff_mem.mpr h), Page.write_write, Page.write_write, String.append_assoc]

theorem Draft.writing_page_of_not_mem {d : Draft} (h : v.id ∉ d.undeclared) :
    (d.writing v).page = d.page.write (d.naming.nameVariable v).1 := by
  rw [writing, if_neg (mt List.contains_iff_mem.mp h)]

/-- A variable that has a name is written with it, and declared if it is pending. -/
theorem Trail.declares_or_names {desk : Desk} {vs : List Variable} {ts : List Tree} {p : Place} {d : Draft}
    {r : List Stint} {o : Option Draft} (h : Trail desk vs ts p d r o) {i : Ident} {name : String}
    (hname : d.naming.variableNames.lookup i = some name) : ∀ s ∈ Stint.allOf r, s.Writes i →
      (i ∈ s.start.before.undeclared → s.Declares name) ∧ (i ∉ s.start.before.undeclared → s.Names name) := by
  rintro ⟨⟨place, n, tail, before⟩, inner, finish⟩ hs ⟨v, rfl, rfl⟩
  have hknown := Naming.nameVariable_of_lookup ((h.names_visit _ hs).1.onVariable _ _ hname)
  obtain ⟨vs, ts, q, m, o, hcourse, -⟩ := h.course _ hs
  have hends : finish = (Node.var v).ends tail desk before := (hcourse.of_var rfl).2
  rw [Node.ends_var] at hends
  subst hends
  refine ⟨fun hmem => ?_, fun hmem => ⟨_, _, rfl, ?_⟩⟩
  · obtain ⟨type, htype, hpage⟩ := Draft.writing_page_of_mem hmem
    exact ⟨v, type, _, _, rfl, htype, rfl, hknown ▸ hpage⟩
  · exact hknown ▸ Draft.writing_page_of_not_mem hmem

/-! ## Blocks -/

namespace Draft

variable {d : Draft}

theorem declaring_page (h : v.id ∉ d.undeclared) : ∃ type, v.ty.SpelledAs type ∧
    (d.declaring v false).page = d.page.writeLine (type ++ " " ++ (d.naming.nameVariable v).1 ++ ";") := by
  let type := ((Lexicon.spell v.ty).run d.lexicon).1
  let typed : Draft := { d with
    lexicon := ((Lexicon.spell v.ty).run d.lexicon).2
    page := (d.page.newline.write type).write " " }
  have hwritten : (typed.writing v).page = typed.page.write (d.naming.nameVariable v).1 := writing_page_of_not_mem h
  refine ⟨type, ⟨d.lexicon, rfl⟩, ?_⟩
  calc (d.declaring v false).page = (typed.writing v).page.write ";" := rfl
    _ = (((d.page.newline.write type).write " ").write (d.naming.nameVariable v).1).write ";" := by rw [hwritten]
    _ = d.page.writeLine (type ++ " " ++ (d.naming.nameVariable v).1 ++ ";") := by
      simp only [Page.write_write, Page.writeLine]

theorem declaring_name (v : Variable) (inPlace : Bool) :
    (d.declaring v inPlace).naming.variableNames.lookup v.id = some (d.naming.nameVariable v).1 := by
  have hnaming : (d.declaring v inPlace).naming = (d.naming.nameVariable v).2 := by
    cases inPlace with
    | true => rfl
    | false => exact writing_naming _ _
  rw [hnaming]
  exact d.naming.lookup_nameVariable v

/-- What the declarations of a block write: a line for each variable that is not declared in place. -/
theorem exists_lines (inPlace : Variable → Bool) (hvars : (vars.map (·.id)).Nodup)
    (hd : ∀ v ∈ vars, v.id ∉ d.undeclared) : ∃ lines : List (Variable × String),
      lines.map Prod.fst = vars.filter (!inPlace ·) ∧
      (d.declaringAll vars inPlace).page = lines.foldl (fun p l => p.writeLine l.2) d.page ∧
      ∀ v ∈ vars, ∃ name, (d.declaringAll vars inPlace).naming.variableNames.lookup v.id = some name ∧
        (inPlace v = false → ∃ type, v.ty.SpelledAs type ∧ (v, type ++ " " ++ name ++ ";") ∈ lines) := by
  -- variable by variable: later ones are called otherwise and leave the line alone
  induction vars generalizing d with
  | nil => exact ⟨[], rfl, rfl, nofun⟩
  | cons v vars ih =>
    rw [List.map_cons, List.nodup_cons] at hvars
    obtain ⟨hv, hd⟩ := List.forall_mem_cons.mp hd
    have hd' : ∀ w ∈ vars, w.id ∉ (d.declaring v (inPlace v)).undeclared := by
      intro w hw hmem
      rcases (d.mem_declaring_undeclared _ _ _).mp hmem with ⟨-, hid⟩ | ⟨hmem, -⟩
      · exact hvars.1 (List.mem_map.mpr ⟨w, hw, hid⟩)
      · exact hd w hw hmem
    obtain ⟨lines, hlines, hpage, hnames⟩ := ih hvars.2 hd'
    have hname : (d.declaringAll (v :: vars) inPlace).naming.variableNames.lookup v.id =
        some (d.naming.nameVariable v).1 :=
      ((d.declaring v (inPlace v)).declaringAll_calm vars inPlace).names.onVariable _ _ (declaring_name v _)
    cases hplace : inPlace v with
    | true =>
      rw [hplace] at hpage
      refine ⟨lines, by simpa [hplace] using hlines, by rwa [declaringAll_cons, hplace], ?_⟩
      exact List.forall_mem_cons.mpr ⟨⟨_, hname, by simp [hplace]⟩, hnames⟩
    | false =>
      obtain ⟨type, htype, hline⟩ := declaring_page hv
      rw [hplace, hline] at hpage
      refine ⟨(v, type ++ " " ++ (d.naming.nameVariable v).1 ++ ";") :: lines, by simpa [hplace] using hlines,
        by rwa [declaringAll_cons, hplace], ?_⟩
      refine List.forall_mem_cons.mpr ⟨⟨_, hname, fun _ => ⟨type, htype, List.mem_cons_self⟩⟩, fun w hw => ?_⟩
      obtain ⟨name, hname, hline⟩ := hnames w hw
      refine ⟨name, hname, fun hw => ?_⟩
      obtain ⟨type, htype, hmem⟩ := hline hw
      exact ⟨type, htype, List.mem_cons_of_mem _ hmem⟩

end Draft

section Texts

variable {desk : Desk} {tail : Tail} {d : Draft} {ty : Ty} {f : Tree × Draft}

/-- The sign of an assignment follows its target. -/
theorem Node.assign_text {value : Tree} (h : (Node.binary .assign (.mk (.var v)) value ty).ends tail desk d = some f) :
    ∃ rest, f.2.page.text = ((d.writing v).page.write " = ").text ++ rest := by
  have hrun := Node.run_of_ends h
  rw [Tree.piece_mk] at hrun
  have hparts := assignment_eq (l := (Tree.mk (.var v)).piece) (r := value.piece) rfl ty
  have hvalue : ∀ a, Inline desk (do
      let b ← value.piece.operand (.binary .assign) true
      return Tree.mk (.binary .assign a b ty)) :=
    fun a => .map (Piece.operand_inline value.steps _ _)
  replace hrun := (bind_of_ok (Tree.write_var v)).symm.trans ((congrFun₂ hparts desk d).symm.trans hrun)
  exact (hvalue _ _ _ _ hrun).1.text

/-- The statements of a block follow its declarations. -/
theorem Node.block_text {body : List Tree}
    (h : (Node.block vars body ty).ends tail desk d = some f) : ∃ rest, f.2.page.text =
      (d.heading vars fun v => declaredInPlace v.id (tail.atType ty ≠ .discard) body).page.text ++ rest := by
  have hrun := Node.run_of_ends h
  rw [Tree.piece_mk] at hrun
  have htrees : (body.map Tree.piece).map (·.tree) = body := by simp [Function.comp_def, Tree.piece, Piece.tree]
  have hparts := block_eq vars (body.map Tree.piece) ty tail
  rw [htrees] at hparts
  obtain ⟨ws, hhead⟩ := blockHead_apply vars (fun v => declaredInPlace v.id (tail.atType ty ≠ .discard) body) desk d
  have hbody : ∀ p ∈ body.map Tree.piece, p.Steps desk := List.forall_mem_map.mpr fun c _ => c.steps
  have hrest : Stepwise desk (do
      let ts ← statements (body.map Tree.piece) (tail.atType ty)
      return Tree.mk (.block ws ts ty)) :=
    .map (statements_stepwise hbody _)
  replace hrun := (congrFun₂ hparts desk d).symm.trans hrun
  rw [bind_of_ok hhead] at hrun
  exact (hrest _ _ _ hrun).text

end Texts

namespace Trail

variable {desk : Desk} {vs : List Variable} {ts : List Tree} {p : Place} {d : Draft} {r : List Stint} {o : Option Draft}
  {i : Ident} {name : String} (h : Trail desk vs ts p d r o) (hvs : ∀ v ∈ vs, v.id ≠ i) (hts : ∀ t ∈ ts, ¬t.Binds i)
  (hname : d.naming.variableNames.lookup i = some name)

include h hvs hts hname

/-- A variable that is not pending is called by its name. -/
theorem names_of_not_mem (hi : i ∉ d.undeclared) : ∀ s ∈ Stint.allOf r, s.Writes i → s.Names name := by
  intro s hs hwrites
  have hpends := (h.pending hvs hts).1.congr (iff_false_intro hi)
  exact (h.declares_or_names hname s hs hwrites).2 (hpends.not_mem s hs)

/-- A variable that is pending is declared by the first assignment to it. -/
theorem declares_of_mem (hi : i ∈ d.undeclared) (ho : o.isSome = true) (hfirst : Stint.FirstAssigns desk i r) :
    ∃ before a s behind, Stint.allOf r = before ++ a :: s :: behind ∧ (∀ x ∈ before, ¬x.Writes i) ∧ a.AssignsTo s ∧
      s.Writes i ∧ s.Declares name ∧ ∀ x ∈ behind, x.Writes i → x.Names name := by
  obtain ⟨before, _, behind, rfl, hbefore, place, v, value, ty, m, inner, finish, rfl, rfl, hline⟩ := hfirst
  let s : Stint := .mk ⟨place, .var v, .discard, m⟩ [] ((Node.var v).ends .discard desk m)
  let a : Stint := .mk ⟨place, .binary .assign (.mk (.var v)) value ty, .discard, m⟩ (s :: inner) finish
  have hall : Stint.allOf (before ++ a :: behind) =
      Stint.allOf before ++ a :: s :: (Stint.allOf inner ++ Stint.allOf behind) := by
    simp [a, s, Stint.all_mk]
  have hpends := (h.pending hvs hts).1
  have hwrites : s.Writes v.id := ⟨v, rfl, rfl⟩
  have hmem : ∀ x ∈ a :: s :: (Stint.allOf inner ++ Stint.allOf behind), x ∈ Stint.allOf (before ++ a :: behind) := by
    rw [hall]
    exact fun x hx => List.mem_append_right _ hx
  rw [hall, Stint.pends_append] at hpends
  obtain ⟨-, hstart, -, hrest⟩ := hpends
  have hs := h.declares_or_names hname s (hmem s (by simp)) hwrites
  have hbehind := (hrest.congr (iff_false_intro fun hpending => hpending.2 hwrites)).not_mem
  refine ⟨_, a, s, _, hall, hbefore, ?_, hwrites, hs.1 (hstart.mpr ⟨hi, hbefore⟩), fun x hx hwrites => ?_⟩
  · obtain ⟨f, rfl⟩ := Option.isSome_iff_exists.mp (h.done ho a (hmem a List.mem_cons_self))
    obtain ⟨_, _, _, _, _, hcourse, -⟩ := h.course a (hmem a List.mem_cons_self)
    refine ⟨⟨value, ty, rfl⟩, ⟨inner, rfl⟩, rfl, hline, ?_⟩
    cases hcourse with
    | plain hends _ =>
      obtain ⟨rest, htext⟩ := Node.assign_text hends
      exact ⟨f, _, rest, rfl, Node.ends_var v, htext⟩
  · exact (h.declares_or_names hname x (hmem x (by simp [hx])) hwrites).2 (hbehind x hx)

end Trail

theorem Draft.heading_text (d : Draft) (vars : List Variable) (inPlace : Variable → Bool) :
    ∃ s, (d.heading vars inPlace).page.text = (d.declaringAll vars inPlace).page.text ++ s := by
  unfold heading
  split
  · exact ⟨"", String.append_empty.symm⟩
  · exact Page.exists_newline_text _

/-- A block declares each of its variables once, if no pending variable is bound or written in it. -/
theorem Node.Course.declaresEach {desk : Desk} {p q : Place} {tail : Tail} {d m e : Draft} {vs : List Variable}
    {body ts : List Tree} {ty : Ty} {r : List Stint} {o : Option Draft} {u : Tree}
    (hcourse : (Node.block vars body ty).Course desk p tail d vs ts q m r o (some (u, e)))
    (htrail : Trail desk vs ts q m r o) (honce : (Tree.mk (.block vars body ty)).BindsOnce)
    (hd : ∀ i ∈ d.undeclared, ¬(Tree.mk (.block vars body ty)).Binds i ∧ ∀ x ∈ Stint.allOf r, ¬x.Writes i) :
    DeclaresEach vars d e r := by
  have hvisit := Trail.visit hcourse htrail
  have hvars : (vars.map (·.id)).Nodup := honce.of_root.1
  have hbody : ∀ v ∈ vars, ∀ c ∈ body, ¬c.Binds v.id := honce.of_root.2
  constructor
  case undeclared =>
    refine fun i => ⟨hvisit.undeclared_subset (List.forall_mem_singleton.mpr honce) e rfl i, fun hi => ?_⟩
    obtain ⟨hbinds, hunwritten⟩ := hd i hi
    refine ((hvisit.pending nofun (List.forall_mem_singleton.mpr hbinds)).2 e rfl).mpr ⟨hi, ?_⟩
    rw [Stint.allOf_singleton]
    exact List.forall_mem_cons.mpr ⟨nofun, hunwritten⟩
  case declared =>
    cases hcourse with
    | plain _ hplain => exact hplain.elim
    | block hends hhead hplace =>
      let inPlace (v : Variable) : Bool := declaredInPlace v.id (tail.atType ty ≠ .discard) body
      have hfree : ∀ v ∈ vars, v.id ∉ d.undeclared :=
        fun v hv hmem => (Tree.not_binds_mk (hd v.id hmem).1).1 v hv rfl
      obtain ⟨lines, hlines, hpage, hnames⟩ := Draft.exists_lines inPlace hvars hfree
      obtain ⟨text, htext⟩ := Node.block_text hends
      obtain ⟨gap, hgap⟩ := d.heading_text vars inPlace
      obtain rfl := blockHead_eq hhead
      refine ⟨lines, hlines ▸ List.filter_sublist, ⟨gap ++ text, ?_⟩, fun v hv => ?_⟩
      · rw [htext, hgap, hpage, String.append_assoc]
      · obtain ⟨name, hname, hline⟩ := hnames v hv
        rw [← Draft.heading_naming] at hname
        have hpending := d.mem_heading inPlace hvars hv
        refine ⟨name, ?_⟩
        -- the variable is declared on a line in front of the body, or by its first assignment
        cases hv' : inPlace v with
        | false =>
          obtain ⟨type, htype, hmem⟩ := hline hv'
          have hnot : v.id ∉ (d.heading vars inPlace).undeclared := fun hmem => absurd (hpending.mp hmem) (by simp [hv'])
          exact .line htype hmem (htrail.names_of_not_mem nofun (hbody v hv) hname hnot)
        | true =>
          have hother : ∀ l ∈ lines, l.1.id ≠ v.id := by
            intro l hl hid
            have hl : l.1 ∈ vars.filter (!inPlace ·) := hlines ▸ List.mem_map_of_mem hl
            obtain ⟨hmem, hnot⟩ := List.mem_filter.mp hl
            rw [List.inj_on_of_nodup_map hvars hmem hv hid, hv'] at hnot
            cases hnot
          rcases hplace v hv hv' with ⟨⟨⟩, -⟩ | hfirst
          obtain ⟨before, a, s, behind, hall, hbefore, ha, hs, hdeclares, hbehind⟩ :=
            htrail.declares_of_mem nofun (hbody v hv) hname (hpending.mpr hv') rfl hfirst
          exact .assignment hother hall hbefore ha hs hdeclares hbehind

/-- Every block that is written declares each of its variables once, and leaves no other ones pending than before. -/
theorem Tree.block_declares_variables_once {t : Tree} (h : t.BindsOnce) (desk : Desk) : ∃ record,
    t.Records desk record ∧ ∀ s ∈ Stint.allOf record, ∀ vars body ty u e, s.start.node = .block vars body ty →
      s.finish = some (u, e) → DeclaresEach vars s.start.before e s.inner := by
  obtain ⟨record, hrecord, htrail⟩ := t.exists_record desk
  refine ⟨record, hrecord, ?_⟩
  rintro ⟨⟨place, n, tail, d⟩, inner, finish⟩ hs vars body ty u e rfl rfl
  have hundisturbed := htrail.undisturbed (List.forall_mem_singleton.mpr h) nofun _ hs vars body ty rfl
  obtain ⟨_, ht, hmem⟩ := htrail.mem_subtrees _ hs
  obtain rfl := List.mem_singleton.mp ht
  obtain ⟨vs, ts, q, m, o, hcourse, hinner⟩ := htrail.course _ hs
  exact hcourse.declaresEach hinner (h.of_mem hmem) hundisturbed

theorem Tree.block_declares_variables_once_nested :
    let x : Variable := { id := .given "x", name := some "x", ty := .int }
    let y : Variable := { id := .given "y", name := some "y", ty := .int }
    let z : Variable := { id := .given "z", name := some "z", ty := .int }
    let assign (v : Variable) (t : Tree) : Tree := .mk (.binary .assign (.mk (.var v)) t .int)
    let sum : Tree := .mk (.binary .add (.mk (.var y)) (.mk (.var x)) .int)
    let inner : Tree := .mk (.block [z] [assign z (.mk (.var x)), assign z (.mk (.var z))] .void)
    let t : Tree := .mk (.block [x, y] [assign x (.mk (.constant (.int 1) .int)), inner, assign y sum] .void)
    t.BindsOnce ∧
      (t.draft ⟨{}, {}⟩).toOption.map (·.2.page.text) = some "int y;\n\nint x = 1;\n\nint z = x;\nz = z;\ny = y + x;" ∧
      ∃ record, t.Records ⟨{}, {}⟩ record ∧ ∀ s ∈ Stint.allOf record, ∀ vars body ty u e,
        s.start.node = .block vars body ty → s.finish = some (u, e) → DeclaresEach vars s.start.before e s.inner :=
  ⟨by decide +kernel, by decide +kernel, block_declares_variables_once (by decide +kernel) ⟨{}, {}⟩⟩

end Scribe
