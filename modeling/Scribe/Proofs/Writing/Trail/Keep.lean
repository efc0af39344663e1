import Scribe.Proofs.Writing.Trail.Tree

/-!
# What a trail keeps

Facts that hold along every trail: what has a name keeps it, a visit of a run that succeeds is not broken off, and a visit
is made inside the loops and switches around the place where the trail begins, unless it is made in another function.
-/

namespace Scribe

open Writing

/-! ## Steps -/

namespace Draft

variable (d : Draft)

theorem declaring_calm (v : Variable) (inPlace : Bool) :
    d.Calm { d.declaring v inPlace with undeclared := d.undeclared } := by
  cases inPlace with
  | true => exact ⟨d.naming.extends_nameVariable v, rfl, rfl, rfl, rfl⟩
  | false =>
    let typed : Draft := { d with
      lexicon := ((Lexicon.spell v.ty).run d.lexicon).2
      page := (d.page.newline.write ((Lexicon.spell v.ty).run d.lexicon).1).write " " }
    have htyped := typed.writing_calm v
    exact ⟨htyped.names, rfl, htyped.scopes, htyped.methods, htyped.promoted⟩

/-- The declarations of a block do nothing else. -/
theorem declaringAll_calm (vars : List Variable) (inPlace : Variable → Bool) :
    d.Calm { d.declaringAll vars inPlace with undeclared := d.undeclared } := by
  induction vars generalizing d with
  | nil => exact .refl d
  | cons v vars ih =>
    have hfirst := d.declaring_calm v (inPlace v)
    have hrest := ih (d.declaring v (inPlace v))
    exact ⟨hfirst.names.trans hrest.names, rfl, hrest.scopes.trans hfirst.scopes, hrest.methods.trans hfirst.methods,
      hrest.promoted.trans hfirst.promoted⟩

theorem heading_calm (vars : List Variable) (inPlace : Variable → Bool) :
    d.Calm { d.heading vars inPlace with undeclared := d.undeclared } := by
  have hdeclared := d.declaringAll_calm vars inPlace
  unfold heading
  split
  · exact hdeclared
  · exact ⟨hdeclared.names, rfl, hdeclared.scopes, hdeclared.methods, hdeclared.promoted⟩

theorem labelling_calm (target : Option Label) : d.Calm (d.labelling target) := by
  cases target with
  | none => exact .refl d
  | some target => exact ⟨d.naming.extends_nameLabel target, rfl, rfl, rfl, rfl⟩

/-- The lower part of a loop, up to where the loop is left. -/
theorem handed_calm (tested : Bool) (ty : Ty) (tail : Tail) : d.Calm (d.closing.handing tested ty tail) := by
  have hclosing : d.Calm d.closing := (d.labelling_calm _).trans (calm_page _ _)
  refine hclosing.trans ?_
  unfold handing
  split
  · exact ⟨.refl _, rfl, rfl, rfl, rfl⟩
  · exact .refl _

end Draft

namespace Writing

variable {desk : Desk} {d m e : Draft}

theorem blockHead_eq {vars ws : List Variable} {inPlace : Variable → Bool}
    (h : blockHead vars inPlace desk d = .ok (ws, m)) : m = d.heading vars inPlace := by
  obtain ⟨ws', hhead⟩ := blockHead_apply vars inPlace desk d
  rw [hhead] at h
  cases h
  rfl

/-- A jump is resolved in the scopes around it, and a label that it needs has its name behind it. -/
theorem depart_step {target : Label} (h : (do clearFaults (some target); putJump target) desk m = .ok ((), e)) :
    m.Calm { e with flow := m.flow } ∧ e.flow.scopes = (Flow.resolve target.id true m.flow.scopes).2 ∧
      (m.flow.formOf target = .goto → e.naming.label? target.id = some (m.naming.nameLabel target).1) := by
  rw [clearFaults_bind] at h
  unfold putJump at h
  simp only [bind_apply, get_apply] at h
  unfold Flow.formOf
  cases hform : (Flow.resolve target.id true m.flow.scopes).1 with
  | exit | again =>
    rw [hform] at h
    cases h
    exact ⟨⟨.refl _, rfl, rfl, rfl, rfl⟩, rfl, nofun⟩
  | goto =>
    rw [hform] at h
    cases h
    exact ⟨⟨m.naming.extends_nameLabel target, rfl, rfl, rfl, rfl⟩, rfl, fun _ => m.naming.label?_self target⟩

theorem enterLoop_eq {exit again : Option Label} {tail : Tail} (h : enterLoop exit again tail desk d = .ok ((), e)) :
    ∃ takers, e = (d.taking takers).enter (.loop exit again false false) := by
  obtain ⟨takers, henter⟩ := enterLoop_apply exit again tail desk d
  rw [henter] at h
  cases h
  exact ⟨takers, rfl⟩

theorem lowerLoop_step {tested : Bool} {ty : Ty} {tail : Tail} (h : lowerLoop tested ty tail desk m = .ok ((), e)) :
    m.leave.Calm e := by
  rw [lowerLoop_apply] at h
  cases h
  have hhanded := m.handed_calm tested ty tail
  have hleft : m.leave.Calm (m.closing.handing tested ty tail).leave :=
    ⟨hhanded.names, hhanded.undeclared, congrArg (List.drop 1) hhanded.scopes, hhanded.methods, hhanded.promoted⟩
  exact hleft.trans (Draft.labelling_calm _ _)

end Writing

/-! ## Names -/

section Courses

variable {desk : Desk} {p q : Place} {tail : Tail} {d m : Draft} {n : Node Tree} {vs : List Variable} {ts : List Tree}
  {r : List Stint} {o : Option Draft} {finish : Option (Tree × Draft)}
  (h : n.Course desk p tail d vs ts q m r o finish)

include h

/-- A visit ends when the visits inside do. -/
theorem Node.Course.isSome_finish : finish.isSome = o.isSome := by
  cases h with
  | var v =>
    rw [Node.ends_var]
    rfl
  | moved => rw [Option.isSome_map, Option.isSome_map]
  | block | plain => exact Option.isSome_map.symm
  | _ => rfl

theorem Node.Course.exists_finish (he : finish.isSome = true) : ∃ g, o = some g :=
  Option.isSome_iff_exists.mp (h.isSome_finish ▸ he)

theorem Node.Course.names_begin : d.naming.Extends m.naming := by
  cases h with
  | block _ hhead _ =>
    rw [blockHead_eq hhead]
    exact (d.heading_calm _ _).names
  | loop _ henter _ _ =>
    obtain ⟨takers, rfl⟩ := enterLoop_eq henter
    exact .refl _
  | moved => exact d.naming.extends_nameLambda _
  | _ => exact .refl _

theorem Node.Course.names_end : ∀ e ∈ o, ∀ f ∈ finish, e.naming.Extends f.2.naming := by
  cases h with
  | var v =>
    rw [Node.ends_var]
    rintro e ⟨⟩ f ⟨⟩
    exact (d.writing_calm v).names
  | jump _ _ hjump =>
    rintro e ⟨⟩ f ⟨⟩
    exact (depart_step hjump).1.names
  | loop _ _ _ hlower =>
    rintro e ⟨⟩ f ⟨⟩
    exact (lowerLoop_step hlower).names
  | known =>
    rintro e ⟨⟩ f ⟨⟩
    exact d.naming.extends_nameLambda _
  | moved =>
    rintro e he f hf
    obtain ⟨g, rfl, rfl⟩ := Option.map_eq_some_iff.mp he
    cases hf
    exact .refl _
  | _ =>
    rintro e he f rfl
    cases he
    exact .refl _

end Courses

namespace Trail

variable {desk : Desk} {vs : List Variable} {ts : List Tree} {p : Place} {d : Draft} {r : List Stint} {o : Option Draft}

/-- Everything that has a name keeps it along a trail. -/
theorem names (h : Trail desk vs ts p d r o) : ∀ e ∈ o, d.naming.Extends e.naming := by
  induction h with
  | broken => exact nofun
  | calm hcalm =>
    rintro e ⟨⟩
    exact hcalm.names
  | trans _ _ ih ih' => exact fun e he => (ih _ rfl).trans (ih' e he)
  | part _ _ ih | within _ ih => exact ih
  | bound _ hcalm _ =>
    rintro e ⟨⟩
    exact hcalm.names
  | inside _ _ ih | function _ ih =>
    intro e he
    obtain ⟨f, hf, rfl⟩ := Option.map_eq_some_iff.mp he
    exact ih f hf
  | visit hcourse _ ih =>
    intro e he
    obtain ⟨f, rfl, rfl⟩ := Option.map_eq_some_iff.mp he
    obtain ⟨g, rfl⟩ := hcourse.exists_finish rfl
    exact (hcourse.names_begin.trans (ih g rfl)).trans (hcourse.names_end g rfl f rfl)

/-- What has a name when a trail begins has it in every visit, and what has a name behind a visit has it at the end. -/
theorem names_visit (h : Trail desk vs ts p d r o) : ∀ s ∈ Stint.allOf r,
    d.naming.Extends s.start.before.naming ∧ ∀ f ∈ s.finish, ∀ e ∈ o, f.2.naming.Extends e.naming := by
  induction h with
  | broken | calm | bound => simp
  | trans htrail htrail' ih ih' =>
    rw [Stint.allOf_append]
    refine List.forall_mem_append.mpr ⟨fun s hs => ?_, fun s hs => ?_⟩
    · exact ⟨(ih s hs).1, fun f hf e he => ((ih s hs).2 f hf _ rfl).trans (htrail'.names e he)⟩
    · exact ⟨(htrail.names _ rfl).trans (ih' s hs).1, (ih' s hs).2⟩
  | part _ _ ih | within _ ih => exact ih
  | inside _ _ ih | function _ ih =>
    refine fun s hs => ⟨(ih s hs).1, fun f hf e he => ?_⟩
    obtain ⟨g, hg, rfl⟩ := Option.map_eq_some_iff.mp he
    exact (ih s hs).2 f hf g hg
  | visit hcourse _ ih =>
    rw [Stint.allOf_singleton]
    refine List.forall_mem_cons.mpr ⟨⟨.refl _, ?_⟩, fun s hs => ⟨hcourse.names_begin.trans (ih s hs).1, ?_⟩⟩
    · rintro f hf e he
      rw [Stint.finish] at hf
      rw [hf] at he
      cases he
      exact .refl _
    · intro f hf e he
      obtain ⟨f', rfl, rfl⟩ := Option.map_eq_some_iff.mp he
      obtain ⟨g, rfl⟩ := hcourse.exists_finish rfl
      exact ((ih s hs).2 f hf g rfl).trans (hcourse.names_end g rfl f' rfl)

/-! ## Visits -/

/-- Every visit has its course. -/
theorem course (h : Trail desk vs ts p d r o) : ∀ s ∈ Stint.allOf r, ∃ vs ts q m o,
    s.start.node.Course desk s.start.place s.start.tail s.start.before vs ts q m s.inner o s.finish ∧
      Trail desk vs ts q m s.inner o := by
  induction h with
  | broken | calm | bound => simp
  | trans _ _ ih ih' =>
    rw [Stint.allOf_append]
    exact List.forall_mem_append.mpr ⟨ih, ih'⟩
  | part _ _ ih | within _ ih | inside _ _ ih | function _ ih => exact ih
  | visit hcourse htrail ih =>
    rw [Stint.allOf_singleton]
    exact List.forall_mem_cons.mpr ⟨⟨_, _, _, _, _, hcourse, htrail⟩, ih⟩

/-- No visit is broken off when the trail has an end. -/
theorem done (h : Trail desk vs ts p d r o) (ho : o.isSome = true) : ∀ s ∈ Stint.allOf r, s.finish.isSome = true := by
  induction h with
  | broken => cases ho
  | calm | bound => simp
  | trans _ _ ih ih' =>
    rw [Stint.allOf_append]
    exact List.forall_mem_append.mpr ⟨ih rfl, ih' ho⟩
  | part _ _ ih | within _ ih => exact ih ho
  | inside _ _ ih | function _ ih => exact ih (by rwa [Option.isSome_map] at ho)
  | visit hcourse _ ih =>
    rw [Option.isSome_map] at ho
    rw [Stint.allOf_singleton]
    exact List.forall_mem_cons.mpr ⟨ho, ih (hcourse.isSome_finish ▸ ho)⟩

/-- A visit is made at the place of the trail or further inside, or in another function. -/
theorem place (h : Trail desk vs ts p d r o) : ∀ s ∈ Stint.allOf r,
    p.depth < s.start.place.depth ∨ s.start.place.depth = p.depth ∧ p.rings <:+ s.start.place.rings := by
  have hinside : ∀ (p : Place) (ring : Ring) (q : Place),
      (p.inside ring).depth < q.depth ∨ q.depth = (p.inside ring).depth ∧ (p.inside ring).rings <:+ q.rings →
      p.depth < q.depth ∨ q.depth = p.depth ∧ p.rings <:+ q.rings :=
    fun p ring q hq => hq.imp_right fun hq => ⟨hq.1, (List.suffix_cons ring p.rings).trans hq.2⟩
  have hfunction : ∀ (p q : Place),
      p.function.depth < q.depth ∨ q.depth = p.function.depth ∧ p.function.rings <:+ q.rings → p.depth < q.depth := by
    rintro p q (hq | ⟨hq, -⟩)
    · exact Nat.lt_of_succ_lt hq
    · exact Nat.lt_of_succ_le (Nat.le_of_eq hq.symm)
  induction h with
  | broken | calm | bound => simp
  | trans _ _ ih ih' =>
    rw [Stint.allOf_append]
    exact List.forall_mem_append.mpr ⟨ih, ih'⟩
  | part _ _ ih | within _ ih => exact ih
  | inside ring _ ih => exact fun s hs => hinside _ ring _ (ih s hs)
  | function _ ih => exact fun s hs => .inl (hfunction _ _ (ih s hs))
  | visit hcourse _ ih =>
    rw [Stint.allOf_singleton]
    refine List.forall_mem_cons.mpr ⟨.inr ⟨rfl, List.suffix_rfl⟩, ?_⟩
    cases hcourse with
    | loop => exact fun s hs => hinside _ _ _ (ih s hs)
    | moved => exact fun s hs => .inl (hfunction _ _ (ih s hs))
    | _ => exact ih

end Trail

end Scribe
