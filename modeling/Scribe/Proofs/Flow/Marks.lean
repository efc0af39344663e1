import Scribe.Proofs.Flow.Lowered

/-!
# Which loops get labels

While a tree is written, each loop around the current place takes note of the jumps that reach its labels from
inside another loop. As long as no label belongs to two loops, a tree leaves the notes that follow from
`Tree.gotos`, whatever the order of its jumps is.
-/

namespace Scribe

/-- The labels of a construct. -/
def JumpScope.labels : JumpScope → List Label
  | .loop exit again _ _ => exit.toList ++ again.toList
  | .switch => []

/-- The construct after jumps to the labels `used` from inside another construct. -/
def JumpScope.marked (used : List Ident) : JumpScope → JumpScope
  | .loop exit again exitByGoto againByGoto =>
    .loop exit again (exitByGoto || exit.any (used.contains ·.id)) (againByGoto || again.any (used.contains ·.id))
  | .switch => .switch

/-- The flow after jumps to the labels `used`. -/
def Flow.marked (flow : Flow) (used : List Ident) : Flow :=
  { flow with scopes := flow.scopes.map (·.marked used) }

/-- The labels of the innermost loop. -/
def Flow.frame (flow : Flow) : Frame :=
  match flow.scopes with
  | .loop exit again _ _ :: _ => .ofLoop exit again
  | _ => {}

/-! ## Marks -/

namespace JumpScope

variable (s : JumpScope) (used more : List Ident)

@[simp] theorem marked_nil : s.marked [] = s := by
  cases s <;> simp [marked]

theorem marked_marked : (s.marked used).marked more = s.marked (used ++ more) := by
  cases s with
  | switch => rfl
  | loop exit again x y =>
    cases exit <;> cases again <;> simp [marked, Bool.or_assoc, Bool.decide_or]

@[simp] theorem labels_marked : (s.marked used).labels = s.labels := by
  cases s <;> rfl

/-- Jumps to labels of other constructs leave no mark. -/
theorem marked_of_unused {s : JumpScope} {used : List Ident} (h : ∀ l ∈ s.labels, l.id ∉ used) : s.marked used = s := by
  cases s with
  | switch => rfl
  | loop exit again x y =>
    have hnone {o : Option Label} (ho : ∀ l ∈ o.toList, l.id ∉ used) : o.any (used.contains ·.id) = false := by
      cases o with
      | none => rfl
      | some l => simpa using ho l List.mem_cons_self
    rw [marked, hnone fun l hl => h l (List.mem_append_left _ hl), hnone fun l hl => h l (List.mem_append_right _ hl),
      Bool.or_false, Bool.or_false]

end JumpScope

namespace Flow

variable (flow : Flow) (used more : List Ident)

@[simp] theorem marked_nil : flow.marked [] = flow := by
  simp [marked]

theorem marked_marked : (flow.marked used).marked more = flow.marked (used ++ more) := by
  simp [marked, JumpScope.marked_marked]

@[simp] theorem frame_marked : (flow.marked used).frame = flow.frame := by
  unfold frame marked
  cases flow.scopes with
  | nil => rfl
  | cons s scopes => cases s <;> rfl

end Flow

/-! ## Jumps -/

/-- Nothing but loops is around the current place, and `scope` are their labels, no two of them the same. -/
structure Flow.Within (flow : Flow) (scope : List Label) : Prop where
  loops : ∀ s ∈ flow.scopes, s ≠ .switch
  labels : flow.scopes.flatMap (·.labels) = scope
  nodup : (scope.map (·.id)).Nodup

theorem Flow.Within.marked {flow : Flow} {scope : List Label} (h : flow.Within scope) (used : List Ident) :
    (flow.marked used).Within scope where
  loops s hs := by
    obtain ⟨s', hs', rfl⟩ := List.mem_map.mp hs
    have hloop := h.loops s' hs'
    cases s' with
    | switch => exact absurd rfl hloop
    | loop exit again x y => nofun
  labels := by
    rw [← h.labels, Flow.marked, List.flatMap_map]
    simp only [JumpScope.labels_marked]
  nodup := h.nodup

theorem JumpScope.map_marked_of_unused {scopes : List JumpScope} {used : List Ident}
    (h : ∀ l ∈ scopes.flatMap (·.labels), l.id ∉ used) : scopes.map (·.marked used) = scopes := by
  refine (List.map_congr_left fun s hs => ?_).trans scopes.map_id
  exact marked_of_unused fun l hl => h l (List.mem_flatMap.mpr ⟨s, hs, hl⟩)

theorem any_singleton (o : Option Label) (target : Ident) :
    o.any ([target].contains ·.id) = (o.map (·.id) == some target) := by
  cases o with
  | none => rfl
  | some l => simp [beq_eq_decide]

/-- From inside another construct every jump is a `goto`, and marks the loop that owns its label. -/
theorem Flow.resolve_outer (target : Ident) {scopes : List JumpScope} (hloops : ∀ s ∈ scopes, s ≠ .switch)
    (hnodup : ((scopes.flatMap (·.labels)).map (·.id)).Nodup) :
    Flow.resolve target false scopes = (.goto, scopes.map (·.marked [target])) := by
  -- from the inside out: the labels are different, so that at most one loop is marked
  induction scopes with
  | nil => rfl
  | cons s outer ih =>
    cases s with
    | switch => exact absurd rfl (hloops _ List.mem_cons_self)
    | loop exit again x y =>
      rw [List.flatMap_cons, List.map_append, List.nodup_append] at hnodup
      obtain ⟨hown, houter, hapart⟩ := hnodup
      have hunused {l : Label} (hl : l ∈ exit.toList ++ again.toList) :
          outer.map (·.marked [l.id]) = outer := by
        refine JumpScope.map_marked_of_unused fun m hm hid => ?_
        exact hapart l.id (List.mem_map_of_mem hl) m.id (List.mem_map_of_mem hm) (List.mem_singleton.mp hid).symm
      rw [List.map_cons, JumpScope.marked, any_singleton, any_singleton]
      cases hexit : exit.map (·.id) == some target with
      | true =>
        obtain ⟨l, rfl, rfl⟩ := Option.map_eq_some_iff.mp (beq_iff_eq.mp hexit)
        have hagain : (again.map (·.id) == some l.id) = false := by
          cases again with
          | none => rfl
          | some m =>
            have hne : l.id ≠ m.id := by simpa [JumpScope.labels] using hown
            simpa using hne.symm
        rw [hunused (by simp), hagain, Bool.or_true, Bool.or_false, resolve, if_pos hexit]
        rfl
      | false =>
        have hnot : ¬ (exit.map (·.id) == some target) = true := by simp [hexit]
        rw [resolve, if_neg hnot, Bool.or_false]
        cases hagain : again.map (·.id) == some target with
        | true =>
          obtain ⟨m, rfl, rfl⟩ := Option.map_eq_some_iff.mp (beq_iff_eq.mp hagain)
          rw [hunused (by simp), Bool.or_true, if_pos rfl]
          rfl
        | false =>
          rw [ih (fun s hs => hloops s (List.mem_cons_of_mem _ hs)) houter, Bool.or_false, if_neg Bool.false_ne_true]

/-- **A jump is written as the innermost loop says**, and a `goto` marks the loop that owns its label. -/
theorem Flow.Within.resolve {flow : Flow} {scope : List Label} (h : flow.Within scope) (target : Ident) :
    Flow.resolve target true flow.scopes =
      (flow.frame.form target,
        if flow.frame.form target = .goto then (flow.marked [target]).scopes else flow.scopes) := by
  have hloops := h.loops
  have hnodup := h.nodup
  rw [← h.labels] at hnodup
  unfold Flow.frame Flow.marked
  generalize flow.scopes = scopes at hloops hnodup
  cases scopes with
  | nil => rfl
  | cons s outer =>
    have houter := resolve_outer target hloops hnodup
    cases s with
    | switch => exact absurd rfl (hloops _ List.mem_cons_self)
    | loop exit again x y =>
      by_cases hexit : exit.map (·.id) = some target
      · simp [Flow.resolve, Frame.form, Frame.ofLoop, hexit]
      · by_cases hagain : again.map (·.id) = some target
        · simp [Flow.resolve, Frame.form, Frame.ofLoop, hexit, hagain]
        · simp only [Flow.resolve, hexit, hagain, beq_iff_eq, if_false] at houter ⊢
          simp only [Frame.form, Frame.ofLoop, hexit, hagain, if_false, if_true]
          exact houter

end Scribe
