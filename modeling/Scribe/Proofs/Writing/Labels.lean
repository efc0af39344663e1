import Scribe.Proofs.Writing.Names

/-!
# The names of labels

A label keeps the name that it got first, and naming it leaves the names of variables alone. Labels without
names of their own get numbered names, which tell them apart.
-/

namespace Scribe.Naming

variable {n : Naming} {i : Ident} {l : Label} {s : String} {ls : List Label} {ν : Ident → String}

/-- What a label is called, if it has got a name. -/
def label? (n : Naming) (i : Ident) : Option String := n.labelNames.lookup i

/-- Names labels one after the other. -/
def nameLabels (n : Naming) (ls : List Label) : Naming := ls.foldl (fun n l => (n.nameLabel l).2) n

theorem nameLabels_cons (n : Naming) (l : Label) (ls : List Label) :
    n.nameLabels (l :: ls) = (n.nameLabel l).2.nameLabels ls := rfl

theorem nameLabels_append (n : Naming) (ls ms : List Label) :
    n.nameLabels (ls ++ ms) = (n.nameLabels ls).nameLabels ms := by
  simp only [nameLabels, List.foldl_append]

/-! ## One label -/

theorem nameLabel_of_known (h : n.label? l.id = some s) : n.nameLabel l = (s, n) := by
  unfold label? at h
  simp only [nameLabel, h]

theorem nameLabel_of_new (h : n.label? l.id = none) :
    n.nameLabel l =
      ((n.choose l.name "label").1,
        { (n.choose l.name "label").2 with
          labelNames := (l.id, (n.choose l.name "label").1) :: (n.choose l.name "label").2.labelNames }) := by
  unfold label? at h
  simp only [nameLabel, h]

theorem choose_labelNames (n : Naming) (own : Option String) (stem : String) :
    (n.choose own stem).2.labelNames = n.labelNames := by
  cases own <;> rfl

/-- What labels are called behind the naming of a new one. -/
theorem label?_of_new (h : n.label? l.id = none) (i : Ident) :
    (n.nameLabel l).2.label? i = if i = l.id then some (n.nameLabel l).1 else n.label? i := by
  rw [nameLabel_of_new h]
  unfold label?
  simp only [choose_labelNames, List.lookup_cons]
  by_cases hi : i = l.id
  · simp [hi]
  · simp only [beq_false_of_ne hi, if_neg hi]

theorem label?_self (n : Naming) (l : Label) : (n.nameLabel l).2.label? l.id = some (n.nameLabel l).1 := by
  cases h : n.label? l.id with
  | some s =>
    rw [nameLabel_of_known h]
    exact h
  | none => rw [label?_of_new h, if_pos rfl]

theorem label?_nameLabel (h : n.label? i = some s) (l : Label) : (n.nameLabel l).2.label? i = some s := by
  cases hl : n.label? l.id with
  | some t =>
    rw [nameLabel_of_known hl]
    exact h
  | none =>
    have hne : i ≠ l.id := by
      rintro rfl
      rw [hl] at h
      cases h
    rw [label?_of_new hl, if_neg hne, h]

theorem variableNames_nameLabel (n : Naming) (l : Label) : (n.nameLabel l).2.variableNames = n.variableNames := by
  cases h : n.label? l.id with
  | some s => rw [nameLabel_of_known h]
  | none =>
    rw [nameLabel_of_new h]
    exact choose_variableNames n l.name "label"

/-! ## Many labels -/

theorem label?_nameLabels (h : n.label? i = some s) (ls : List Label) : (n.nameLabels ls).label? i = some s := by
  induction ls generalizing n with
  | nil => exact h
  | cons l ls ih => exact ih (label?_nameLabel h l)

/-- Every label that has been named has a name. -/
theorem exists_label? (h : l ∈ ls) (n : Naming) : ∃ s, (n.nameLabels ls).label? l.id = some s := by
  induction ls generalizing n with
  | nil => cases h
  | cons m ls ih =>
    rw [nameLabels_cons]
    rcases List.mem_cons.mp h with rfl | h
    · exact ⟨_, label?_nameLabels (n.label?_self l) ls⟩
    · exact ih h _

theorem variableNames_nameLabels (n : Naming) (ls : List Label) :
    (n.nameLabels ls).variableNames = n.variableNames := by
  induction ls generalizing n with
  | nil => rfl
  | cons l ls ih => rw [nameLabels_cons, ih, variableNames_nameLabel]

/-- Labels that have names are called by them in `ν`. -/
def Calls (n : Naming) (ν : Ident → String) : Prop := ∀ i s, n.label? i = some s → ν i = s

theorem Calls.of_nameLabels (h : (n.nameLabels ls).Calls ν) : n.Calls ν :=
  fun i s hs => h i s (label?_nameLabels hs ls)

/-! ## Numbered names -/

/-- Labels have numbered names, and each has a number of its own. -/
structure LabelsNumbered (n : Naming) : Prop where
  numbered : ∀ i s, n.label? i = some s → ∃ k ≤ n.lastNumber "label", s = "label" ++ toString k
  apart : ∀ i j s, n.label? i = some s → n.label? j = some s → i = j

theorem lastNumber_nameLabel (h : n.label? l.id = none) (hl : l.name = none) :
    (n.nameLabel l).2.lastNumber "label" = n.lastNumber "label" + 1 ∧
      (n.nameLabel l).1 = "label" ++ toString (n.lastNumber "label" + 1) := by
  rw [nameLabel_of_new h, hl]
  simp [choose, fresh, lastNumber]

theorem LabelsNumbered.nameLabel (h : n.LabelsNumbered) (hl : l.name = none) : (n.nameLabel l).2.LabelsNumbered := by
  cases hknown : n.label? l.id with
  | some s =>
    rw [nameLabel_of_known hknown]
    exact h
  | none =>
    obtain ⟨hlast, hname⟩ := lastNumber_nameLabel hknown hl
    -- The new number is larger than those given out before.
    have hlarger {i : Ident} (hi : n.label? i = some ("label" ++ toString (n.lastNumber "label" + 1))) :
        False := by
      obtain ⟨k, hk, heq⟩ := h.numbered i _ hi
      have hsame := numbered_injective heq
      omega
    refine ⟨fun i s hi => ?_, fun i j s hi hj => ?_⟩
    · rw [label?_of_new hknown] at hi
      rw [hlast]
      split at hi
      · cases hi
        exact ⟨_, Nat.le_refl _, hname⟩
      · obtain ⟨k, hk, hs⟩ := h.numbered i s hi
        exact ⟨k, Nat.le_succ_of_le hk, hs⟩
    · rw [label?_of_new hknown] at hi hj
      split at hi
      · next hil =>
        cases hi
        split at hj
        · next hjl => rw [hil, hjl]
        · rw [hname] at hj
          exact (hlarger hj).elim
      · split at hj
        · cases hj
          rw [hname] at hi
          exact (hlarger hi).elim
        · exact h.apart i j s hi hj

theorem LabelsNumbered.nameLabels (h : n.LabelsNumbered) (hls : ∀ l ∈ ls, l.name = none) :
    (n.nameLabels ls).LabelsNumbered := by
  induction ls generalizing n with
  | nil => exact h
  | cons l ls ih =>
    exact ih (h.nameLabel (hls l List.mem_cons_self)) fun m hm => hls m (List.mem_cons_of_mem l hm)

/-- Variables have no part in the names of labels. -/
theorem labelNames_nameAll (n : Naming) (vs : List Variable) : (n.nameAll vs).labelNames = n.labelNames := by
  induction vs generalizing n with
  | nil => rfl
  | cons v vs ih =>
    rw [nameAll_cons, ih]
    by_cases h : n.Knows v.id
    · rw [nameVariable_of_knows h]
    · rw [nameVariable_of_not_knows h]
      exact choose_labelNames n v.name "p"

theorem labelsNumbered_nameAll (vs : List Variable) : (({} : Naming).nameAll vs).LabelsNumbered := by
  have hnone (i : Ident) : (({} : Naming).nameAll vs).label? i = none := by
    rw [label?, labelNames_nameAll]
    rfl
  refine ⟨fun i s hi => ?_, fun i j s hi => ?_⟩ <;>
  · rw [hnone] at hi
    cases hi

end Scribe.Naming
