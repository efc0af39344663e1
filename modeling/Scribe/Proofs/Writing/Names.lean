import Scribe.Naming

/-!
# The names of variables

A variable keeps the name that it got first, so a name that is known stays the same while more variables
are named. What a variable is called depends on the variables named before it only when it has no name of
its own.

`Naming.Honest` is what naming a list of variables keeps: each known variable is called by its own name or
by a number of its own.
-/

namespace Scribe

namespace Naming

variable {n : Naming} {i j : Ident} {v : Variable}

/-- What a variable is called; nothing for one that is not known. -/
def ofVariable (n : Naming) (i : Ident) : String := (n.variableNames.lookup i).getD ""

/-- Whether the variable has got a name. -/
def Knows (n : Naming) (i : Ident) : Prop := (n.variableNames.lookup i).isSome = true

/-- Names variables one after the other. -/
def nameAll (n : Naming) (vs : List Variable) : Naming := vs.foldl (fun n v => (n.nameVariable v).2) n

/-- The last number that was used behind a stem. -/
def lastNumber (n : Naming) (stem : String) : Nat := (n.counters.lookup stem).getD 0

/-! ## One variable -/

theorem nameVariable_of_knows (h : n.Knows v.id) : n.nameVariable v = (n.ofVariable v.id, n) := by
  obtain ⟨s, hs⟩ := Option.isSome_iff_exists.mp h
  simp only [nameVariable, ofVariable, hs, Option.getD_some]

theorem nameVariable_of_not_knows (h : ¬ n.Knows v.id) :
    n.nameVariable v =
      ((n.choose v.name "p").1,
        { (n.choose v.name "p").2 with
          variableNames := (v.id, (n.choose v.name "p").1) :: (n.choose v.name "p").2.variableNames }) := by
  have hnone : n.variableNames.lookup v.id = none := Option.not_isSome_iff_eq_none.mp h
  simp only [nameVariable, hnone]

theorem choose_variableNames (n : Naming) (own : Option String) (stem : String) :
    (n.choose own stem).2.variableNames = n.variableNames := by
  cases own <;> rfl

/-- Naming a variable that is not known adds it in front of the others. -/
theorem variableNames_of_not_knows (h : ¬ n.Knows v.id) :
    (n.nameVariable v).2.variableNames = (v.id, (n.choose v.name "p").1) :: n.variableNames := by
  rw [nameVariable_of_not_knows h]
  simp only [choose_variableNames]

theorem knows_nameVariable_iff : (n.nameVariable v).2.Knows i ↔ i = v.id ∨ n.Knows i := by
  by_cases h : n.Knows v.id
  · rw [nameVariable_of_knows h]
    exact ⟨Or.inr, fun hi => hi.elim (fun heq => heq ▸ h) id⟩
  · unfold Knows
    rw [variableNames_of_not_knows h, List.lookup_cons]
    by_cases hi : i = v.id
    · simp [hi]
    · simp only [beq_false_of_ne hi, hi, false_or]

theorem ofVariable_nameVariable (h : n.Knows i) : (n.nameVariable v).2.ofVariable i = n.ofVariable i := by
  by_cases hv : n.Knows v.id
  · rw [nameVariable_of_knows hv]
  · have hne : (i == v.id) = false := by
      refine beq_false_of_ne fun heq => hv ?_
      rw [← heq]
      exact h
    unfold ofVariable
    rw [variableNames_of_not_knows hv, List.lookup_cons]
    simp only [hne]

/-- A variable that becomes known gets the name that is chosen for it. -/
theorem ofVariable_self_of_not_knows (h : ¬ n.Knows v.id) :
    (n.nameVariable v).2.ofVariable v.id = (n.choose v.name "p").1 := by
  unfold ofVariable
  rw [variableNames_of_not_knows h, List.lookup_cons]
  simp

theorem nameVariable_fst (n : Naming) (v : Variable) : (n.nameVariable v).1 = (n.nameVariable v).2.ofVariable v.id := by
  by_cases h : n.Knows v.id
  · rw [nameVariable_of_knows h]
  · rw [ofVariable_self_of_not_knows h, nameVariable_of_not_knows h]

/-! ## Many variables -/

theorem nameAll_cons (n : Naming) (v : Variable) (vs : List Variable) :
    n.nameAll (v :: vs) = (n.nameVariable v).2.nameAll vs := rfl

theorem nameAll_append (n : Naming) (vs ws : List Variable) : n.nameAll (vs ++ ws) = (n.nameAll vs).nameAll ws := by
  simp only [nameAll, List.foldl_append]

theorem Knows.nameAll (h : n.Knows i) (vs : List Variable) : (n.nameAll vs).Knows i := by
  induction vs generalizing n with
  | nil => exact h
  | cons v vs ih => exact ih (knows_nameVariable_iff.mpr (Or.inr h))

theorem knows_nameAll {vs : List Variable} (h : v ∈ vs) (n : Naming) : (n.nameAll vs).Knows v.id := by
  induction vs generalizing n with
  | nil => cases h
  | cons w vs ih =>
    rw [nameAll_cons]
    rcases List.mem_cons.mp h with rfl | h
    · exact (knows_nameVariable_iff.mpr (Or.inl rfl)).nameAll vs
    · exact ih h _

theorem ofVariable_nameAll (h : n.Knows i) (vs : List Variable) : (n.nameAll vs).ofVariable i = n.ofVariable i := by
  induction vs generalizing n with
  | nil => rfl
  | cons v vs ih =>
    rw [nameAll_cons, ih (knows_nameVariable_iff.mpr (Or.inr h)), ofVariable_nameVariable h]

/-- Variables that have been named keep their names when others follow. -/
theorem ofVariable_later (n : Naming) (vs ws : List Variable) :
    ∀ v ∈ vs, ((n.nameAll vs).nameAll ws).ofVariable v.id = (n.nameAll vs).ofVariable v.id :=
  fun _ hv => ofVariable_nameAll (knows_nameAll hv n) ws

theorem nameAll_of_knows {vs : List Variable} (h : ∀ v ∈ vs, n.Knows v.id) : n.nameAll vs = n := by
  induction vs with
  | nil => rfl
  | cons v vs ih =>
    rw [nameAll_cons, nameVariable_of_knows (h v List.mem_cons_self)]
    exact ih fun w hw => h w (List.mem_cons_of_mem v hw)

/-! ## Own names and numbers -/

/-- Numbered names of one stem differ when their numbers do. -/
theorem numbered_injective {stem : String} {k m : Nat} (h : stem ++ toString k = stem ++ toString m) : k = m := by
  have hdigits : Nat.toDigits 10 k = Nat.toDigits 10 m := by
    have hlist := congrArg String.toList h
    simpa using hlist
  rw [← @Nat.ofDigitChars_ten_toDigits k, hdigits, Nat.ofDigitChars_ten_toDigits]

/-- Each known variable of `vs` goes by its own name, or by a number that no other one of them has. -/
structure Honest (n : Naming) (vs : List Variable) : Prop where
  own : ∀ v ∈ vs, n.Knows v.id → ∀ s, v.name = some s → n.ofVariable v.id = Identifier.escape s
  numbered : ∀ v ∈ vs, n.Knows v.id → v.name = none →
    ∃ k ≤ n.lastNumber "p", n.ofVariable v.id = "p" ++ toString k
  apart : ∀ v ∈ vs, ∀ w ∈ vs, n.Knows v.id → n.Knows w.id → v.name = none → w.name = none →
    n.ofVariable v.id = n.ofVariable w.id → v.id = w.id

/-- Each variable has one name. -/
def OneName (vs : List Variable) : Prop := ∀ v ∈ vs, ∀ w ∈ vs, v.id = w.id → v.name = w.name

theorem honest_empty (vs : List Variable) : Honest {} vs := by
  have hknows (i : Ident) : ¬ Knows {} i := by simp [Knows]
  exact ⟨fun v _ h => absurd h (hknows v.id), fun v _ h => absurd h (hknows v.id),
    fun v _ _ _ h => absurd h (hknows v.id)⟩

theorem lastNumber_nameVariable (h : ¬ n.Knows v.id) :
    (n.nameVariable v).2.lastNumber "p" =
      if v.name = none then n.lastNumber "p" + 1 else n.lastNumber "p" := by
  rw [nameVariable_of_not_knows h]
  cases v.name with
  | none => simp [choose, fresh, lastNumber]
  | some s => simp [choose, lastNumber]

/-- Naming a variable of `vs` keeps the names honest. -/
theorem Honest.nameVariable {vs : List Variable} (h : n.Honest vs) (hone : OneName vs) (hv : v ∈ vs) :
    (n.nameVariable v).2.Honest vs := by
  by_cases hknown : n.Knows v.id
  · rw [nameVariable_of_knows hknown]
    exact h
  have hself := ofVariable_self_of_not_knows hknown
  have hlast := lastNumber_nameVariable hknown
  -- A variable other than `v` was known before, and keeps its name.
  have hold {w : Variable} (hw : (n.nameVariable v).2.Knows w.id) (hne : w.id ≠ v.id) :
      n.Knows w.id ∧ (n.nameVariable v).2.ofVariable w.id = n.ofVariable w.id := by
    have hbefore := (knows_nameVariable_iff.mp hw).resolve_left hne
    exact ⟨hbefore, ofVariable_nameVariable hbefore⟩
  refine ⟨fun w hw hk s hs => ?_, fun w hw hk hs => ?_, fun w hw x hx hkw hkx hws hxs heq => ?_⟩
  · by_cases hid : w.id = v.id
    · rw [hid, hself, ← hone w hw v hv hid, hs]
      rfl
    · obtain ⟨hbefore, hsame⟩ := hold hk hid
      rw [hsame, h.own w hw hbefore s hs]
  · by_cases hid : w.id = v.id
    · have hvs : v.name = none := by rw [← hone w hw v hv hid, hs]
      refine ⟨n.lastNumber "p" + 1, ?_, ?_⟩
      · exact Nat.le_of_eq (by rw [hlast, if_pos hvs])
      · rw [hid, hself, hvs]
        rfl
    · obtain ⟨hbefore, hsame⟩ := hold hk hid
      obtain ⟨k, hk', hname⟩ := h.numbered w hw hbefore hs
      refine ⟨k, ?_, by rw [hsame, hname]⟩
      rw [hlast]
      split <;> omega
  · -- The number of `v` is larger than all numbers that were given out before.
    have hlarger {y : Variable} (hy : y ∈ vs) (hky : (n.nameVariable v).2.Knows y.id) (hys : y.name = none)
        (hvs : v.name = none) (hne : y.id ≠ v.id) :
        (n.nameVariable v).2.ofVariable y.id ≠ (n.nameVariable v).2.ofVariable v.id := by
      obtain ⟨hbefore, hsame⟩ := hold hky hne
      obtain ⟨k, hk, hname⟩ := h.numbered y hy hbefore hys
      rw [hsame, hname, hself, hvs]
      intro hnumber
      have hk' : k = n.lastNumber "p" + 1 := numbered_injective hnumber
      omega
    by_cases hw' : w.id = v.id
    · by_cases hx' : x.id = v.id
      · rw [hw', hx']
      · have hvs : v.name = none := by rw [← hone w hw v hv hw', hws]
        rw [hw'] at heq
        exact absurd heq.symm (hlarger hx hkx hxs hvs hx')
    · by_cases hx' : x.id = v.id
      · have hvs : v.name = none := by rw [← hone x hx v hv hx', hxs]
        rw [hx'] at heq
        exact absurd heq (hlarger hw hkw hws hvs hw')
      · obtain ⟨hbw, hsw⟩ := hold hkw hw'
        obtain ⟨hbx, hsx⟩ := hold hkx hx'
        rw [hsw, hsx] at heq
        exact h.apart w hw x hx hbw hbx hws hxs heq

theorem Honest.nameAll {vs ws : List Variable} (h : n.Honest vs) (hone : OneName vs) (hws : ∀ w ∈ ws, w ∈ vs) :
    (n.nameAll ws).Honest vs := by
  induction ws generalizing n with
  | nil => exact h
  | cons w ws ih =>
    exact ih (h.nameVariable hone (hws w List.mem_cons_self)) fun x hx => hws x (List.mem_cons_of_mem w hx)

end Naming

end Scribe
