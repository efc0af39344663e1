import Scribe.Text.Sorted

/-!
# Sorting

The stable sort only moves things: the sorted list has the same elements as the list, each as many times, and
nothing in it comes before what stands in front of it. A sorted set has the same elements, each once.
-/

namespace Scribe

namespace Text

variable {α : Type} (before : α → α → Bool)

theorem insertStable_perm (a : α) (bs : List α) : (insertStable before a bs).Perm (a :: bs) := by
  induction bs with
  | nil => exact .refl _
  | cons b bs ih =>
    unfold insertStable
    split
    · exact .refl _
    · exact (ih.cons b).trans (.swap a b bs)

theorem stableSort_perm (as : List α) : (stableSort before as).Perm as := by
  have hfold : ∀ (as sorted : List α),
      (as.foldl (fun sorted a => insertStable before a sorted) sorted).Perm (sorted ++ as) := by
    intro as
    induction as with
    | nil =>
      intro sorted
      rw [List.append_nil]
      exact .refl _
    | cons a as ih =>
      intro sorted
      have hmoved : (a :: (sorted ++ as)).Perm (sorted ++ a :: as) := List.perm_middle.symm
      exact (ih _).trans (((insertStable_perm before a sorted).append_right as).trans hmoved)
  exact hfold as []

theorem mem_insertStable {a b : α} {bs : List α} : b ∈ insertStable before a bs ↔ b = a ∨ b ∈ bs := by
  rw [(insertStable_perm before a bs).mem_iff, List.mem_cons]

section Order

variable {before} (hirrefl : ∀ a, before a a = false)
  (htrans : ∀ a b c, before a b = true → before b c = true → before a c = true)

include hirrefl htrans

/-- What is inserted comes behind nothing that it is before. -/
theorem insertStable_pairwise (a : α) {bs : List α} (h : bs.Pairwise fun x y => before y x = false) :
    (insertStable before a bs).Pairwise fun x y => before y x = false := by
  induction bs with
  | nil => exact List.pairwise_singleton _ a
  | cons b bs ih =>
    obtain ⟨hb, hbs⟩ := List.pairwise_cons.mp h
    unfold insertStable
    split
    · next hab =>
      -- nothing behind `b` is before `a`, or it would be before `b`
      have hnot {c : α} (hc : before c b = false) : before c a = false := by
        cases hca : before c a with
        | false => rfl
        | true => rw [htrans c a b hca hab] at hc; cases hc
      refine List.pairwise_cons.mpr ⟨fun c hc => ?_, h⟩
      rcases List.mem_cons.mp hc with rfl | hc
      · exact hnot (hirrefl c)
      · exact hnot (hb c hc)
    · next hab =>
      refine List.pairwise_cons.mpr ⟨fun c hc => ?_, ih hbs⟩
      rcases (mem_insertStable before).mp hc with rfl | hc
      · exact Bool.eq_false_iff.mpr hab
      · exact hb c hc

/-- In a sorted list nothing comes before what stands in front of it. -/
theorem stableSort_pairwise (as : List α) : (stableSort before as).Pairwise fun x y => before y x = false := by
  have hfold : ∀ (as sorted : List α), (sorted.Pairwise fun x y => before y x = false) →
      (as.foldl (fun sorted a => insertStable before a sorted) sorted).Pairwise fun x y => before y x = false := by
    intro as
    induction as with
    | nil => exact fun sorted h => h
    | cons a as ih => exact fun sorted h => ih _ (insertStable_pairwise hirrefl htrans a h)
  exact hfold as [] .nil

end Order

/-! ## Pairs -/

theorem pairBefore_iff {a b : String × String} : pairBefore a b = true ↔ a.1 < b.1 ∨ a.1 = b.1 ∧ a.2 < b.2 := by
  simp [pairBefore]

theorem pairBefore_irrefl (a : String × String) : pairBefore a a = false := by
  refine Bool.eq_false_iff.mpr fun h => ?_
  rcases pairBefore_iff.mp h with hlt | ⟨-, hlt⟩
  · exact String.lt_irrefl _ hlt
  · exact String.lt_irrefl _ hlt

theorem pairBefore_trans (a b c : String × String) (hab : pairBefore a b = true) (hbc : pairBefore b c = true) :
    pairBefore a c = true := by
  refine pairBefore_iff.mpr ?_
  rcases pairBefore_iff.mp hab with hab | ⟨hab, hab'⟩
  · rcases pairBefore_iff.mp hbc with hbc | ⟨hbc, -⟩
    · exact Or.inl (String.lt_trans hab hbc)
    · exact Or.inl (hbc ▸ hab)
  · rcases pairBefore_iff.mp hbc with hbc | ⟨hbc, hbc'⟩
    · exact Or.inl (hab ▸ hbc)
    · exact Or.inr ⟨hab.trans hbc, String.lt_trans hab' hbc'⟩

/-- Sorted pairs are in the order of their first parts. -/
theorem stableSort_fst_pairwise (ps : List (String × String)) :
    ((stableSort pairBefore ps).map Prod.fst).Pairwise (· ≤ ·) := by
  refine List.pairwise_map.mpr ((stableSort_pairwise pairBefore_irrefl pairBefore_trans ps).imp ?_)
  intro a b hnot hlt
  rw [pairBefore_iff.mpr (Or.inl hlt)] at hnot
  cases hnot

/-! ## Sets -/

theorem mem_insertSorted {s t : String} {ts : List String} : t ∈ insertSorted s ts ↔ t = s ∨ t ∈ ts := by
  induction ts with
  | nil => simp [insertSorted]
  | cons u ts ih =>
    unfold insertSorted
    split
    · exact List.mem_cons
    · split
      · next heq =>
        subst heq
        simp
      · rw [List.mem_cons, ih, List.mem_cons]
        exact or_left_comm

theorem mem_sortedSet {s : String} {ss : List String} : s ∈ sortedSet ss ↔ s ∈ ss := by
  have hfold : ∀ (ss set : List String),
      s ∈ ss.foldl (fun set s => insertSorted s set) set ↔ s ∈ set ∨ s ∈ ss := by
    intro ss
    induction ss with
    | nil => simp
    | cons t ss ih =>
      intro set
      rw [List.foldl_cons, ih, mem_insertSorted, List.mem_cons, or_assoc, or_left_comm]
  rw [sortedSet, hfold]
  simp

end Text

end Scribe
