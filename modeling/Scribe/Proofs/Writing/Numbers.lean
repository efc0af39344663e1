import Mathlib.Data.List.Pairwise
import Scribe.Proofs.Writing.Names
import Scribe.Proofs.Writing.Step

/-!
# Numbered names

A numbered name is a stem and a number, written one behind the other. Two of them are the same text in two
cases: when both the stems and the numbers are the same, or when one stem is the other one with digits
behind it, so that it is not clear where the number begins. The first case does not occur among names that
were given out, because the numbers behind a stem only ever grow.

`Field.Listed` is what this means for fields: every field has a number of its own behind its stem, and there
is one field for each value.
-/

namespace Scribe

namespace Identifier

/-- Whether `t` is `s` with digits behind it. -/
def digitsBehind (s t : String) : Bool :=
  s.toList.isPrefixOf t.toList && !(t.toList.drop s.toList.length).isEmpty &&
    (t.toList.drop s.toList.length).all Char.isDigit

theorem digitsBehind_of_append {s t : String} {ds : List Char} (h : t.toList = s.toList ++ ds)
    (hne : ds ≠ []) (hdigits : ∀ c ∈ ds, c.isDigit = true) : digitsBehind s t = true := by
  unfold digitsBehind
  rw [h, List.drop_left, List.isPrefixOf_iff_prefix.mpr (List.prefix_append _ _), Bool.true_and,
    Bool.and_eq_true, Bool.not_eq_true', List.isEmpty_eq_false_iff, List.all_eq_true]
  exact ⟨hne, hdigits⟩

theorem isDigit_of_mem_toString {c : Char} {n : Nat} (h : c ∈ (toString n).toList) : c.isDigit = true := by
  have hc : c ∈ Nat.toDigits 10 n := by simpa using h
  exact Nat.isDigit_of_mem_toDigits (by decide) (by decide) hc

/-- A numbered name is its stem with digits behind it. -/
theorem digitsBehind_numbered (s : String) (n : Nat) : digitsBehind s (s ++ toString n) = true := by
  refine digitsBehind_of_append String.toList_append ?_ fun c hc => isDigit_of_mem_toString hc
  simp [Nat.toDigits_ne_nil]

/-- Two numbered names are the same text only if stems and numbers are, or if one of the stems is the other
one with digits behind it. -/
theorem numbered_eq {s t : String} {m n : Nat} (h : s ++ toString m = t ++ toString n) :
    (s = t ∧ m = n) ∨ digitsBehind s t = true ∨ digitsBehind t s = true := by
  by_cases hst : s = t
  · subst hst
    exact Or.inl ⟨rfl, Naming.numbered_injective h⟩
  · have hlist : s.toList ++ (toString m).toList = t.toList ++ (toString n).toList := by
      rw [← String.toList_append, ← String.toList_append, h]
    -- the longer stem goes on where the number of the other name begins
    rcases List.append_eq_append_iff.mp hlist with ⟨ds, ht, hm⟩ | ⟨ds, hs, hn⟩
    · refine Or.inr (Or.inl (digitsBehind_of_append ht ?_ fun c hc => isDigit_of_mem_toString (n := m) ?_))
      · rintro rfl
        rw [List.append_nil] at ht
        exact hst (String.toList_injective ht.symm)
      · rw [hm]
        exact List.mem_append_left _ hc
    · refine Or.inr (Or.inr (digitsBehind_of_append hs ?_ fun c hc => isDigit_of_mem_toString (n := n) ?_))
      · rintro rfl
        rw [List.append_nil] at hs
        exact hst (String.toList_injective hs)
      · rw [hn]
        exact List.mem_append_left _ hc

end Identifier

/-! ## Counters -/

namespace Naming

/-- No counter has gone back. -/
def Grows (n n' : Naming) : Prop := ∀ stem, n.lastNumber stem ≤ n'.lastNumber stem

variable {n n' n'' : Naming}

theorem Grows.refl (n : Naming) : Grows n n := fun _ => Nat.le_refl _

theorem Grows.trans (h : Grows n n') (h' : Grows n' n'') : Grows n n'' :=
  fun stem => Nat.le_trans (h stem) (h' stem)

theorem lastNumber_fresh (n : Naming) (stem : String) : (n.fresh stem).2.lastNumber stem = n.lastNumber stem + 1 := by
  simp [fresh, lastNumber]

theorem grows_fresh (n : Naming) (stem : String) : Grows n (n.fresh stem).2 := by
  intro other
  by_cases h : other = stem
  · rw [h, lastNumber_fresh]
    exact Nat.le_succ _
  · simp only [fresh, lastNumber, List.lookup_cons, beq_false_of_ne h]
    exact Nat.le_refl _

theorem grows_choose (n : Naming) (own : Option String) (stem : String) : Grows n (n.choose own stem).2 := by
  cases own with
  | some name => exact .refl n
  | none => exact n.grows_fresh stem

theorem grows_nameVariable (n : Naming) (v : Variable) : Grows n (n.nameVariable v).2 := by
  unfold nameVariable
  split
  · exact .refl n
  · exact n.grows_choose v.name "p"

theorem grows_nameLabel (n : Naming) (l : Label) : Grows n (n.nameLabel l).2 := by
  unfold nameLabel
  split
  · exact .refl n
  · exact n.grows_choose l.name "label"

theorem grows_nameLambda (n : Naming) (sig : Signature) : Grows n (n.nameLambda sig).2 := by
  unfold nameLambda
  split
  · exact .refl n
  · exact n.grows_choose sig.name "func"

end Naming

/-! ## Fields -/

namespace Field

/-- What stands in front of the number in the name of a field. -/
def stem (f : Field) : String := Identifier.stem f.value.hint

/-- There is one field for each value, and it has a number of its own behind its stem. -/
structure Listed (fields : List Field) (naming : Naming) : Prop where
  numbered : ∀ f ∈ fields, ∃ k ≤ naming.lastNumber f.stem, f.name = f.stem ++ toString k
  keys : fields.Pairwise fun f g => f.value.key ≠ g.value.key
  names : fields.Pairwise fun f g => f.stem = g.stem → f.name ≠ g.name

variable {fields all : List Field} {naming naming' : Naming}

theorem listed_nil (naming : Naming) : Listed [] naming :=
  ⟨nofun, .nil, .nil⟩

theorem Listed.grow (h : Listed fields naming) (hgrows : naming.Grows naming') : Listed fields naming' where
  numbered f hf := by
    obtain ⟨k, hk, hname⟩ := h.numbered f hf
    exact ⟨k, Nat.le_trans hk (hgrows f.stem), hname⟩
  keys := h.keys
  names := h.names

section Request

variable (fields : List Field) (naming : Naming) (value : Hoisted) (ty : Ty) (hint : String)

/-- A request is answered from a field of the same value, or by a new field with the next number. -/
theorem request_cases :
    (∃ f ∈ fields, f.value.key = value.key ∧
      request fields naming value ty hint = (f.name, fields, naming)) ∨
    (∀ f ∈ fields, f.value.key ≠ value.key) ∧
      request fields naming value ty hint =
        ((naming.fresh (Identifier.stem hint)).1,
          fields ++ [⟨(naming.fresh (Identifier.stem hint)).1, ty, value⟩],
          (naming.fresh (Identifier.stem hint)).2) := by
  unfold request
  cases hfind : fields.find? (·.value.key == value.key) with
  | some f =>
    have hkey := List.find?_some hfind
    exact Or.inl ⟨f, List.mem_of_find?_eq_some hfind, eq_of_beq hkey, rfl⟩
  | none =>
    refine Or.inr ⟨fun f hf heq => ?_, rfl⟩
    exact List.find?_eq_none.mp hfind f hf (beq_iff_eq.mpr heq)

theorem grows_request : naming.Grows (request fields naming value ty hint).2.2 := by
  rcases request_cases fields naming value ty hint with ⟨f, -, -, h⟩ | ⟨-, h⟩
  · rw [h]
    exact .refl naming
  · rw [h]
    exact naming.grows_fresh _

theorem request_prefix : fields <+: (request fields naming value ty hint).2.1 := by
  rcases request_cases fields naming value ty hint with ⟨f, -, -, h⟩ | ⟨-, h⟩
  · have hfields : (request fields naming value ty hint).2.1 = fields := by rw [h]
    exact hfields.symm ▸ List.prefix_rfl
  · rw [h]
    exact List.prefix_append _ _

end Request

theorem Listed.request (h : Listed fields naming) (value : Hoisted) (ty : Ty) :
    Listed (request fields naming value ty value.hint).2.1
      (request fields naming value ty value.hint).2.2 := by
  rcases request_cases fields naming value ty value.hint with ⟨f, -, -, hr⟩ | ⟨hnew, hr⟩
  · rw [hr]
    exact h
  rw [hr]
  have hgrown := h.grow (naming.grows_fresh (Identifier.stem value.hint))
  refine ⟨fun f hf => ?_, ?_, ?_⟩
  · rcases List.mem_append.mp hf with hf | hf
    · exact hgrown.numbered f hf
    · rw [List.mem_singleton.mp hf]
      exact ⟨_, Nat.le_of_eq (naming.lastNumber_fresh _).symm, rfl⟩
  · refine List.pairwise_append.mpr ⟨h.keys, List.pairwise_singleton _ _, fun f hf g hg => ?_⟩
    rw [List.mem_singleton.mp hg]
    exact hnew f hf
  · refine List.pairwise_append.mpr ⟨h.names, List.pairwise_singleton _ _, fun f hf g hg hstem hname => ?_⟩
    -- the number of the new field is larger than all numbers behind its stem
    rw [List.mem_singleton.mp hg] at hstem hname
    obtain ⟨k, hk, hfname⟩ := h.numbered f hf
    rw [hfname, hstem] at hname
    have hnumber : k = naming.lastNumber (Identifier.stem value.hint) + 1 := Naming.numbered_injective hname
    rw [hstem] at hk
    have hk' : k ≤ naming.lastNumber (Identifier.stem value.hint) := hk
    omega

/-- Whatever is asked for on the way to the fields `all` has a field of the given name among them. -/
theorem exists_of_request {value : Hoisted} {ty : Ty} {hint : String}
    (h : (request fields naming value ty hint).2.1 <+: all) :
    ∃ f ∈ all, f.name = (request fields naming value ty hint).1 ∧ f.value.key = value.key := by
  rcases request_cases fields naming value ty hint with ⟨f, hf, hkey, hr⟩ | ⟨-, hr⟩
  · rw [hr] at h ⊢
    exact ⟨f, h.subset hf, rfl, hkey⟩
  · rw [hr] at h ⊢
    exact ⟨_, h.subset (List.mem_append_right _ (List.mem_singleton_self _)), rfl, rfl⟩

/-- Fields of the same name are the same, unless one stem is the other one with digits behind it. -/
theorem Listed.eq_of_name {f g : Field} (h : Listed fields naming) (hf : f ∈ fields) (hg : g ∈ fields)
    (hname : f.name = g.name) :
    f = g ∨ Identifier.digitsBehind f.stem g.stem = true ∨ Identifier.digitsBehind g.stem f.stem = true := by
  by_cases hfg : f = g
  · exact Or.inl hfg
  · right
    obtain ⟨k, -, hk⟩ := h.numbered f hf
    obtain ⟨m, -, hm⟩ := h.numbered g hg
    rcases Identifier.numbered_eq (hk.symm.trans (hname.trans hm)) with ⟨hstem, -⟩ | hdigits
    · have hsymm : Std.Symm fun a b : Field => a.stem = b.stem → a.name ≠ b.name :=
        ⟨fun a b hab hstem hname => hab hstem.symm hname.symm⟩
      exact absurd hname (h.names.forall hf hg hfg hstem)
    · exact hdigits

end Field

/-- Steps only add fields, and keep them listed. -/
theorem Draft.LeadsTo.fields {desk : Desk} {d e : Draft} (h : LeadsTo desk d e) :
    d.fields <+: e.fields ∧ d.naming.Grows e.naming ∧
      (Field.Listed d.fields d.naming → Field.Listed e.fields e.naming) := by
  induction h with
  | trans _ _ ih₁ ih₂ =>
    exact ⟨ih₁.1.trans ih₂.1, ih₁.2.1.trans ih₂.2.1, fun h => ih₂.2.2 (ih₁.2.2 h)⟩
  | indented _ ih => exact ih
  | entered _ _ ih => exact ih
  | guarded _ _ ih => exact ih
  | inFunction _ ih => exact ih
  | marked _ _ _ _ _ ih => exact ih
  | promoted _ _ _ ih => exact ih
  | fresh d stem =>
    exact ⟨List.prefix_rfl, d.naming.grows_fresh stem, fun h => h.grow (d.naming.grows_fresh stem)⟩
  | namedVariable d v =>
    exact ⟨List.prefix_rfl, d.naming.grows_nameVariable v, fun h => h.grow (d.naming.grows_nameVariable v)⟩
  | namedLabel d l =>
    exact ⟨List.prefix_rfl, d.naming.grows_nameLabel l, fun h => h.grow (d.naming.grows_nameLabel l)⟩
  | namedLambda d sig =>
    exact ⟨List.prefix_rfl, d.naming.grows_nameLambda sig, fun h => h.grow (d.naming.grows_nameLambda sig)⟩
  | hoisted d value ty =>
    exact ⟨Field.request_prefix _ _ _ _ _, Field.grows_request _ _ _ _ _, fun h => h.request value ty⟩
  | _ => exact ⟨List.prefix_rfl, .refl _, id⟩

end Scribe
