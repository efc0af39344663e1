import Scribe.Proofs.Lexicon.Coverage

/-!
# What imports do to bare names

A type that is the first to claim its simple name goes by that name, and its namespace is imported. A later type of the
same simple name gets a number, and its namespace is not imported for its sake. So far the bare name has one reading.

The namespace of the later type may still be imported, for the sake of a third type. Then the bare name has two readings.
There is no other way to it: a namespace is imported exactly when a type of this namespace is spelled as it is
(`Lexicon.mem_imports_iff`). So `Lexicon.Clear`, which says that bare names have one reading, can be decided by looking
at which types are spelled as they are.
-/

namespace Scribe

/-- Whether the type stands in no other type and is not generic. Its spelling as it is is its simple name. -/
def Ty.isTopLevel : Ty → Bool
  | .named head [] none => !head.isDefinition
  | _ => false

namespace Lexicon

variable {lex lex' : Lexicon} {es : List Entry} {n : Nat}

/-! ## Where imports come from -/

/-- Every import is there for the sake of a type that is spelled as it is. -/
def ImportsOwned (lex : Lexicon) : Prop :=
  ∀ ns ∈ lex.imports, ∃ e ∈ lex.entries, e.name = e.base ∧ e.ty.ns? = some ns

theorem LeadsTo.importsOwned (h : LeadsTo n lex lex') : lex.ImportsOwned → lex'.ImportsOwned := by
  induction h with
  | refl _ => exact id
  | trans _ _ ih₁ ih₂ => exact fun h => ih₂ (ih₁ h)
  | lateBound _ => exact id
  | registered lex head args declaring base _ _ _ =>
    intro h ns hns
    rw [(lex.register_entries _ head base).1]
    rcases (mem_imports_register lex _ head base).mp hns with hold | ⟨hclaims, hhead, -⟩
    · obtain ⟨e, he, hbare, hspace⟩ := h ns hold
      exact ⟨e, List.mem_append_left _ he, hbare, hspace⟩
    · -- the namespace is new, and the type that is registered is the first to claim its spelling
      exact ⟨_, List.mem_append_right _ (List.mem_singleton_self _), if_pos hclaims, hhead⟩

/-- **A namespace is imported exactly when a type of it is spelled as it is.** -/
theorem mem_imports_iff (howned : lex.ImportsOwned) (hsound : lex.Sound) {ns : String} (hne : ns ≠ "") :
    ns ∈ lex.namespaces ↔ ∃ e ∈ lex.entries, e.name = e.base ∧ e.ty.ns? = some ns := by
  rw [mem_namespaces]
  constructor
  · exact howned ns
  · rintro ⟨e, he, hbare, hspace⟩
    exact (hsound e he).imported hbare ns hspace hne

/-! ## Claims of one spelling -/

/-- A type whose spelling is claimed already gets a number. -/
theorem Entry.HasNumber.ne_base {e : Entry} {k : Nat} (h : e.HasNumber (k + 1)) (hk : 0 < k)
    (hbase : ∀ k : Nat, e.ty.runtimeName ++ toString k ≠ e.base) : e.name ≠ e.base := by
  generalize hnumber : k + 1 = number at h
  cases h with
  | first _ => omega
  | later _ hname =>
    rw [hname]
    exact hbase number

/-- Of the types that claim a spelling, one at most is spelled so. -/
theorem Listed.bare_unique (h : Listed es) (hbase : ∀ e ∈ es, ∀ k : Nat, e.ty.runtimeName ++ toString k ≠ e.base) :
    ∀ e ∈ es, ∀ f ∈ es, e.base = f.base → e.name = e.base → f.name = f.base → e = f := by
  induction h with
  | nil => exact nofun
  | @snoc es new _ _ hnumber ih =>
    have hnew := hbase new (List.mem_append_right _ (List.mem_singleton_self new))
    -- an older claim is counted, so the new type is numbered
    have hlate : ∀ e ∈ es, e.base = new.base → new.name ≠ new.base := by
      intro e he hsame
      have hclaimed : 0 < claims es new.base :=
        List.length_pos_of_mem (List.mem_filter.mpr ⟨he, by simpa using hsame⟩)
      exact hnumber.ne_base hclaimed hnew
    intro e he f hf hsame hebare hfbare
    rcases List.mem_append.mp he with he | he <;> rcases List.mem_append.mp hf with hf | hf
    · exact ih (fun e he => hbase e (List.mem_append_left _ he)) e he f hf hsame hebare hfbare
    · rw [List.mem_singleton.mp hf] at hsame hfbare
      exact absurd hfbare (hlate e he hsame)
    · rw [List.mem_singleton.mp he] at hsame hebare
      exact absurd hebare (hlate f hf hsame.symm)
    · rw [List.mem_singleton.mp he, List.mem_singleton.mp hf]

theorem bare_of_isTopLevel {ty : Ty} (h : ty.isTopLevel = true) (lex : Lexicon) : lex.bare ty = ty.runtimeName := by
  unfold Ty.isTopLevel at h
  split at h
  · next head =>
    have hdefinition : head.isDefinition = false := by simpa using h
    simp [bare, writtenOuter, brackets, hdefinition, writtenArguments, Ty.runtimeName]
  · cases h

/-! ## Readings of a bare name -/

/-- Two types of one simple name in different namespaces, of which the first goes by that name. -/
structure Rivals (e f : Entry) : Prop where
  topLevel : e.ty.isTopLevel = true ∧ f.ty.isTopLevel = true
  bare : e.name = e.ty.runtimeName
  simpleName : f.ty.runtimeName = e.ty.runtimeName
  namespaces : f.ty.ns? ≠ e.ty.ns?

instance (e f : Entry) : Decidable (Rivals e f) :=
  decidable_of_iff ((e.ty.isTopLevel = true ∧ f.ty.isTopLevel = true) ∧ e.name = e.ty.runtimeName ∧
      f.ty.runtimeName = e.ty.runtimeName ∧ f.ty.ns? ≠ e.ty.ns?)
    ⟨fun ⟨h₁, h₂, h₃, h₄⟩ => ⟨h₁, h₂, h₃, h₄⟩, fun ⟨h₁, h₂, h₃, h₄⟩ => ⟨h₁, h₂, h₃, h₄⟩⟩

/-- Bare names have one reading: no import makes the name of a type stand for a rival as well. -/
def Clear (lex : Lexicon) : Prop :=
  ∀ e ∈ lex.entries, ∀ f ∈ lex.entries, Rivals e f → ∀ ns ∈ f.ty.ns?, ns ≠ "" → ns ∉ lex.namespaces

instance (lex : Lexicon) : Decidable lex.Clear :=
  inferInstanceAs (Decidable (∀ e ∈ lex.entries, ∀ f ∈ lex.entries, Rivals e f → ∀ ns ∈ f.ty.ns?, ns ≠ "" →
    ns ∉ lex.namespaces))

theorem Sound.base_of_isTopLevel (h : lex.Sound) {e : Entry} (he : e ∈ lex.entries) (htop : e.ty.isTopLevel = true) :
    e.base = e.ty.runtimeName := by
  rw [(h e he).base, bare_of_isTopLevel htop]

/-- A simple name with a number is no spelling of the type as it is. -/
theorem Sound.numbered_ne_base (h : lex.Sound) :
    ∀ e ∈ lex.entries, ∀ k : Nat, e.ty.runtimeName ++ toString k ≠ e.base := by
  intro e he k
  have hname := (h e he).nameable
  rw [(h e he).base]
  cases hty : e.ty with
  | named head args declaring => exact bare_ne_numbered lex head args declaring k
  | _ =>
    rw [hty] at hname
    cases hname

theorem Rivals.numbered (hlisted : Listed lex.entries) (hsound : lex.Sound) {e f : Entry} (he : e ∈ lex.entries)
    (hf : f ∈ lex.entries) (h : Rivals e f) : f.name ≠ f.base := by
  intro hfbare
  have hebase := hsound.base_of_isTopLevel he h.topLevel.1
  have hfbase := hsound.base_of_isTopLevel hf h.topLevel.2
  have hsame : e.base = f.base := by rw [hebase, hfbase, h.simpleName]
  have hone := hlisted.bare_unique hsound.numbered_ne_base e he f hf hsame (h.bare.trans hebase.symm) hfbare
  exact h.namespaces (by rw [hone])

/-- **Bare names have one reading exactly when no type of a rival's namespace is spelled as it is.** The rival itself
never is. -/
theorem spellAll_clear_iff (tys : List Ty) :
    let lex := ((spellAll tys).run {}).2
    (lex.Clear ↔ ∀ e ∈ lex.entries, ∀ f ∈ lex.entries, Rivals e f → ∀ ns ∈ f.ty.ns?, ns ≠ "" →
      ∀ g ∈ lex.entries, g.ty.ns? = some ns → g.name ≠ g.base) ∧
    ∀ e ∈ lex.entries, ∀ f ∈ lex.entries, Rivals e f → f.name ≠ f.base := by
  intro lex
  have howned : lex.ImportsOwned := (spellAll_leadsTo tys {}).importsOwned nofun
  have hsound : lex.Sound := sound_spellAll tys {} nofun
  have hlisted : Listed lex.entries := listed_spellAll tys
  refine ⟨⟨?_, ?_⟩, fun e he f hf h => h.numbered hlisted hsound he hf⟩
  · intro hclear e he f hf hrivals ns hns hne g hg hspace hbare
    exact hclear e he f hf hrivals ns hns hne ((mem_imports_iff howned hsound hne).mpr ⟨g, hg, hbare, hspace⟩)
  · intro hnone e he f hf hrivals ns hns hne himported
    obtain ⟨g, hg, hbare, hspace⟩ := (mem_imports_iff howned hsound hne).mp himported
    exact hnone e he f hf hrivals ns hns hne g hg hspace hbare

/-- Types `A.Node`, `B.Node` and `B.Other`. The third imports the namespace `B`, and `Node` reads as either of the
first two. -/
theorem third_type_makes_name_ambiguous :
    let tys := [classIn "A" "Node" [], classIn "B" "Node" [], classIn "B" "Other" []]
    ((spellAll tys).run {}).1 = ["Node", "Node2", "Other"] ∧ ((spellAll tys).run {}).2.namespaces = ["A", "B"] ∧
      ¬ ((spellAll tys).run {}).2.Clear := by
  decide +kernel

end Lexicon

end Scribe
