import Mathlib.Data.List.Nodup
import Scribe.Proofs.Lexicon.Spelling
import Scribe.Proofs.Text.Sorted
import Scribe.Proofs.Writing.Numbers

/-!
# When spellings tell types apart

The first type that claims a spelling has it, and every later one gets the number of its claim behind its
simple name. So types with the same claim are told apart by their numbers. Types with different claims are
not always: the name `Node2` is the second `Node`, and may also be a type of that name; and the second
`List<int>` and the second `List<long>` are both called `List2`, because the number counts claims of a
spelling and stands behind the simple name, without the arguments.

`Lexicon.NumbersFit` rules out these two cases. Then every name stands for one type.
-/

namespace Scribe

namespace Lexicon

open Identifier (digitsBehind)

variable {es : List Entry} {e f : Entry} {j k : Nat} {lex lex' : Lexicon} {n : Nat}

/-! ## Numbers of entries -/

/-- The entry has the name of the `k`-th type that claims its spelling. -/
inductive Entry.HasNumber (e : Entry) : Nat → Prop where
  | first : e.name = e.base → e.HasNumber 1
  | later {k : Nat} : 1 < k → e.name = e.ty.runtimeName ++ toString k → e.HasNumber k

theorem claims_append (es : List Entry) (e : Entry) (base : String) :
    claims (es ++ [e]) base = claims es base + if e.base = base then 1 else 0 := by
  unfold claims
  rw [List.filter_append, List.length_append]
  by_cases h : e.base = base <;> simp [h]

/-- The entries of a lexicon: every type once, with the number of its claim. -/
inductive Listed : List Entry → Prop where
  | nil : Listed []
  | snoc {es : List Entry} {e : Entry} : Listed es → (∀ f ∈ es, f.ty ≠ e.ty) →
      e.HasNumber (claims es e.base + 1) → Listed (es ++ [e])

/-- Entries have numbers, and no entry has a number that is larger than the number of claims. -/
theorem Listed.exists_number (h : Listed es) : ∀ e ∈ es, ∃ k ≤ claims es e.base, e.HasNumber k := by
  induction h with
  | nil => exact nofun
  | @snoc es e _ _ hnumber ih =>
    rw [List.forall_mem_append]
    refine ⟨fun f hf => ?_, fun f hf => ?_⟩
    · obtain ⟨k, hk, hfk⟩ := ih f hf
      refine ⟨k, Nat.le_trans hk ?_, hfk⟩
      rw [claims_append]
      exact Nat.le_add_right _ _
    · rw [List.mem_singleton.mp hf]
      exact ⟨_, Nat.le_of_eq (by rw [claims_append, if_pos rfl]), hnumber⟩

theorem Listed.types (h : Listed es) : es.Pairwise fun e f => e.ty ≠ f.ty := by
  induction h with
  | nil => exact .nil
  | @snoc es e _ hfresh _ ih =>
    refine List.pairwise_append.mpr ⟨ih, List.pairwise_singleton _ _, fun f hf g hg => ?_⟩
    rw [List.mem_singleton.mp hg]
    exact hfresh f hf

theorem LeadsTo.listed (h : LeadsTo n lex lex') : Listed lex.entries → Listed lex'.entries := by
  induction h with
  | refl _ => exact id
  | trans _ _ ih₁ ih₂ => exact fun h => ih₂ (ih₁ h)
  | lateBound _ => exact id
  | registered lex head args declaring base _ _ hnone =>
    intro h
    rw [(lex.register_entries _ head base).1]
    refine .snoc h (name?_eq_none.mp hnone) ?_
    by_cases hclaims : claims lex.entries base = 0
    · show Entry.HasNumber _ (claims lex.entries base + 1)
      rw [hclaims]
      exact .first (if_pos hclaims)
    · exact .later (Nat.succ_lt_succ (Nat.pos_of_ne_zero hclaims)) (if_neg hclaims)

/-! ## Numbers that fit -/

/-- Numbered names have one reading. The conditions are about spellings that several types have claimed, as
the others are not numbered. -/
structure NumbersFit (es : List Entry) : Prop where
  /-- No spelling is the simple name of a numbered type with digits behind it. -/
  bases : ∀ e ∈ es, ∀ f ∈ es, 1 < claims es e.base → digitsBehind e.ty.runtimeName f.base = false
  /-- No simple name of a numbered type is another one with digits behind it. -/
  names : ∀ e ∈ es, ∀ f ∈ es, 1 < claims es e.base → 1 < claims es f.base →
    digitsBehind e.ty.runtimeName f.ty.runtimeName = false
  /-- Numbered types of the same simple name have claimed the same spelling. -/
  families : ∀ e ∈ es, ∀ f ∈ es, 1 < claims es e.base → 1 < claims es f.base →
    e.ty.runtimeName = f.ty.runtimeName → e.base = f.base

instance (es : List Entry) : Decidable (NumbersFit es) :=
  decidable_of_iff (_ ∧ _ ∧ _) ⟨fun h => ⟨h.1, h.2.1, h.2.2⟩, fun h => ⟨h.bases, h.names, h.families⟩⟩

/-- What fits still fits without the last entry. -/
theorem NumbersFit.init (h : NumbersFit (es ++ [e])) : NumbersFit es := by
  have hmem : ∀ {f}, f ∈ es → f ∈ es ++ [e] := List.mem_append_left _
  have hclaims : ∀ {base}, 1 < claims es base → 1 < claims (es ++ [e]) base := by
    intro base hbase
    rw [claims_append]
    omega
  exact ⟨fun f hf g hg hf' => h.bases f (hmem hf) g (hmem hg) (hclaims hf'),
    fun f hf g hg hf' hg' => h.names f (hmem hf) g (hmem hg) (hclaims hf') (hclaims hg'),
    fun f hf g hg hf' hg' => h.families f (hmem hf) g (hmem hg) (hclaims hf') (hclaims hg')⟩

/-- A name tells the spelling that was claimed, and the number of the claim. -/
theorem NumbersFit.eq_of_name (h : NumbersFit es) (he : e ∈ es) (hf : f ∈ es) (hej : e.HasNumber j)
    (hfk : f.HasNumber k) (hj : j ≤ claims es e.base) (hk : k ≤ claims es f.base)
    (hname : e.name = f.name) : e.base = f.base ∧ j = k := by
  cases hej with
  | first hebase =>
    cases hfk with
    | first hfbase => exact ⟨by rw [← hebase, hname, hfbase], rfl⟩
    | later hk' hfname =>
      have hdigits := Identifier.digitsBehind_numbered f.ty.runtimeName k
      rw [← hfname, ← hname, hebase, h.bases f hf e he (Nat.lt_of_lt_of_le hk' hk)] at hdigits
      cases hdigits
  | later hj' hename =>
    cases hfk with
    | first hfbase =>
      have hdigits := Identifier.digitsBehind_numbered e.ty.runtimeName j
      rw [← hename, hname, hfbase, h.bases e he f hf (Nat.lt_of_lt_of_le hj' hj)] at hdigits
      cases hdigits
    | later hk' hfname =>
      have hshared : 1 < claims es e.base ∧ 1 < claims es f.base :=
        ⟨Nat.lt_of_lt_of_le hj' hj, Nat.lt_of_lt_of_le hk' hk⟩
      rcases Identifier.numbered_eq (hename.symm.trans (hname.trans hfname)) with
        ⟨hsimple, hjk⟩ | hdigits | hdigits
      · exact ⟨h.families e he f hf hshared.1 hshared.2 hsimple, hjk⟩
      · rw [h.names e he f hf hshared.1 hshared.2] at hdigits
        cases hdigits
      · rw [h.names f hf e he hshared.2 hshared.1] at hdigits
        cases hdigits

/-- Names tell the entries apart. -/
theorem Listed.names (h : Listed es) (hfit : NumbersFit es) : es.Pairwise fun e f => e.name ≠ f.name := by
  induction h with
  | nil => exact .nil
  | @snoc es e hlisted hfresh hnumber ih =>
    refine List.pairwise_append.mpr ⟨ih hfit.init, List.pairwise_singleton _ _, fun f hf g hg hname => ?_⟩
    rw [List.mem_singleton.mp hg] at hname
    -- the claims before the last one have smaller numbers
    obtain ⟨k, hk, hfk⟩ := hlisted.exists_number f hf
    have hkept : k ≤ claims (es ++ [e]) f.base := by
      rw [claims_append]
      exact Nat.le_trans hk (Nat.le_add_right _ _)
    have hlast : claims es e.base + 1 ≤ claims (es ++ [e]) e.base :=
      Nat.le_of_eq (by rw [claims_append, if_pos rfl])
    obtain ⟨hbase, hnumbers⟩ := hfit.eq_of_name (List.mem_append_left _ hf)
      (List.mem_append_right _ (List.mem_singleton_self e)) hfk hnumber hkept hlast hname
    rw [hbase, hnumbers] at hk
    omega

/-! ## Spellings -/

/-- The entries are listed after any types have been spelled. -/
theorem listed_spellAll (tys : List Ty) : Listed ((spellAll tys).run {}).2.entries :=
  (spellAll_leadsTo tys {}).listed .nil

/-- Every nameable type in a list has in the end the name by which it was spelled. -/
theorem name?_of_mem_zip (tys : List Ty) (lex : Lexicon) :
    ∀ p ∈ tys.zip ((spellAll tys).run lex).1, p.1.isNameable = true →
      ((spellAll tys).run lex).2.name? p.1 = some p.2 := by
  induction tys generalizing lex with
  | nil => exact nofun
  | cons ty tys ih =>
    -- the first type is spelled first, and keeps its name while the others are spelled
    show ∀ p ∈ (ty, ((spell ty).run lex).1) :: tys.zip ((spellAll tys).run ((spell ty).run lex).2).1, _
    rw [List.forall_mem_cons]
    refine ⟨fun hname => ?_, ih _⟩
    exact (spellAll_leadsTo tys _).name? ((spell_leadsTo ty lex).2 hname)

/-- The names in the aliases are the names of the entries that are not spelled as they claimed. -/
theorem aliases?_perm {aliases : List (String × String)} (h : lex.aliases? = some aliases) :
    (aliases.map Prod.fst).Perm ((lex.entries.filter fun e => e.name != e.base).map (·.name)) := by
  have hmap : ∀ (es : List Entry) (pairs : List (String × String)),
      (es.mapM fun e => e.ty.fullName?.map fun full => (e.name, full)) = some pairs →
        pairs.map Prod.fst = es.map (·.name) := by
    intro es
    induction es with
    | nil => rintro _ ⟨⟩; rfl
    | cons e es ih =>
      intro pairs hpairs
      rw [List.mapM_cons] at hpairs
      obtain ⟨p, hp, hrest⟩ := Option.bind_eq_some_iff.mp hpairs
      obtain ⟨ps, hps, hdone⟩ := Option.bind_eq_some_iff.mp hrest
      obtain ⟨full, -, rfl⟩ := Option.map_eq_some_iff.mp hp
      cases hdone
      rw [List.map_cons, List.map_cons, ih ps hps]
  obtain ⟨pairs, hpairs, hsorted⟩ := Option.bind_eq_some_iff.mp h
  cases hsorted
  rw [← hmap _ _ hpairs]
  exact (Text.stableSort_perm aliasBefore pairs).map Prod.fst

/-- Spellings tell types apart: those that were given to `tys`, and those that are in the lexicon. -/
structure Unambiguous (tys : List Ty) (names : List String) (lex : Lexicon) : Prop where
  /-- Nameable types with different full names were spelled differently. -/
  spellings : ∀ p ∈ tys.zip names, ∀ q ∈ tys.zip names, p.1.isNameable = true → q.1.isNameable = true →
    p.1.fullName? ≠ q.1.fullName? → p.2 ≠ q.2
  /-- A nameable type was spelled by its name. -/
  names : ∀ p ∈ tys.zip names, p.1.isNameable = true → lex.name? p.1 = some p.2
  /-- A name belongs to one type, of those that were spelled and of those they are made of. -/
  types : ∀ ty ty' s, lex.name? ty = some s → lex.name? ty' = some s → ty = ty'
  /-- An alias is introduced once, and it is not the name of a type without an alias. -/
  aliases : ∀ aliases, lex.aliases? = some aliases → (aliases.map Prod.fst).Nodup ∧
    ∀ a ∈ aliases, ∀ e ∈ lex.entries, e.name = e.base → e.name ≠ a.1

/-- **Spellings tell types apart**, when numbered names have one reading. -/
theorem spellAll_unambiguous (tys : List Ty) (hfit : NumbersFit ((spellAll tys).run {}).2.entries) :
    Unambiguous tys ((spellAll tys).run {}).1 ((spellAll tys).run {}).2 := by
  have hlisted := listed_spellAll tys
  have hspelled := name?_of_mem_zip tys {}
  generalize (spellAll tys).run {} = r at *
  obtain ⟨names, lex⟩ := r
  have hnodup : (lex.entries.map (·.name)).Nodup := List.pairwise_map.mpr (hlisted.names hfit)
  have htypes : ∀ ty ty' s, lex.name? ty = some s → lex.name? ty' = some s → ty = ty' := by
    intro ty ty' s h h'
    obtain ⟨e, he, rfl, hname⟩ := exists_of_name? h
    obtain ⟨f, hf, rfl, hname'⟩ := exists_of_name? h'
    rw [List.inj_on_of_nodup_map hnodup he hf (hname.trans hname'.symm)]
  refine ⟨fun p hp q hq hp' hq' hfull heq => ?_, hspelled, htypes, fun aliases haliases => ?_⟩
  · have hty := htypes p.1 q.1 p.2 (hspelled p hp hp') (heq ▸ hspelled q hq hq')
    exact hfull (congrArg Ty.fullName? hty)
  · have hperm := aliases?_perm haliases
    refine ⟨hperm.symm.nodup (hnodup.sublist (List.filter_sublist.map _)), fun a ha e he hbase heq => ?_⟩
    have hmem := hperm.subset (List.mem_map_of_mem ha)
    obtain ⟨f, hf, hname⟩ := List.mem_map.mp hmem
    obtain ⟨hf, hother⟩ := List.mem_filter.mp hf
    rw [← List.inj_on_of_nodup_map hnodup he hf (heq.trans hname.symm)] at hother
    simp [hbase] at hother

/-- A class in a namespace, with generic arguments. -/
def classIn (ns name : String) (args : List Ty) : Ty := .named { ns := some ns, name } args none

/-- Two types `Node`, two types `List` and a type whose name ends in a digit have five names. -/
theorem spellAll_unambiguous_nodes :
    let tys := [classIn "App.Model" "Node" [], classIn "App.Graph" "Node" [], classIn "App" "Vector2" [],
      classIn "P" "List" [.int], classIn "Q" "List" [.int]]
    ((spellAll tys).run {}).1 = ["Node", "Node2", "Vector2", "List<int>", "List2"] ∧
      Unambiguous tys ((spellAll tys).run {}).1 ((spellAll tys).run {}).2 := by
  intro tys
  exact ⟨by decide +kernel, spellAll_unambiguous tys (by decide +kernel)⟩

/-- Types with different full names may have the same spelling: the second `Node` and a type `Node2`, and the
second `List<int>` and the second `List<long>`. -/
theorem numbered_names_clash :
    let tys := [classIn "App.Model" "Node" [], classIn "App.Graph" "Node" [], classIn "App" "Node2" [],
      classIn "P" "List" [.int], classIn "Q" "List" [.int],
      classIn "P" "List" [.prim .long], classIn "Q" "List" [.prim .long]]
    (tys.all Ty.isNameable = true ∧ (tys.map Ty.fullName?).Nodup) ∧
      ((spellAll tys).run {}).1 =
        ["Node", "Node2", "Node2", "List<int>", "List2", "List<long>", "List2"] := by
  decide +kernel

end Lexicon

end Scribe
