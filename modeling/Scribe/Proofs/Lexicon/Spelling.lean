import Scribe.Lexicon

/-!
# What spelling a type does to the lexicon

`Lexicon.LeadsTo n` says what can happen to a lexicon: late binding is noted, and types of size at most `n`
that have no name yet get one. Spelling a type does nothing else, so names are never taken back, and a type
is never given two.

The size is there for one reason: a named type gets its name after the types it is made of have got theirs,
and it must not have been among those.
-/

namespace Scribe

/-- Whether scripts have a name for the type: it is a named type, it is public, and its members are known
before run time. -/
def Ty.isNameable : Ty → Bool
  | .named head _ _ => head.isPublic && !head.isDynamic
  | _ => false

namespace Lexicon

variable {lex lex' lex'' : Lexicon} {ty : Ty} {m n : Nat} {s : String}

/-! ## Entries -/

/-- How many types have claimed a spelling. -/
def claims (entries : List Entry) (base : String) : Nat :=
  (entries.filter (·.base == base)).length

/-- The entry that a type gets when it claims the spelling `base`. -/
def entryFor (lex : Lexicon) (ty : Ty) (head : TypeHead) (base : String) : Entry where
  ty := ty
  base := base
  name :=
    if claims lex.entries base = 0 then base
    else head.simpleName ++ toString (claims lex.entries base + 1)

theorem entries_importing (lex : Lexicon) (ns : Option String) : (lex.importing ns).entries = lex.entries := by
  cases ns with
  | none => rfl
  | some ns =>
    unfold importing
    dsimp only
    split <;> rfl

/-- Registering a type adds its entry, and gives the name in it. -/
theorem register_entries (lex : Lexicon) (ty : Ty) (head : TypeHead) (base : String) :
    (lex.register ty head base).2.entries = lex.entries ++ [lex.entryFor ty head base] ∧
      (lex.register ty head base).1 = (lex.entryFor ty head base).name := by
  unfold register entryFor claims
  dsimp only
  split
  · rw [entries_importing]
    exact ⟨rfl, rfl⟩
  · exact ⟨rfl, rfl⟩

theorem name?_of_append {es : List Entry} (h : lex'.entries = lex.entries ++ es) (ty : Ty) :
    lex'.name? ty = (lex.name? ty).or ((es.find? (·.ty == ty)).map (·.name)) := by
  unfold name?
  rw [h, List.find?_append]
  cases lex.entries.find? (·.ty == ty) <;> rfl

/-- A type without a name has no entry. -/
theorem name?_eq_none : lex.name? ty = none ↔ ∀ e ∈ lex.entries, e.ty ≠ ty := by
  unfold name?
  rw [Option.map_eq_none_iff, List.find?_eq_none]
  exact forall₂_congr fun e _ => by rw [beq_iff_eq]

/-- A name is the name in the entry of the type. -/
theorem exists_of_name? (h : lex.name? ty = some s) : ∃ e ∈ lex.entries, e.ty = ty ∧ e.name = s := by
  obtain ⟨e, he, rfl⟩ := Option.map_eq_some_iff.mp h
  exact ⟨e, List.mem_of_find?_eq_some he, by simpa using List.find?_some he, rfl⟩

/-! ## Steps -/

/-- The lexicon has got to `lex'` by steps that name types of size at most `n`. -/
inductive LeadsTo (n : Nat) : Lexicon → Lexicon → Prop where
  | refl (lex : Lexicon) : LeadsTo n lex lex
  | trans {lex lex' lex'' : Lexicon} : LeadsTo n lex lex' → LeadsTo n lex' lex'' → LeadsTo n lex lex''
  | lateBound (lex : Lexicon) : LeadsTo n lex lex.markDynamic
  | registered (lex : Lexicon) (head : TypeHead) (args : List Ty) (declaring : Option Ty) (base : String) :
      sizeOf (Ty.named head args declaring) ≤ n → (Ty.named head args declaring).isNameable = true →
      lex.name? (.named head args declaring) = none →
      LeadsTo n lex (lex.register (.named head args declaring) head base).2

theorem LeadsTo.mono (h : LeadsTo m lex lex') (hmn : m ≤ n) : LeadsTo n lex lex' := by
  induction h with
  | refl lex => exact .refl lex
  | trans _ _ ih₁ ih₂ => exact .trans ih₁ ih₂
  | lateBound lex => exact .lateBound lex
  | registered lex head args declaring base hsize hname hnone =>
    exact .registered lex head args declaring base (Nat.le_trans hsize hmn) hname hnone

/-- Steps only add entries, of types of size at most `n`. -/
theorem LeadsTo.entries (h : LeadsTo n lex lex') :
    ∃ es, lex'.entries = lex.entries ++ es ∧ ∀ e ∈ es, sizeOf e.ty ≤ n := by
  induction h with
  | refl lex => exact ⟨[], (List.append_nil _).symm, nofun⟩
  | trans _ _ ih₁ ih₂ =>
    obtain ⟨es₁, h₁, hs₁⟩ := ih₁
    obtain ⟨es₂, h₂, hs₂⟩ := ih₂
    refine ⟨es₁ ++ es₂, ?_, ?_⟩
    · rw [h₂, h₁, List.append_assoc]
    · exact List.forall_mem_append.mpr ⟨hs₁, hs₂⟩
  | lateBound lex => exact ⟨[], (List.append_nil _).symm, nofun⟩
  | registered lex head args declaring base hsize _ _ =>
    refine ⟨_, (lex.register_entries _ head base).1, fun e he => ?_⟩
    rw [List.mem_singleton.mp he]
    exact hsize

theorem LeadsTo.name? (h : LeadsTo n lex lex') (hs : lex.name? ty = some s) : lex'.name? ty = some s := by
  obtain ⟨es, hes, -⟩ := h.entries
  rw [name?_of_append hes, hs]
  rfl

/-- A type that is larger than `n` gets no name. -/
theorem LeadsTo.name?_of_larger (h : LeadsTo n lex lex') (hty : n < sizeOf ty) (hs : lex.name? ty = none) :
    lex'.name? ty = none := by
  obtain ⟨es, hes, hsize⟩ := h.entries
  rw [name?_eq_none] at hs ⊢
  rw [hes, List.forall_mem_append]
  refine ⟨hs, fun e he heq => ?_⟩
  have := hsize e he
  rw [heq] at this
  omega

/-- The type that is registered has the name it is given. -/
theorem name?_register (lex : Lexicon) (head : TypeHead) (base : String) (h : lex.name? ty = none) :
    (lex.register ty head base).2.name? ty = some (lex.register ty head base).1 := by
  obtain ⟨hentries, hname⟩ := lex.register_entries ty head base
  rw [name?_of_append hentries, h, hname]
  simp [entryFor]

/-! ## Spelling -/

/-- The last step of spelling a named type. -/
theorem register_leadsTo {head : TypeHead} {args : List Ty} {declaring : Option Ty}
    (hname : (Ty.named head args declaring).isNameable = true) (hnone : lex.name? (.named head args declaring) = none)
    (h : LeadsTo n lex lex') (hsize : n < sizeOf (Ty.named head args declaring)) (base : String) :
    LeadsTo (sizeOf (Ty.named head args declaring)) lex
        (lex'.register (.named head args declaring) head base).2 ∧
      (lex'.register (.named head args declaring) head base).2.name? (.named head args declaring) =
        some (lex'.register (.named head args declaring) head base).1 := by
  have hnone' := h.name?_of_larger hsize hnone
  refine ⟨.trans (h.mono (Nat.le_of_lt hsize)) ?_, name?_register lex' head base hnone'⟩
  exact .registered lex' head args declaring base (Nat.le_refl _) hname hnone'

mutual

/-- Spelling a type names types that are no larger, and a nameable type is spelled by its name. -/
theorem spell_leadsTo : ∀ (ty : Ty) (lex : Lexicon),
    LeadsTo (sizeOf ty) lex ((spell ty).run lex).2 ∧
      (ty.isNameable = true → ((spell ty).run lex).2.name? ty = some ((spell ty).run lex).1)
  | .prim p, lex => ⟨.refl lex, nofun⟩
  | .array element rank, lex =>
    ⟨(spell_leadsTo element lex).1.mono (by simp only [Ty.array.sizeOf_spec]; omega), nofun⟩
  | .nullable inner, lex =>
    ⟨(spell_leadsTo inner lex).1.mono (by simp only [Ty.nullable.sizeOf_spec]; omega), nofun⟩
  | .byRef inner, lex =>
    ⟨(spell_leadsTo inner lex).1.mono (by simp only [Ty.byRef.sizeOf_spec]; omega), nofun⟩
  | .named head args declaring, lex => by
    rw [spell]
    -- what has no name is bound late and leaves no entry
    by_cases hname : (Ty.named head args declaring).isNameable = true
    · have hdynamic : (!head.isPublic || head.isDynamic) = false := by
        simpa [Ty.isNameable] using hname
      simp only [hdynamic, Bool.false_eq_true, if_false, StateT.run_bind, StateT.run_get, pure_bind]
      cases hfind : lex.name? (.named head args declaring) with
      | some name => exact ⟨.refl lex, fun _ => hfind⟩
      | none =>
        have houter := spellOuter_leadsTo declaring lex
        have hargs := spellArguments_leadsTo args ((spellOuter declaring).run lex).2
        have hsize : sizeOf declaring + sizeOf args < sizeOf (Ty.named head args declaring) := by
          simp only [Ty.named.sizeOf_spec]
          omega
        have hboth := LeadsTo.trans (houter.mono (Nat.le_add_right _ (sizeOf args)))
          (hargs.mono (Nat.le_add_left _ (sizeOf declaring)))
        cases head.isDefinition with
        | true =>
          obtain ⟨h, h'⟩ := register_leadsTo hname hfind houter (by omega) _
          exact ⟨h, fun _ => h'⟩
        | false =>
          obtain ⟨h, h'⟩ := register_leadsTo hname hfind hboth hsize _
          exact ⟨h, fun _ => h'⟩
    · have hdynamic : (!head.isPublic || head.isDynamic) = true := by
        unfold Ty.isNameable at hname
        cases hpublic : head.isPublic <;> simp_all
      simp only [hdynamic, if_true]
      exact ⟨.lateBound lex, fun h => absurd h hname⟩

theorem spellOuter_leadsTo : ∀ (outer : Option Ty) (lex : Lexicon),
    LeadsTo (sizeOf outer) lex ((spellOuter outer).run lex).2
  | none, lex => .refl lex
  | some outer, lex =>
    (spell_leadsTo outer lex).1.mono (by simp only [Option.some.sizeOf_spec]; omega)

theorem spellArguments_leadsTo : ∀ (args : List Ty) (lex : Lexicon),
    LeadsTo (sizeOf args) lex ((spellArguments args).run lex).2
  | [], lex => .refl lex
  | ty :: tys, lex =>
    .trans ((spell_leadsTo ty lex).1.mono (by simp only [List.cons.sizeOf_spec]; omega))
      ((spellAll_leadsTo tys _).mono (by simp only [List.cons.sizeOf_spec]; omega))

theorem spellAll_leadsTo : ∀ (tys : List Ty) (lex : Lexicon),
    LeadsTo (sizeOf tys) lex ((spellAll tys).run lex).2
  | [], lex => .refl lex
  | ty :: tys, lex =>
    .trans ((spell_leadsTo ty lex).1.mono (by simp only [List.cons.sizeOf_spec]; omega))
      ((spellAll_leadsTo tys _).mono (by simp only [List.cons.sizeOf_spec]; omega))

end

end Lexicon

end Scribe
