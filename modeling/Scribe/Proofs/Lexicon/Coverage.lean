import Scribe.Proofs.Lexicon.Unambiguous

/-!
# What a lexicon covers

After a type has been spelled, every named type that its spelling shows has an entry, also those inside it. Two
kinds of types show nothing of what they are made of: those that are spelled `dynamic`, and, as for their
arguments, open definitions. That there is an entry is so although a type that has its name is not looked into
again, because an entry is added only when everything in its spelling has been spelled (`Lexicon.Sound`).

Once a type is known, spelling it again gives the same text and leaves the lexicon as it is, whatever has been
spelled in between. `Lexicon.written` is that text, read off the lexicon.

An entry is spelled as it is, and then its namespace is imported; or it is numbered, and then there is an alias
for it. The two cases are told apart by comparing the name with the spelling. That this is safe is a fact about
characters: a number adds digits, but whatever else is in a spelling adds a dot or a bracket.
-/

namespace Scribe

/-! ## Parts of a spelling -/

/-- The types whose spellings are right inside the spelling of a type. -/
def Ty.constituents : Ty → List Ty
  | .prim _ => []
  | .array element _ => [element]
  | .nullable inner => [inner]
  | .byRef inner => [inner]
  | .named head args declaring =>
    if (Ty.named head args declaring).isNameable then
      declaring.toList ++ if head.isDefinition then [] else args
    else []

/-- The spelling of the first type shows the name of the second. -/
inductive Ty.Shows : Ty → Ty → Prop where
  | self {ty : Ty} : ty.isNameable = true → Shows ty ty
  | inside {ty part named : Ty} : part ∈ ty.constituents → Shows part named → Shows ty named

namespace Lexicon

variable {lex lex' : Lexicon} {ty : Ty} {n : Nat}

/-- The spelling of a type, read off the lexicon. -/
def written (lex : Lexicon) : Ty → String
  | .prim p => p.keyword
  | .array element rank => lex.written element ++ "[" ++ commas (rank - 1) ++ "]"
  | .nullable inner => lex.written inner ++ "?"
  | .byRef inner => lex.written inner
  | .named head args declaring =>
    if (Ty.named head args declaring).isNameable then (lex.name? (.named head args declaring)).getD "" else "dynamic"

/-- The spelling of the enclosing type, and a dot. -/
def writtenOuter (lex : Lexicon) : Option Ty → String
  | none => ""
  | some outer => lex.written outer ++ "."

/-- The spelling of generic arguments. -/
def writtenArguments (lex : Lexicon) : List Ty → String
  | [] => ""
  | arg :: args => "<" ++ ", ".intercalate ((arg :: args).map lex.written) ++ ">"

/-- The brackets behind the name of a type. -/
def brackets (lex : Lexicon) (head : TypeHead) (args : List Ty) : String :=
  if head.isDefinition then Ty.openBrackets head args else lex.writtenArguments args

/-- The spelling of a named type as it is, without a number. -/
def bare (lex : Lexicon) : Ty → String
  | .named head args declaring => lex.writtenOuter declaring ++ head.simpleName ++ lex.brackets head args
  | ty => lex.written ty

/-- Whether the lexicon can spell the type as it is. -/
def Knows (lex : Lexicon) : Ty → Prop
  | .prim _ => True
  | .array element _ => lex.Knows element
  | .nullable inner => lex.Knows inner
  | .byRef inner => lex.Knows inner
  | .named head args declaring =>
    if (Ty.named head args declaring).isNameable then (lex.name? (.named head args declaring)).isSome = true
    else lex.usesDynamic = true

/-! ## Runs -/

section Runs

variable {head : TypeHead} {args : List Ty} {declaring : Option Ty}

theorem isNameable_eq : (Ty.named head args declaring).isNameable = !(!head.isPublic || head.isDynamic) := by
  simp [Ty.isNameable]

theorem run_spell_dynamic (hname : (Ty.named head args declaring).isNameable = false) (lex : Lexicon) :
    (spell (.named head args declaring)).run lex = ("dynamic", lex.markDynamic) := by
  rw [isNameable_eq, Bool.not_eq_false'] at hname
  rw [spell]
  simp only [hname, if_true]
  rfl

theorem run_spell_named (hname : (Ty.named head args declaring).isNameable = true) {name : String}
    (h : lex.name? (.named head args declaring) = some name) :
    (spell (.named head args declaring)).run lex = (name, lex) := by
  rw [isNameable_eq, Bool.not_eq_true'] at hname
  rw [spell]
  simp only [hname, Bool.false_eq_true, if_false, StateT.run_bind, StateT.run_get, pure_bind, h]
  rfl

/-- What is spelled inside a type before it gets its name. -/
def spellInside (head : TypeHead) (args : List Ty) (declaring : Option Ty) : StateM Lexicon String := do
  let outer ← spellOuter declaring
  let brackets ← if head.isDefinition then pure (Ty.openBrackets head args) else spellArguments args
  return outer ++ head.simpleName ++ brackets

theorem run_spell_new (hname : (Ty.named head args declaring).isNameable = true)
    (h : lex.name? (.named head args declaring) = none) :
    (spell (.named head args declaring)).run lex =
      ((spellInside head args declaring).run lex).2.register (.named head args declaring) head
        ((spellInside head args declaring).run lex).1 := by
  rw [isNameable_eq, Bool.not_eq_true'] at hname
  rw [spell, spellInside]
  simp only [hname, Bool.false_eq_true, if_false, StateT.run_bind, StateT.run_get, pure_bind, h]
  cases head.isDefinition <;> rfl

theorem spellInside_leadsTo (head : TypeHead) (args : List Ty) (declaring : Option Ty) (lex : Lexicon) :
    LeadsTo (sizeOf declaring + sizeOf args) lex ((spellInside head args declaring).run lex).2 := by
  have houter := (spellOuter_leadsTo declaring lex).mono (Nat.le_add_right _ (sizeOf args))
  have hargs := (spellArguments_leadsTo args ((spellOuter declaring).run lex).2).mono
    (Nat.le_add_left _ (sizeOf declaring))
  rw [spellInside]
  cases head.isDefinition with
  | true => exact houter
  | false => exact houter.trans hargs

/-- A type gets no name while its parts are spelled. -/
theorem name?_spellInside (h : lex.name? (.named head args declaring) = none) :
    ((spellInside head args declaring).run lex).2.name? (.named head args declaring) = none := by
  refine (spellInside_leadsTo head args declaring lex).name?_of_larger ?_ h
  simp only [Ty.named.sizeOf_spec]
  omega

end Runs

/-! ## Types that are known -/

/-- Spelling a type that is known adds nothing. -/
theorem spell_of_knows : ∀ (ty : Ty), lex.Knows ty → (spell ty).run lex = (lex.written ty, lex)
  | .prim _, _ => rfl
  | .array element rank, h => by
    have hrun := spell_of_knows element h
    rw [spell]
    show (((spell element).run lex).1 ++ "[" ++ commas (rank - 1) ++ "]", ((spell element).run lex).2) = _
    rw [hrun, written]
  | .nullable inner, h => by
    have hrun := spell_of_knows inner h
    rw [spell]
    show (((spell inner).run lex).1 ++ "?", ((spell inner).run lex).2) = _
    rw [hrun, written]
  | .byRef inner, h => spell_of_knows inner h
  | .named head args declaring, h => by
    unfold Knows at h
    split at h
    · next hname =>
      obtain ⟨name, hsome⟩ := Option.isSome_iff_exists.mp h
      rw [run_spell_named hname hsome, written, if_pos hname, hsome, Option.getD_some]
    · next hname =>
      rw [run_spell_dynamic (Bool.not_eq_true _ ▸ hname), written, if_neg hname, markDynamic, ← h]

theorem knows_spell (ty : Ty) (lex : Lexicon) :
    ((spell ty).run lex).2.Knows ty ∧ ((spell ty).run lex).1 = ((spell ty).run lex).2.written ty := by
  cases ty with
  | prim _ => exact ⟨trivial, rfl⟩
  | array element rank =>
    obtain ⟨hknows, hwritten⟩ := knows_spell element lex
    rw [spell]
    exact ⟨hknows, congrArg (· ++ "[" ++ commas (rank - 1) ++ "]") hwritten⟩
  | nullable inner =>
    obtain ⟨hknows, hwritten⟩ := knows_spell inner lex
    rw [spell]
    exact ⟨hknows, congrArg (· ++ "?") hwritten⟩
  | byRef inner => exact knows_spell inner lex
  | named head args declaring =>
    unfold Knows written
    by_cases hname : (Ty.named head args declaring).isNameable = true
    · have hsome := (spell_leadsTo (.named head args declaring) lex).2 hname
      rw [if_pos hname, if_pos hname, hsome]
      exact ⟨rfl, rfl⟩
    · rw [if_neg hname, if_neg hname, run_spell_dynamic (Bool.not_eq_true _ ▸ hname)]
      exact ⟨rfl, rfl⟩

/-! ## What later steps keep -/

theorem register_usesDynamic (lex : Lexicon) (ty : Ty) (head : TypeHead) (base : String) :
    (lex.register ty head base).2.usesDynamic = lex.usesDynamic := by
  unfold register importing
  dsimp only
  split
  · split
    · split <;> rfl
    · rfl
  · rfl

/-- The imports after a type has been registered. -/
theorem mem_imports_register {ns : String} (lex : Lexicon) (ty : Ty) (head : TypeHead) (base : String) :
    ns ∈ (lex.register ty head base).2.imports ↔
      ns ∈ lex.imports ∨ (claims lex.entries base = 0 ∧ head.ns = some ns ∧ ns ≠ "") := by
  unfold register importing claims
  dsimp only
  by_cases hzero : (lex.entries.filter (·.base == base)).length = 0
  · rw [if_pos hzero]
    cases hns : head.ns with
    | none => simp
    | some space =>
      by_cases hempty : space = ""
      · subst hempty
        simp
      · dsimp only
        rw [if_neg (by simpa using hempty)]
        constructor
        · intro h
          rcases Text.mem_insertSorted.mp h with rfl | h
          · exact Or.inr ⟨hzero, rfl, hempty⟩
          · exact Or.inl h
        · rintro (h | ⟨-, hsome, -⟩)
          · exact Text.mem_insertSorted.mpr (Or.inr h)
          · exact Text.mem_insertSorted.mpr (Or.inl (Option.some.inj hsome).symm)
  · rw [if_neg hzero]
    simp [hzero]

theorem LeadsTo.usesDynamic (h : LeadsTo n lex lex') : lex.usesDynamic = true → lex'.usesDynamic = true := by
  induction h with
  | refl _ => exact id
  | trans _ _ ih₁ ih₂ => exact fun h => ih₂ (ih₁ h)
  | lateBound _ => exact fun _ => rfl
  | registered lex head args declaring base _ _ _ =>
    rw [register_usesDynamic]
    exact id

theorem LeadsTo.imports (h : LeadsTo n lex lex') : lex.imports ⊆ lex'.imports := by
  induction h with
  | refl _ => exact List.Subset.refl _
  | trans _ _ ih₁ ih₂ => exact List.Subset.trans ih₁ ih₂
  | lateBound _ => exact List.Subset.refl _
  | registered lex head args declaring base _ _ _ =>
    exact fun ns hns => (mem_imports_register lex _ head base).mpr (Or.inl hns)

/-- What is known stays known, and is spelled as before. -/
theorem LeadsTo.knows (h : LeadsTo n lex lex') : ∀ (ty : Ty), lex.Knows ty →
    lex'.Knows ty ∧ lex'.written ty = lex.written ty
  | .prim _, _ => ⟨trivial, rfl⟩
  | .array element rank, hty => by
    obtain ⟨hknows, hwritten⟩ := h.knows element hty
    exact ⟨hknows, congrArg (· ++ "[" ++ commas (rank - 1) ++ "]") hwritten⟩
  | .nullable inner, hty => by
    obtain ⟨hknows, hwritten⟩ := h.knows inner hty
    exact ⟨hknows, congrArg (· ++ "?") hwritten⟩
  | .byRef inner, hty => h.knows inner hty
  | .named head args declaring, hty => by
    unfold Knows at hty ⊢
    unfold written
    split at hty
    · next hname =>
      obtain ⟨name, hsome⟩ := Option.isSome_iff_exists.mp hty
      rw [if_pos hname, if_pos hname, if_pos hname, hsome, h.name? hsome]
      exact ⟨rfl, rfl⟩
    · next hname =>
      rw [if_neg hname, if_neg hname, if_neg hname]
      exact ⟨h.usesDynamic hty, rfl⟩

/-- The spelling of a named type as it is does not change once its parts are known. -/
theorem LeadsTo.bare (h : LeadsTo n lex lex') {head : TypeHead} {args : List Ty} {declaring : Option Ty}
    (hname : (Ty.named head args declaring).isNameable = true)
    (hknows : ∀ part ∈ (Ty.named head args declaring).constituents, lex.Knows part) :
    lex'.bare (.named head args declaring) = lex.bare (.named head args declaring) := by
  rw [Ty.constituents, if_pos hname, List.forall_mem_append] at hknows
  have houter : lex'.writtenOuter declaring = lex.writtenOuter declaring := by
    cases declaring with
    | none => rfl
    | some outer => exact congrArg (· ++ ".") (h.knows outer (hknows.1 outer (by simp))).2
  rw [Lexicon.bare, Lexicon.bare, houter]
  unfold brackets
  split
  · rfl
  · next hdefinition =>
    rw [if_neg hdefinition] at hknows
    have hmap : args.map lex'.written = args.map lex.written :=
      List.map_congr_left fun arg harg => (h.knows arg (hknows.2 arg harg)).2
    cases args with
    | nil => rfl
    | cons arg args => rw [writtenArguments, hmap, writtenArguments]

/-! ## Numbers and brackets -/

theorem count_numbered {c : Char} (hc : c.isDigit = false) (s : String) (k : Nat) :
    (s ++ toString k).toList.count c = s.toList.count c := by
  have hnone : (toString k).toList.count c = 0 := by
    refine List.count_eq_zero.mpr fun h => ?_
    cases hc.symm.trans (Identifier.isDigit_of_mem_toString h)
  rw [String.toList_append, List.count_append, hnone, Nat.add_zero]

theorem writtenOuter_eq_empty {outer : Option Ty} (h : (lex.writtenOuter outer).toList.count '.' = 0) :
    lex.writtenOuter outer = "" := by
  cases outer with
  | none => rfl
  | some outer =>
    rw [writtenOuter, String.toList_append, List.count_append] at h
    have hdot : ".".toList.count '.' = 1 := rfl
    omega

theorem brackets_eq_empty {head : TypeHead} {args : List Ty} (h : (lex.brackets head args).toList.count '<' = 0) :
    lex.brackets head args = "" := by
  have hopen (s : String) : ("<" ++ s ++ ">").toList.count '<' ≠ 0 := by
    rw [String.append_assoc, String.toList_append, List.count_append]
    have hone : "<".toList.count '<' = 1 := rfl
    omega
  unfold brackets at h ⊢
  split at h
  · exact absurd h (hopen _)
  · next hdefinition =>
    rw [if_neg hdefinition]
    cases args with
    | nil => rfl
    | cons arg args => exact absurd h (hopen _)

/-- A numbered name is never the spelling of the type as it is. -/
theorem bare_ne_numbered (lex : Lexicon) (head : TypeHead) (args : List Ty) (declaring : Option Ty) (k : Nat) :
    head.simpleName ++ toString k ≠ lex.bare (.named head args declaring) := by
  intro h
  have hcount : ∀ c : Char, c.isDigit = false → head.simpleName.toList.count c =
      (lex.writtenOuter declaring).toList.count c + head.simpleName.toList.count c +
        (lex.brackets head args).toList.count c := by
    intro c hc
    calc head.simpleName.toList.count c
      _ = (lex.bare (.named head args declaring)).toList.count c := by rw [← h, count_numbered hc]
      _ = _ := by rw [bare, String.toList_append, String.toList_append, List.count_append, List.count_append]
  have houter : lex.writtenOuter declaring = "" := writtenOuter_eq_empty (by have := hcount '.' rfl; omega)
  have hbrackets : lex.brackets head args = "" := brackets_eq_empty (by have := hcount '<' rfl; omega)
  have hsimple : head.simpleName ++ toString k = head.simpleName := by
    rw [h, bare, houter, hbrackets, String.empty_append, String.append_empty]
  have hempty := congrArg String.toList (String.append_eq_left_iff.mp hsimple)
  simp [Nat.toDigits_ne_nil] at hempty

/-! ## Entries -/

/-- What an entry says is right: the parts of the type are known, it claims the spelling that the type has as it is,
and its namespace is imported unless it is numbered. -/
structure Entry.Fits (lex : Lexicon) (e : Entry) : Prop where
  nameable : e.ty.isNameable = true
  known : ∀ part ∈ e.ty.constituents, lex.Knows part
  base : e.base = lex.bare e.ty
  imported : e.name = e.base → ∀ ns, e.ty.ns? = some ns → ns ≠ "" → ns ∈ lex.imports

/-- All entries are right. -/
def Sound (lex : Lexicon) : Prop := ∀ e ∈ lex.entries, e.Fits lex

/-- What is right stays right. -/
theorem Entry.Fits.later {e : Entry} (h : e.Fits lex) (hstep : LeadsTo n lex lex') : e.Fits lex' where
  nameable := h.nameable
  known part hpart := (hstep.knows part (h.known part hpart)).1
  base := by
    obtain ⟨ty, base, name⟩ := e
    cases ty with
    | named head args declaring => exact h.base.trans (hstep.bare h.nameable h.known).symm
    | _ => cases h.nameable
  imported hname ns hns hne := hstep.imports (h.imported hname ns hns hne)

/-- The entry of a type is right when its parts are known. -/
theorem Sound.register (h : lex.Sound) {head : TypeHead} {args : List Ty} {declaring : Option Ty}
    (hname : (Ty.named head args declaring).isNameable = true) (hnone : lex.name? (.named head args declaring) = none)
    (hknown : ∀ part ∈ (Ty.named head args declaring).constituents, lex.Knows part) :
    (lex.register (.named head args declaring) head (lex.bare (.named head args declaring))).2.Sound := by
  have hstep := LeadsTo.registered lex head args declaring (lex.bare (.named head args declaring)) (Nat.le_refl _)
    hname hnone
  unfold Sound
  rw [(lex.register_entries _ head _).1, List.forall_mem_append, List.forall_mem_singleton]
  refine ⟨fun e he => (h e he).later hstep, hname, fun part hpart => (hstep.knows part (hknown part hpart)).1,
    (hstep.bare hname hknown).symm, fun hbare ns hns hne => ?_⟩
  refine (mem_imports_register lex _ head _).mpr (Or.inr ⟨?_, hns, hne⟩)
  -- a type that is not the first to claim its spelling is numbered
  by_contra hclaims
  exact bare_ne_numbered lex head args declaring _ ((if_neg hclaims).symm.trans hbare)

/-! ## Spelling -/

theorem knows_spellAll (tys : List Ty) (lex : Lexicon) :
    (∀ ty ∈ tys, ((spellAll tys).run lex).2.Knows ty) ∧
      ((spellAll tys).run lex).1 = tys.map ((spellAll tys).run lex).2.written := by
  induction tys generalizing lex with
  | nil => exact ⟨nofun, rfl⟩
  | cons ty tys ih =>
    obtain ⟨hknows, hwritten⟩ := knows_spell ty lex
    obtain ⟨hall, hnames⟩ := ih ((spell ty).run lex).2
    obtain ⟨hlater, hkept⟩ := (spellAll_leadsTo tys ((spell ty).run lex).2).knows ty hknows
    refine ⟨List.forall_mem_cons.mpr ⟨hlater, hall⟩, ?_⟩
    show ((spell ty).run lex).1 :: ((spellAll tys).run ((spell ty).run lex).2).1 = _
    rw [hwritten, ← hkept, hnames]
    rfl

theorem knows_spellArguments (args : List Ty) (lex : Lexicon) :
    (∀ arg ∈ args, ((spellArguments args).run lex).2.Knows arg) ∧
      ((spellArguments args).run lex).1 = ((spellArguments args).run lex).2.writtenArguments args := by
  cases args with
  | nil => exact ⟨nofun, rfl⟩
  | cons arg args =>
    obtain ⟨hknows, hnames⟩ := knows_spellAll (arg :: args) lex
    exact ⟨hknows, congrArg (fun names => "<" ++ ", ".intercalate names ++ ">") hnames⟩

theorem knows_spellOuter (outer : Option Ty) (lex : Lexicon) :
    (∀ part ∈ outer.toList, ((spellOuter outer).run lex).2.Knows part) ∧
      ((spellOuter outer).run lex).1 = ((spellOuter outer).run lex).2.writtenOuter outer := by
  cases outer with
  | none => exact ⟨nofun, rfl⟩
  | some outer =>
    obtain ⟨hknows, hwritten⟩ := knows_spell outer lex
    exact ⟨List.forall_mem_singleton.mpr hknows, congrArg (· ++ ".") hwritten⟩

/-- When a type gets its name, its parts are known, and they make up the spelling that it claims. -/
theorem knows_spellInside {head : TypeHead} {args : List Ty} {declaring : Option Ty}
    (hname : (Ty.named head args declaring).isNameable = true) (lex : Lexicon) :
    (∀ part ∈ (Ty.named head args declaring).constituents, ((spellInside head args declaring).run lex).2.Knows part) ∧
      ((spellInside head args declaring).run lex).1 =
        ((spellInside head args declaring).run lex).2.bare (.named head args declaring) := by
  obtain ⟨houter, houterName⟩ := knows_spellOuter declaring lex
  obtain ⟨hargs, hargsName⟩ := knows_spellArguments args ((spellOuter declaring).run lex).2
  rw [Ty.constituents, if_pos hname, spellInside, bare, brackets]
  cases head.isDefinition with
  | true =>
    simp only [if_true, List.append_nil]
    exact ⟨houter, congrArg (· ++ head.simpleName ++ Ty.openBrackets head args) houterName⟩
  | false =>
    have hstep := spellArguments_leadsTo args ((spellOuter declaring).run lex).2
    have hkept : ((spellArguments args).run ((spellOuter declaring).run lex).2).2.writtenOuter declaring =
        ((spellOuter declaring).run lex).2.writtenOuter declaring := by
      cases declaring with
      | none => rfl
      | some outer => exact congrArg (· ++ ".") (hstep.knows outer (houter outer (by simp))).2
    refine ⟨List.forall_mem_append.mpr ⟨fun part hpart => (hstep.knows part (houter part hpart)).1, hargs⟩, ?_⟩
    show ((spellOuter declaring).run lex).1 ++ head.simpleName ++
      ((spellArguments args).run ((spellOuter declaring).run lex).2).1 = _
    rw [houterName, hargsName, ← hkept]
    rfl

mutual

theorem sound_spell : ∀ (ty : Ty) (lex : Lexicon), lex.Sound → ((spell ty).run lex).2.Sound
  | .prim _, _, h => h
  | .array element _, lex, h => sound_spell element lex h
  | .nullable inner, lex, h => sound_spell inner lex h
  | .byRef inner, lex, h => sound_spell inner lex h
  | .named head args declaring, lex, h => by
    have houter := sound_spellOuter declaring lex h
    have hargs := sound_spellArguments args _ houter
    by_cases hname : (Ty.named head args declaring).isNameable = true
    · cases hfind : lex.name? (.named head args declaring) with
      | some name =>
        rw [run_spell_named hname hfind]
        exact h
      | none =>
        obtain ⟨hknows, hbase⟩ := knows_spellInside hname lex
        have hinside : ((spellInside head args declaring).run lex).2.Sound := by
          rw [spellInside]
          cases head.isDefinition with
          | true => exact houter
          | false => exact hargs
        rw [run_spell_new hname hfind, hbase]
        exact hinside.register hname (name?_spellInside hfind) hknows
    · rw [run_spell_dynamic (Bool.not_eq_true _ ▸ hname)]
      exact fun e he => (h e he).later (LeadsTo.lateBound (n := 0) lex)

theorem sound_spellOuter : ∀ (outer : Option Ty) (lex : Lexicon), lex.Sound → ((spellOuter outer).run lex).2.Sound
  | none, _, h => h
  | some outer, lex, h => sound_spell outer lex h

theorem sound_spellArguments : ∀ (args : List Ty) (lex : Lexicon), lex.Sound → ((spellArguments args).run lex).2.Sound
  | [], _, h => h
  | ty :: tys, lex, h => sound_spellAll tys _ (sound_spell ty lex h)

theorem sound_spellAll : ∀ (tys : List Ty) (lex : Lexicon), lex.Sound → ((spellAll tys).run lex).2.Sound
  | [], _, h => h
  | ty :: tys, lex, h => sound_spellAll tys _ (sound_spell ty lex h)

end

/-! ## What is covered -/

/-- What is known is known in all its parts. -/
theorem Sound.knows_part (h : lex.Sound) (hty : lex.Knows ty) {part : Ty} (hpart : part ∈ ty.constituents) :
    lex.Knows part := by
  cases ty with
  | prim p => cases hpart
  | array element rank | nullable inner | byRef inner =>
    rw [List.mem_singleton.mp hpart]
    exact hty
  | named head args declaring =>
    by_cases hname : (Ty.named head args declaring).isNameable = true
    · rw [Knows, if_pos hname] at hty
      obtain ⟨name, hsome⟩ := Option.isSome_iff_exists.mp hty
      obtain ⟨e, he, heq, -⟩ := exists_of_name? hsome
      rw [← heq] at hpart
      exact (h e he).known part hpart
    · rw [Ty.constituents, if_neg hname] at hpart
      cases hpart

/-- Every name that the spelling of a known type shows has an entry. -/
theorem Sound.exists_entry (h : lex.Sound) (hty : lex.Knows ty) {named : Ty} (hshows : ty.Shows named) :
    ∃ e ∈ lex.entries, e.ty = named := by
  induction hshows with
  | @self ty hname =>
    cases ty with
    | named head args declaring =>
      rw [Knows, if_pos hname] at hty
      obtain ⟨name, hsome⟩ := Option.isSome_iff_exists.mp hty
      obtain ⟨e, he, heq, -⟩ := exists_of_name? hsome
      exact ⟨e, he, heq⟩
    | _ => cases hname
  | inside hpart _ ih => exact ih (h.knows_part hty hpart)

theorem mem_namespaces {ns : String} : ns ∈ lex.namespaces ↔ ns ∈ lex.imports := by
  unfold namespaces
  rw [List.mem_append, List.mem_filter, List.mem_filter]
  cases isSystem ns <;> simp

theorem mem_assemblies {a : String} : a ∈ lex.assemblies ↔ ∃ e ∈ lex.entries, a ∈ assembliesOf e.ty := by
  unfold assemblies
  rw [Text.mem_sortedSet, List.mem_flatMap]

/-- A list is mapped unless one of its elements cannot be. -/
theorem mapM_eq_none {α β : Type} (f : α → Option β) (as : List α) : as.mapM f = none ↔ ∃ a ∈ as, f a = none := by
  induction as with
  | nil => simp
  | cons a as ih =>
    rw [List.mapM_cons]
    cases ha : f a with
    | none => simp [ha]
    | some b =>
      rw [Option.bind_eq_bind, Option.bind_some, List.exists_mem_cons_iff, ha, ← ih]
      cases as.mapM f <;> simp

theorem exists_of_mapM {α β : Type} {f : α → Option β} {as : List α} {bs : List β} (h : as.mapM f = some bs) :
    ∀ a ∈ as, ∃ b ∈ bs, f a = some b := by
  induction as generalizing bs with
  | nil => exact nofun
  | cons a as ih =>
    rw [List.mapM_cons] at h
    obtain ⟨b, hb, hrest⟩ := Option.bind_eq_some_iff.mp h
    obtain ⟨bs', hbs, hdone⟩ := Option.bind_eq_some_iff.mp hrest
    cases hdone
    rw [List.forall_mem_cons]
    refine ⟨⟨b, List.mem_cons_self, hb⟩, fun c hc => ?_⟩
    obtain ⟨d, hd, hcd⟩ := ih hbs c hc
    exact ⟨d, List.mem_cons_of_mem _ hd, hcd⟩

/-- The alias for an entry. -/
def Entry.alias? (e : Entry) : Option (String × String) := e.ty.fullName?.map fun full => (e.name, full)

theorem aliases?_eq (lex : Lexicon) :
    lex.aliases? =
      ((lex.entries.filter fun e => e.name != e.base).mapM Entry.alias?).map (Text.stableSort aliasBefore) :=
  bind_pure_comp _ _

/-- There is an alias for every name that is numbered, when there are aliases at all. -/
theorem mem_aliases {aliases : List (String × String)} (h : lex.aliases? = some aliases) {e : Entry}
    (he : e ∈ lex.entries) (hne : e.name ≠ e.base) : ∃ full, e.ty.fullName? = some full ∧ (e.name, full) ∈ aliases := by
  rw [aliases?_eq] at h
  obtain ⟨pairs, hpairs, rfl⟩ := Option.map_eq_some_iff.mp h
  obtain ⟨pair, hpair, halias⟩ := exists_of_mapM hpairs e (List.mem_filter.mpr ⟨he, by simpa using hne⟩)
  obtain ⟨full, hfull, rfl⟩ := Option.map_eq_some_iff.mp halias
  exact ⟨full, hfull, (Text.stableSort_perm aliasBefore pairs).mem_iff.mpr hpair⟩

theorem aliases?_eq_none : lex.aliases? = none ↔ ∃ e ∈ lex.entries, e.name ≠ e.base ∧ e.ty.fullName? = none := by
  rw [aliases?_eq, Option.map_eq_none_iff, mapM_eq_none]
  refine exists_congr fun e => ?_
  rw [List.mem_filter, bne_iff_ne, Entry.alias?, Option.map_eq_none_iff, and_assoc]

theorem mem_zip_map {α β : Type} {f : α → β} {as : List α} {p : α × β} (h : p ∈ as.zip (as.map f)) :
    p.1 ∈ as ∧ p.2 = f p.1 := by
  induction as with
  | nil => cases h
  | cons a as ih =>
    rw [List.map_cons, List.zip_cons_cons, List.mem_cons] at h
    rcases h with rfl | h
    · exact ⟨List.mem_cons_self, rfl⟩
    · obtain ⟨hmem, heq⟩ := ih h
      exact ⟨List.mem_cons_of_mem a hmem, heq⟩

/-- The lexicon covers types that were spelled with the given names. -/
structure Covers (tys : List Ty) (names : List String) (lex : Lexicon) : Prop where
  length : names.length = tys.length
  /-- Every name that a spelling shows has an entry. -/
  shown : ∀ ty ∈ tys, ∀ named, ty.Shows named → ∃ e ∈ lex.entries, e.ty = named
  /-- An entry has the spelling of its type as it is, and then the namespace is imported; or it is numbered, and then
  there is an alias for the full name. -/
  spelled : ∀ e ∈ lex.entries,
    (e.name = lex.bare e.ty ∧ ∀ ns, e.ty.ns? = some ns → ns ≠ "" → ns ∈ lex.namespaces) ∨
    (e.name ≠ lex.bare e.ty ∧ ∀ aliases, lex.aliases? = some aliases →
      ∃ full, e.ty.fullName? = some full ∧ (e.name, full) ∈ aliases)
  /-- There are aliases unless a numbered type has no full name. -/
  aliases : lex.aliases? = none ↔ ∃ e ∈ lex.entries, e.name ≠ lex.bare e.ty ∧ e.ty.fullName? = none
  assemblies : ∀ e ∈ lex.entries, ∀ a, e.ty.assembly? = some a → a ∈ lex.assemblies
  /-- At any later time the types have the same spellings, and spelling them changes nothing. -/
  again : ∀ p ∈ tys.zip names, ∀ later,
    (spell p.1).run ((spellAll later).run lex).2 = (p.2, ((spellAll later).run lex).2)

/-- **The lexicon covers what was spelled**, and never changes its mind. -/
theorem spellAll_covers (tys : List Ty) : Covers tys ((spellAll tys).run {}).1 ((spellAll tys).run {}).2 := by
  have hsound : ((spellAll tys).run {}).2.Sound := sound_spellAll tys {} nofun
  obtain ⟨hknows, hnames⟩ := knows_spellAll tys {}
  generalize (spellAll tys).run {} = r at *
  obtain ⟨names, lex⟩ := r
  dsimp only at *
  have hbase : ∀ e ∈ lex.entries, e.base = lex.bare e.ty := fun e he => (hsound e he).base
  refine ⟨by rw [hnames, List.length_map], fun ty hty named => hsound.exists_entry (hknows ty hty), fun e he => ?_, ?_,
    fun e he a ha => ?_, fun p hp later => ?_⟩
  · rw [← hbase e he]
    by_cases hname : e.name = e.base
    · refine Or.inl ⟨hname, fun ns hns hne => ?_⟩
      exact mem_namespaces.mpr ((hsound e he).imported hname ns hns hne)
    · exact Or.inr ⟨hname, fun aliases haliases => mem_aliases haliases he hname⟩
  · rw [aliases?_eq_none]
    exact exists_congr fun e => and_congr_right fun he => by rw [hbase e he]
  · refine mem_assemblies.mpr ⟨e, he, ?_⟩
    have hname := (hsound e he).nameable
    cases hty : e.ty with
    | named head args declaring =>
      rw [hty] at ha
      rw [assembliesOf, List.mem_append, List.mem_append, show head.assembly = some a from ha]
      exact Or.inl (Or.inl (List.mem_singleton_self a))
    | _ =>
      rw [hty] at hname
      cases hname
  · have hp' : p.1 ∈ tys ∧ p.2 = lex.written p.1 := by
      rw [hnames] at hp
      exact mem_zip_map hp
    obtain ⟨hlater, hkept⟩ := (spellAll_leadsTo later lex).knows p.1 (hknows p.1 hp'.1)
    rw [spell_of_knows p.1 hlater, hkept, hp'.2]

/-- Of two types of one name, made of an array without dimensions, the second is numbered, and there is no alias
for it. -/
theorem numbered_without_alias :
    let tys := [classIn "P" "List" [.array .int 0], classIn "Q" "List" [.array .int 0]]
    ((spellAll tys).run {}).1 = ["List<int[]>", "List2"] ∧ ((spellAll tys).run {}).2.aliases? = none := by
  decide +kernel

end Lexicon

end Scribe
