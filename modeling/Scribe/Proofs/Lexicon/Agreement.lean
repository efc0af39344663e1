import Scribe.Proofs.Lexicon.Coverage
import Scribe.Proofs.Lexicon.Ranked

/-!
# Short and full names

A type has two spellings: its full name, and the short one that depends on what has been spelled before. In a new lexicon
the short spelling of a type is its full name without namespaces, as long as no two named types in it are the same
without their namespaces.

What carries the argument is that a lexicon has *plain* entries only: types that occur in the type that is spelled, each
with its full name without namespaces. As these names tell the types apart, a type that has no entry finds its spelling
unclaimed.
-/

namespace Scribe

namespace Ty

mutual

/-- The type without namespaces. -/
def erased : Ty → Ty
  | .prim p => .prim p
  | .array element rank => .array element.erased rank
  | .nullable inner => .nullable inner.erased
  | .byRef inner => .byRef inner.erased
  | .named head args declaring => .named { head with ns := none } (erasedAll args) (erasedOuter declaring)

/-- Types without namespaces. -/
def erasedAll : List Ty → List Ty
  | [] => []
  | ty :: tys => ty.erased :: erasedAll tys

/-- An enclosing type without namespaces. -/
def erasedOuter : Option Ty → Option Ty
  | none => none
  | some outer => some outer.erased

end

mutual

/-- The named types that occur in a type. -/
def namedTypes : Ty → List Ty
  | .prim _ => []
  | .array element _ => element.namedTypes
  | .nullable inner => inner.namedTypes
  | .byRef inner => inner.namedTypes
  | .named head args declaring =>
    .named head args declaring :: (namedTypesOfOuter declaring ++ namedTypesOfAll args)

/-- The named types that occur in a list of types. -/
def namedTypesOfAll : List Ty → List Ty
  | [] => []
  | ty :: tys => ty.namedTypes ++ namedTypesOfAll tys

/-- The named types that occur in an enclosing type. -/
def namedTypesOfOuter : Option Ty → List Ty
  | none => []
  | some outer => outer.namedTypes

end

/-- Full names of generic arguments without namespaces, in their brackets. -/
def erasedArguments? : List Ty → Option String
  | [] => some ""
  | ty :: tys => (fullNames? (erasedAll (ty :: tys))).map fun names => "<" ++ ", ".intercalate names ++ ">"

theorem openBrackets_erased (head : TypeHead) (args : List Ty) :
    openBrackets { head with ns := none } (erasedAll args) = openBrackets head args := by
  have hlength (tys : List Ty) : (erasedAll tys).length = tys.length := by
    induction tys with
    | nil => rfl
    | cons ty tys ih => rw [erasedAll, List.length_cons, List.length_cons, ih]
  unfold openBrackets TypeHead.arity
  rw [hlength]
  cases args <;> rfl

/-- The full name of a named type without namespaces, from its parts. -/
theorem fullName?_erased {head : TypeHead} {args : List Ty} {declaring : Option Ty} {outer brackets : String}
    (houter : fullPath? none (erasedOuter declaring) = some outer)
    (hbrackets : (if head.isDefinition then some (openBrackets head args) else erasedArguments? args) = some brackets) :
    (Ty.named head args declaring).erased.fullName? = some (outer ++ head.simpleName ++ brackets) := by
  rw [erased, fullName?, houter, openBrackets_erased]
  cases hdefinition : head.isDefinition with
  | true =>
    rw [hdefinition, if_pos rfl] at hbrackets
    rw [← Option.some.inj hbrackets]
    rfl
  | false =>
    rw [hdefinition, if_neg Bool.false_ne_true] at hbrackets
    cases args with
    | nil =>
      rw [← Option.some.inj hbrackets, String.append_empty]
      rfl
    | cons arg args =>
      obtain ⟨names, hnames, rfl⟩ := Option.map_eq_some_iff.mp hbrackets
      show (fullNames? (erasedAll (arg :: args))).bind _ = _
      rw [hnames]
      simp only [Option.bind_some, String.append_assoc]
      rfl

end Ty

namespace Lexicon

/-- Every entry is one of the types `V`, with its full name without namespaces, and these names tell the types apart. -/
structure Plain (V : List Ty) (lex : Lexicon) : Prop where
  nameable : ∀ ty ∈ V, ty.isNameable = true
  apart : ∀ a ∈ V, ∀ b ∈ V, a ≠ b → a.erased.fullName? ≠ b.erased.fullName?
  entries : ∀ e ∈ lex.entries, e.ty ∈ V ∧ e.name = e.base ∧ e.ty.erased.fullName? = some e.base

variable {V : List Ty}

/-- A type that has no entry finds its spelling unclaimed. -/
theorem Plain.register {lex : Lexicon} (h : lex.Plain V) {ty : Ty} (hty : ty ∈ V) (hnone : lex.name? ty = none)
    (head : TypeHead) {base : String} (hbase : ty.erased.fullName? = some base) :
    (lex.register ty head base).2.Plain V ∧ (lex.register ty head base).1 = base := by
  obtain ⟨hentries, hname⟩ := lex.register_entries ty head base
  have hunclaimed : claims lex.entries base = 0 := by
    rw [claims, List.length_eq_zero_iff, List.filter_eq_nil_iff]
    intro e he hclaims
    obtain ⟨hmem, -, hfull⟩ := h.entries e he
    rw [beq_iff_eq.mp hclaims, ← hbase] at hfull
    exact h.apart e.ty hmem ty hty (name?_eq_none.mp hnone e he) hfull
  have hentry : (lex.entryFor ty head base).name = base := if_pos hunclaimed
  refine ⟨⟨h.nameable, h.apart, ?_⟩, hname.trans hentry⟩
  rw [hentries, List.forall_mem_append]
  refine ⟨h.entries, fun e he => ?_⟩
  rw [List.mem_singleton.mp he]
  exact ⟨hty, hentry, hbase⟩

mutual

/-- Spelling a type keeps all entries plain, and gives the full name without namespaces. -/
theorem Plain.spell : ∀ ty : Ty, ty.isRanked = true → ty.namedTypes ⊆ V → ∀ lex : Lexicon, lex.Plain V →
    ((spell ty).run lex).2.Plain V ∧ ty.erased.fullName? = some ((spell ty).run lex).1
  | .prim _, _, _, _, h => ⟨h, rfl⟩
  | .array _ 0, hranked, _, _, _ => by simp [Ty.isRanked] at hranked
  | .array element (count + 1), hranked, hV, lex, h => by
    simp only [Ty.isRanked, Bool.and_eq_true] at hranked
    obtain ⟨hplain, hname⟩ := Plain.spell element hranked.2 hV lex h
    refine ⟨hplain, ?_⟩
    rw [Ty.erased, Ty.fullName?, hname]
    rfl
  | .nullable inner, hranked, hV, lex, h => by
    obtain ⟨hplain, hname⟩ := Plain.spell inner hranked hV lex h
    refine ⟨hplain, ?_⟩
    rw [Ty.erased, Ty.fullName?, hname]
    rfl
  | .byRef inner, hranked, hV, lex, h => Plain.spell inner hranked hV lex h
  | .named head args declaring, hranked, hV, lex, h => by
    rw [Ty.namedTypes, List.cons_subset, List.append_subset] at hV
    simp only [Ty.isRanked, Bool.and_eq_true] at hranked
    -- a type that is known was entered with its full name; a new one is entered now
    cases hfind : lex.name? (.named head args declaring) with
    | some name =>
      obtain ⟨e, he, hty, hname⟩ := exists_of_name? hfind
      obtain ⟨-, hbase, hfull⟩ := h.entries e he
      rw [run_spell_named (h.nameable _ hV.1) hfind, ← hname, hbase, ← hty]
      exact ⟨h, hfull⟩
    | none =>
      obtain ⟨hplain, houter⟩ := Plain.spellOuter declaring hranked.2 hV.2.1 lex h
      have hinside : ((spellInside head args declaring).run lex).2.Plain V ∧
          (Ty.named head args declaring).erased.fullName? = some ((spellInside head args declaring).run lex).1 := by
        rw [spellInside]
        cases hdefinition : head.isDefinition with
        | true => exact ⟨hplain, Ty.fullName?_erased houter (if_pos hdefinition)⟩
        | false =>
          obtain ⟨hplain', hargs⟩ := Plain.spellArguments args hranked.1 hV.2.2 _ hplain
          exact ⟨hplain', Ty.fullName?_erased houter ((if_neg (by simp [hdefinition])).trans hargs)⟩
      rw [run_spell_new (h.nameable _ hV.1) hfind]
      obtain ⟨hregistered, hname⟩ := hinside.1.register hV.1 (name?_spellInside hfind) head hinside.2
      rw [hname]
      exact ⟨hregistered, hinside.2⟩

theorem Plain.spellOuter : ∀ outer : Option Ty, Ty.isRankedOuter outer = true → Ty.namedTypesOfOuter outer ⊆ V →
    ∀ lex : Lexicon, lex.Plain V → ((spellOuter outer).run lex).2.Plain V ∧
      Ty.fullPath? none (Ty.erasedOuter outer) = some ((spellOuter outer).run lex).1
  | none, _, _, _, h => ⟨h, rfl⟩
  | some outer, hranked, hV, lex, h => by
    obtain ⟨hplain, hname⟩ := Plain.spell outer hranked hV lex h
    refine ⟨hplain, ?_⟩
    rw [Ty.erasedOuter, Ty.fullPath?, hname]
    rfl

theorem Plain.spellArguments : ∀ args : List Ty, Ty.areRanked args = true → Ty.namedTypesOfAll args ⊆ V →
    ∀ lex : Lexicon, lex.Plain V → ((spellArguments args).run lex).2.Plain V ∧
      Ty.erasedArguments? args = some ((spellArguments args).run lex).1
  | [], _, _, _, h => ⟨h, rfl⟩
  | ty :: tys, hranked, hV, lex, h => by
    simp only [Ty.areRanked, Bool.and_eq_true] at hranked
    rw [Ty.namedTypesOfAll, List.append_subset] at hV
    obtain ⟨hplain, hname⟩ := Plain.spell ty hranked.1 hV.1 lex h
    obtain ⟨hplain', hnames⟩ := Plain.spellAll tys hranked.2 hV.2 _ hplain
    refine ⟨hplain', ?_⟩
    rw [Ty.erasedArguments?, Ty.erasedAll, Ty.fullNames?, hname, hnames]
    rfl

theorem Plain.spellAll : ∀ tys : List Ty, Ty.areRanked tys = true → Ty.namedTypesOfAll tys ⊆ V →
    ∀ lex : Lexicon, lex.Plain V → ((spellAll tys).run lex).2.Plain V ∧
      Ty.fullNames? (Ty.erasedAll tys) = some ((spellAll tys).run lex).1
  | [], _, _, _, h => ⟨h, rfl⟩
  | ty :: tys, hranked, hV, lex, h => by
    simp only [Ty.areRanked, Bool.and_eq_true] at hranked
    rw [Ty.namedTypesOfAll, List.append_subset] at hV
    obtain ⟨hplain, hname⟩ := Plain.spell ty hranked.1 hV.1 lex h
    obtain ⟨hplain', hnames⟩ := Plain.spellAll tys hranked.2 hV.2 _ hplain
    refine ⟨hplain', ?_⟩
    rw [Ty.erasedAll, Ty.fullNames?, hname, hnames]
    rfl

end

theorem Plain.aliases? {lex : Lexicon} (h : lex.Plain V) : lex.aliases? = some [] := by
  have hnone : (lex.entries.filter fun e => e.name != e.base) = [] := by
    rw [List.filter_eq_nil_iff]
    intro e he
    simp [(h.entries e he).2.1]
  rw [Lexicon.aliases?, hnone]
  rfl

end Lexicon

/-- **The two spellings agree.** In a type all named types are nameable, all arrays have dimensions, and different named
types have different full names without namespaces. Then a new lexicon spells it as its full name without namespaces, and
introduces no alias. -/
theorem Ty.spell_eq_fullName?_erased {ty : Ty} (hnameable : ∀ named ∈ ty.namedTypes, named.isNameable = true)
    (hranked : ty.isRanked = true)
    (hapart : ∀ a ∈ ty.namedTypes, ∀ b ∈ ty.namedTypes, a ≠ b → a.erased.fullName? ≠ b.erased.fullName?) :
    ty.erased.fullName? = some ((Lexicon.spell ty).run {}).1 ∧ ((Lexicon.spell ty).run {}).2.aliases? = some [] := by
  have hempty : Lexicon.Plain ty.namedTypes {} := ⟨hnameable, hapart, List.forall_mem_nil _⟩
  obtain ⟨hplain, hname⟩ := Lexicon.Plain.spell ty hranked (List.Subset.refl _) {} hempty
  exact ⟨hname, hplain.aliases?⟩

/-- A nested class of a generic class, used twice, with an array and an open definition among its arguments. -/
theorem Ty.spell_eq_fullName?_erased_nested :
    let node : Ty := .named { ns := some "A.B", name := "Node" } [] none
    let tree : Ty := .named { ns := some "A", name := "Tree\x601" } [.array (.nullable .int) 2] none
    let list : Ty := .named { ns := some "C", name := "List\x601", isDefinition := true } [] none
    let ty : Ty := .byRef (.array (.named { ns := some "A", name := "Leaf\x603" } [node, list, node] (some tree)) 1)
    let text := "Tree<int?[,]>.Leaf<Node, List<>, Node>[]"
    ty.erased.fullName? = some text ∧ ((Lexicon.spell ty).run {}).1 = text ∧
      ((Lexicon.spell ty).run {}).2.aliases? = some [] := by
  intro node tree list ty text
  have hfull : ty.erased.fullName? = some text := by decide +kernel
  have hagree := @Ty.spell_eq_fullName?_erased ty (by decide +kernel) (by decide +kernel) (by decide +kernel)
  exact ⟨hfull, Option.some.inj (hagree.1.symm.trans hfull), hagree.2⟩

end Scribe
