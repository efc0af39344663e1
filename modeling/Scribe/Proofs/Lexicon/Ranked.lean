import Scribe.Proofs.Lexicon.Spelling
import Scribe.Ty.WellKnown

/-!
# Types with full names

The full name of an array lists its dimensions, so an array without any has no full name, and neither has a
type that is built from one. All other types have a full name. A lexicon in which every type has one can
write its aliases, and spelling keeps it that way: the types that get an entry are parts of the type that is
spelled.
-/

namespace Scribe

namespace Ty

mutual

/-- Whether every array in the type has a dimension. -/
def isRanked : Ty → Bool
  | .prim _ => true
  | .array element rank => rank != 0 && element.isRanked
  | .nullable inner => inner.isRanked
  | .byRef inner => inner.isRanked
  | .named _ args declaring => areRanked args && isRankedOuter declaring

/-- Whether every array in the types has a dimension. -/
def areRanked : List Ty → Bool
  | [] => true
  | ty :: tys => ty.isRanked && areRanked tys

/-- Whether every array in a type that may be absent has a dimension. -/
def isRankedOuter : Option Ty → Bool
  | none => true
  | some outer => outer.isRanked

end

theorem areRanked_iff {tys : List Ty} : areRanked tys = true ↔ ∀ ty ∈ tys, ty.isRanked = true := by
  induction tys with
  | nil => simp [areRanked]
  | cons ty tys ih => simp [areRanked, ih]

mutual

theorem fullName?_isSome : ∀ ty : Ty, ty.isRanked = true → ty.fullName?.isSome = true
  | .prim _, _ => rfl
  | .array _ 0, h => by simp [isRanked] at h
  | .array element (rank + 1), h => by
    obtain ⟨name, hname⟩ := Option.isSome_iff_exists.mp
      (fullName?_isSome element (by simpa [isRanked] using h))
    simp [fullName?, hname]
  | .nullable inner, h => by
    obtain ⟨name, hname⟩ := Option.isSome_iff_exists.mp (fullName?_isSome inner h)
    simp [fullName?, hname]
  | .byRef inner, h => fullName?_isSome inner h
  | .named head args declaring, h => by
    simp only [isRanked, Bool.and_eq_true] at h
    obtain ⟨outer, houter⟩ := Option.isSome_iff_exists.mp (fullPath?_isSome head.ns declaring h.2)
    obtain ⟨names, hnames⟩ := Option.isSome_iff_exists.mp (fullNames?_isSome args h.1)
    simp only [fullName?, houter, hnames, Option.bind_eq_bind, Option.bind_some]
    split
    · rfl
    · split <;> rfl

theorem fullNames?_isSome : ∀ tys : List Ty, areRanked tys = true → (fullNames? tys).isSome = true
  | [], _ => rfl
  | ty :: tys, h => by
    simp only [areRanked, Bool.and_eq_true] at h
    obtain ⟨name, hname⟩ := Option.isSome_iff_exists.mp (fullName?_isSome ty h.1)
    obtain ⟨names, hnames⟩ := Option.isSome_iff_exists.mp (fullNames?_isSome tys h.2)
    simp [fullNames?, hname, hnames]

theorem fullPath?_isSome (ns : Option String) :
    ∀ outer : Option Ty, isRankedOuter outer = true → (fullPath? ns outer).isSome = true
  | none, _ => by cases ns <;> rfl
  | some outer, h => by
    obtain ⟨name, hname⟩ := Option.isSome_iff_exists.mp (fullName?_isSome outer h)
    simp [fullPath?, hname]

end

/-- A delegate type has a full name when the types of its parameters and of its result have. -/
theorem isRanked_delegate {params : List Ty} {result : Ty} (hp : ∀ ty ∈ params, ty.isRanked = true)
    (hr : result.isRanked = true) : (delegate params result).isRanked = true := by
  have hparams := areRanked_iff.mpr hp
  have hall : areRanked (params ++ [result]) = true :=
    areRanked_iff.mpr (List.forall_mem_append.mpr ⟨hp, by simpa using hr⟩)
  unfold delegate action func coreDelegate
  split
  · split <;> simp [isRanked, areRanked, isRankedOuter, hparams]
  · simp [isRanked, isRankedOuter, hall]

end Ty

namespace Lexicon

variable {lex : Lexicon}

/-- Every type in the lexicon has a full name. -/
def Ranked (lex : Lexicon) : Prop := ∀ e ∈ lex.entries, e.ty.isRanked = true

theorem ranked_register (h : lex.Ranked) {ty : Ty} (hty : ty.isRanked = true) (head : TypeHead)
    (base : String) : (lex.register ty head base).2.Ranked := by
  unfold Ranked
  rw [(lex.register_entries ty head base).1, List.forall_mem_append]
  refine ⟨h, fun e he => ?_⟩
  rw [List.mem_singleton.mp he]
  exact hty

mutual

/-- Spelling a type with a full name adds types with full names only. -/
theorem ranked_spell : ∀ (ty : Ty), ty.isRanked = true → ∀ lex : Lexicon, lex.Ranked →
    ((spell ty).run lex).2.Ranked
  | .prim _, _, _, h => h
  | .array element _, hty, lex, h =>
    ranked_spell element (by simp only [Ty.isRanked, Bool.and_eq_true] at hty; exact hty.2) lex h
  | .nullable inner, hty, lex, h => ranked_spell inner hty lex h
  | .byRef inner, hty, lex, h => ranked_spell inner hty lex h
  | .named head args declaring, hty, lex, h => by
    have hparts := hty
    simp only [Ty.isRanked, Bool.and_eq_true] at hparts
    rw [spell]
    cases hdynamic : !head.isPublic || head.isDynamic with
    | true =>
      simp only [if_true]
      exact h
    | false =>
      simp only [Bool.false_eq_true, if_false, StateT.run_bind, StateT.run_get, pure_bind]
      have houter := ranked_spellOuter declaring hparts.2 lex h
      have hargs := ranked_spellArguments args hparts.1 _ houter
      cases lex.name? (.named head args declaring) with
      | some name => exact h
      | none =>
        cases head.isDefinition with
        | true => exact ranked_register houter hty head _
        | false => exact ranked_register hargs hty head _

theorem ranked_spellOuter : ∀ (outer : Option Ty), Ty.isRankedOuter outer = true →
    ∀ lex : Lexicon, lex.Ranked → ((spellOuter outer).run lex).2.Ranked
  | none, _, _, h => h
  | some outer, houter, lex, h => ranked_spell outer houter lex h

theorem ranked_spellArguments : ∀ (args : List Ty), Ty.areRanked args = true →
    ∀ lex : Lexicon, lex.Ranked → ((spellArguments args).run lex).2.Ranked
  | [], _, _, h => h
  | ty :: tys, hargs, lex, h => by
    simp only [Ty.areRanked, Bool.and_eq_true] at hargs
    exact ranked_spellAll tys hargs.2 _ (ranked_spell ty hargs.1 lex h)

theorem ranked_spellAll : ∀ (tys : List Ty), Ty.areRanked tys = true →
    ∀ lex : Lexicon, lex.Ranked → ((spellAll tys).run lex).2.Ranked
  | [], _, _, h => h
  | ty :: tys, htys, lex, h => by
    simp only [Ty.areRanked, Bool.and_eq_true] at htys
    exact ranked_spellAll tys htys.2 _ (ranked_spell ty htys.1 lex h)

end

/-- Spelling things of types with full names, one after the other, adds types with full names only. -/
theorem ranked_mapM_spell {α : Type} (ty : α → Ty) {as : List α} (has : ∀ a ∈ as, (ty a).isRanked = true)
    (h : lex.Ranked) : ((as.mapM fun a => spell (ty a)).run lex).2.Ranked := by
  induction as generalizing lex with
  | nil => exact h
  | cons a as ih =>
    rw [List.forall_mem_cons] at has
    rw [List.mapM_cons]
    exact ih has.2 (ranked_spell (ty a) has.1 lex h)

/-- **Where every type has a full name, the aliases can be written.** -/
theorem aliases?_isSome (h : lex.Ranked) : lex.aliases?.isSome = true := by
  have hall : ∀ es : List Entry, (∀ e ∈ es, e.ty.isRanked = true) →
      (es.mapM fun e : Entry => e.ty.fullName?.map fun full => (e.name, full)).isSome = true := by
    intro es hes
    induction es with
    | nil => rfl
    | cons e es ih =>
      rw [List.forall_mem_cons] at hes
      obtain ⟨full, hfull⟩ := Option.isSome_iff_exists.mp (e.ty.fullName?_isSome hes.1)
      obtain ⟨rest, hrest⟩ := Option.isSome_iff_exists.mp (ih hes.2)
      simp [List.mapM_cons, hfull, hrest]
  obtain ⟨aliases, haliases⟩ := Option.isSome_iff_exists.mp
    (hall (lex.entries.filter fun e => e.name != e.base) fun e he => h e (List.mem_filter.mp he).1)
  simp [aliases?, haliases]

end Lexicon

end Scribe
