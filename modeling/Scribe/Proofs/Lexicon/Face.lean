import Scribe.Proofs.Lexicon.Spelling

/-!
# What spelling does not look at

A lexicon notes whether something is bound late, and spelling types does not look at this note. The *face* of a lexicon
is what is left without it: lexicons with the same face spell alike, and have the same face afterwards.
-/

namespace Scribe

namespace Lexicon

/-- The lexicon without the note that something is bound late. -/
def face (lex : Lexicon) : Lexicon := { lex with usesDynamic := false }

variable {α β : Type}

/-- The computation does not look at whether something is bound late. -/
def FacesOnly (x : StateM Lexicon α) : Prop :=
  ∀ lex lex' : Lexicon, lex.face = lex'.face →
    (x.run lex).1 = (x.run lex').1 ∧ (x.run lex).2.face = (x.run lex').2.face

theorem FacesOnly.pure (a : α) : FacesOnly (Pure.pure a) := fun _ _ h => ⟨rfl, h⟩

theorem FacesOnly.bind {x : StateM Lexicon α} {f : α → StateM Lexicon β} (hx : FacesOnly x) (hf : ∀ a, FacesOnly (f a)) :
    FacesOnly (x >>= f) := by
  intro lex lex' h
  obtain ⟨hresult, hface⟩ := hx lex lex' h
  have hrest := hf (x.run lex).1 _ _ hface
  rw [hresult] at hrest
  show ((f (x.run lex).1).run (x.run lex).2).1 = ((f (x.run lex').1).run (x.run lex').2).1 ∧
    ((f (x.run lex).1).run (x.run lex).2).2.face = ((f (x.run lex').1).run (x.run lex').2).2.face
  rw [hresult]
  exact hrest

/-- The names that types have may be looked up. -/
theorem FacesOnly.name?_bind (ty : Ty) {f : Option String → StateM Lexicon β} (hf : ∀ name, FacesOnly (f name)) :
    FacesOnly (get >>= fun lex => f (lex.name? ty)) := by
  intro lex lex' h
  have hentries : lex.entries = lex'.entries := congrArg (·.entries) h
  have hname : lex.name? ty = lex'.name? ty := by
    unfold name?
    rw [hentries]
  show ((f (lex.name? ty)).run lex).1 = ((f (lex'.name? ty)).run lex').1 ∧
    ((f (lex.name? ty)).run lex).2.face = ((f (lex'.name? ty)).run lex').2.face
  rw [hname]
  exact hf _ lex lex' h

theorem FacesOnly.map {x : StateM Lexicon α} (hx : FacesOnly x) (f : α → β) : FacesOnly (x >>= fun a => Pure.pure (f a)) :=
  hx.bind fun a => .pure (f a)

theorem FacesOnly.mapM {γ : Type} {f : γ → StateM Lexicon α} (hf : ∀ c, FacesOnly (f c)) (cs : List γ) :
    FacesOnly (cs.mapM f) := by
  induction cs with
  | nil => exact .pure _
  | cons c cs ih =>
    rw [List.mapM_cons]
    exact (hf c).bind fun _ => ih.map _

theorem facesOnly_register (ty : Ty) (head : TypeHead) (base : String) :
    FacesOnly (modifyGet fun lex : Lexicon => lex.register ty head base) := by
  have hcommutes (lex : Lexicon) :
      lex.face.register ty head base = ((lex.register ty head base).1, (lex.register ty head base).2.face) := by
    have himport : lex.face.importing head.ns = (lex.importing head.ns).face := by
      unfold importing
      split
      · split <;> rfl
      · rfl
    by_cases hnew : (lex.entries.filter (·.base == base)).length = 0
    · have hnew' : (lex.face.entries.filter (·.base == base)).length = 0 := hnew
      simp only [register, if_pos hnew, if_pos hnew', himport]
      rfl
    · have hnew' : ¬ (lex.face.entries.filter (·.base == base)).length = 0 := hnew
      simp only [register, if_neg hnew, if_neg hnew']
      rfl
  intro lex lex' h
  have hresult := (hcommutes lex).symm.trans (h ▸ hcommutes lex')
  exact Prod.mk.inj hresult

mutual

theorem facesOnly_spell : ∀ ty : Ty, FacesOnly (spell ty)
  | .prim p => by
    rw [spell]
    exact .pure _
  | .array element rank => by
    rw [spell]
    exact (facesOnly_spell element).map _
  | .nullable inner => by
    rw [spell]
    exact (facesOnly_spell inner).map _
  | .byRef inner => by
    rw [spell]
    exact facesOnly_spell inner
  | .named head args declaring => by
    have hregister : FacesOnly (do
        let outer ← spellOuter declaring
        let brackets ← if head.isDefinition then pure (Ty.openBrackets head args) else spellArguments args
        modifyGet (·.register (.named head args declaring) head (outer ++ head.simpleName ++ brackets))) := by
      refine (facesOnly_spellOuter declaring).bind fun outer => ?_
      split
      · exact (FacesOnly.pure _).bind fun _ => facesOnly_register _ _ _
      · exact (facesOnly_spellArguments args).bind fun _ => facesOnly_register _ _ _
    rw [spell]
    split
    · intro lex lex' h
      exact ⟨rfl, h⟩
    · refine FacesOnly.name?_bind (f := fun
        | some name => pure name
        | none => _) (.named head args declaring) fun name => ?_
      cases name with
      | some name => exact .pure name
      | none => exact hregister

theorem facesOnly_spellOuter : ∀ outer : Option Ty, FacesOnly (spellOuter outer)
  | none => by
    rw [spellOuter]
    exact .pure _
  | some outer => by
    rw [spellOuter]
    exact (facesOnly_spell outer).map _

theorem facesOnly_spellArguments : ∀ tys : List Ty, FacesOnly (spellArguments tys)
  | [] => by
    rw [spellArguments]
    exact .pure _
  | ty :: tys => by
    rw [spellArguments]
    exact (facesOnly_spell ty).bind fun _ => (facesOnly_spellAll tys).map _

theorem facesOnly_spellAll : ∀ tys : List Ty, FacesOnly (spellAll tys)
  | [] => by
    rw [spellAll]
    exact .pure _
  | ty :: tys => by
    rw [spellAll]
    exact (facesOnly_spell ty).bind fun _ => (facesOnly_spellAll tys).map _

end

end Lexicon

end Scribe
