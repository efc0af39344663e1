import Scribe.Proofs.Reading.Statement

/-!
# Methods

How the declaration of a method is read: modifiers, the type of the result, the name, parameters with their
types, and a body in braces.
-/

namespace Scribe.Reading

/-- A method as it is read. -/
structure Routine where
  result : String
  name : String
  /-- Each parameter with its type. -/
  params : List (String × String)
  body : List Stmt

/-- The words in front of the type. -/
def modifiers : List Token := [keyword "public", keyword "private", keyword "static"]

/-- Reads parameters up to the closing parenthesis. -/
def parameters : List Token → Option (List (String × String) × List Token)
  | .sign s :: us => if s = [')'] then some ([], us) else none
  | .word ty :: .word w :: .sign s :: us =>
    (identifier? w).bind fun x =>
      if s = [','] then (parameters us).map fun (ps, rest) => ((String.ofList ty, x) :: ps, rest)
      else if s = [')'] then some ([(String.ofList ty, x)], us)
      else none
  | _ => none

/-- The method that all of the tokens are. -/
def routine? (ts : List Token) : Option Routine :=
  match ts.dropWhile (modifiers.contains ·) with
  | .word ty :: .word w :: .sign ['('] :: us =>
    (identifier? w).bind fun name =>
      (parameters us).bind fun (params, vs) =>
        match statement (2 * vs.length) vs with
        | some (.block body, []) => some ⟨String.ofList ty, name, params, body⟩
        | _ => none
  | _ => none

/-! ## What is spelled is read -/

/-- The tokens of parameters, each given as the words of its type and its name. -/
def parameterTokens : List (List Char × List Char) → List Token
  | [] => []
  | [(ty, w)] => [.word ty, .word w]
  | (ty, w) :: ps => .word ty :: .word w :: .sign [','] :: parameterTokens ps

theorem parameters_read {ps : List (List Char × List Char)} {names : List String}
    (h : ps.map (identifier? ·.2) = names.map some) (us : List Token) :
    parameters (parameterTokens ps ++ .sign [')'] :: us) =
      some ((ps.map fun p => String.ofList p.1).zip names, us) := by
  induction ps generalizing names with
  | nil => simp [parameterTokens, parameters]
  | cons p ps ih =>
    obtain ⟨ty, w⟩ := p
    cases names with
    | nil => simp at h
    | cons x names =>
      obtain ⟨hw, hnames⟩ : identifier? w = some x ∧ ps.map (identifier? ·.2) = names.map some := by
        simpa using h
      cases ps with
      | nil =>
        have hempty : names = [] := by simpa using hnames.symm
        simp [parameterTokens, parameters, hw, hempty]
      | cons q ps => simp [parameterTokens, parameters, hw, ih hnames]

/-- **A method that is spelled is read.** -/
theorem routine?_read {mods : List Token} (hmods : ∀ t ∈ mods, t ∈ modifiers) {ty w : List Char} {name : String}
    (hty : .word ty ∉ modifiers) (hw : identifier? w = some name) {ps : List (List Char × List Char)}
    {names : List String} (hps : ps.map (identifier? ·.2) = names.map some) {us : List Token}
    {body : List Stmt} (hbody : SpellsAll us body) :
    routine? (mods ++ .word ty :: .word w :: .sign ['('] :: (parameterTokens ps ++ .sign [')'] ::
        .sign ['\x7b'] :: (us ++ [.sign ['\x7d']]))) =
      some ⟨String.ofList ty, name, (ps.map fun p => String.ofList p.1).zip names, body⟩ := by
  have hdrop (rest : List Token) :
      (mods ++ .word ty :: rest).dropWhile (modifiers.contains ·) = .word ty :: rest := by
    rw [List.dropWhile_append_of_pos fun t ht => List.contains_iff_mem.mpr (hmods t ht)]
    refine List.dropWhile_cons_of_neg ?_
    simpa using hty
  have hread := hbody.block.read [] (2 * (.sign ['\x7b'] :: (us ++ [.sign ['\x7d']])).length)
    (fun h => by cases h) (Nat.le_refl _)
  rw [List.append_nil] at hread
  unfold routine?
  rw [hdrop]
  simp only [hw, Option.bind_some, parameters_read hps, hread]

end Scribe.Reading
