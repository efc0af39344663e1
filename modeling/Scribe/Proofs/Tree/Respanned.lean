import Mathlib.Data.List.Forall2
import Scribe.Tree.Typing

/-!
# Trees that differ in sequence points

`Tree.Respanned document pt` relates two trees that are the same except for the ranges of sequence points
of `document`: at each of those, the two ranges are related by `pt`.

The relation goes through a layer by way of a layer of pairs. Where a tree is compared with two others that come from
it, relations go through everything that holds trees by way of the same shape with all three (`Tripled`).
-/

namespace Scribe

variable {document : Option String} {pt : Span → Span → Prop}

/-- The same tree, except for the ranges of sequence points of `document`. -/
inductive Tree.Respanned (document : Option String) (pt : Span → Span → Prop) : Tree → Tree → Prop where
  | refl (t : Tree) : Respanned document pt t t
  | point {name : String} {s₁ s₂ : Span} : document = some name → pt s₁ s₂ →
      Respanned document pt (.mk (.sequencePoint name s₁)) (.mk (.sequencePoint name s₂))
  | layer (n : Node (Tree × Tree)) : (∀ p ∈ n.children, Respanned document pt p.1 p.2) →
      Respanned document pt (.mk (n.map Prod.fst)) (.mk (n.map Prod.snd))

/-! ## Trees in threes -/

/-- Three lists, related one by one. -/
inductive Forall₃ {α β γ : Type} (R : α → β → γ → Prop) : List α → List β → List γ → Prop where
  | nil : Forall₃ R [] [] []
  | cons {a : α} {b : β} {c : γ} {as : List α} {bs : List β} {cs : List γ} : R a b c → Forall₃ R as bs cs →
      Forall₃ R (a :: as) (b :: bs) (c :: cs)

theorem Forall₃.left {α β γ : Type} {R : α → β → Prop} {as : List α} {bs : List β} {cs : List γ}
    (h : Forall₃ (fun a b _ => R a b) as bs cs) : List.Forall₂ R as bs := by
  induction h with
  | nil => exact .nil
  | cons hab _ ih => exact .cons hab ih

/-- A tree and two others that come from it. -/
abbrev Trees := Tree × Tree × Tree

/-- Three values of the same shape, with related trees in corresponding places: `z` is the shape with all
three trees in these places. -/
def Tripled {α γ : Type} (R : Tree → Tree → Tree → Prop) (map : (Trees → Tree) → γ → α) (parts : γ → List Trees)
    (a b c : α) : Prop :=
  ∃ z, map (·.1) z = a ∧ map (·.2.1) z = b ∧ map (·.2.2) z = c ∧ ∀ p ∈ parts z, R p.1 p.2.1 p.2.2

/-- Lists of trees, related one by one. -/
abbrev TripledTrees (R : Tree → Tree → Tree → Prop) : List Tree → List Tree → List Tree → Prop :=
  Tripled R List.map id

/-- Optional trees: none, or three that are related. -/
abbrev TripledTree? (R : Tree → Tree → Tree → Prop) : Option Tree → Option Tree → Option Tree → Prop :=
  Tripled R Option.map Option.toList

section Tripled

variable {α β γ : Type} {R : Tree → Tree → Tree → Prop} {s t u : Tree} {ss ts us : List Tree}

/-- Lists that are related one by one, as one list. -/
theorem Tripled.of_forall₃ {map : (Trees → Tree) → γ → α} {parts : γ → List Trees} {f : β → α} {as : List β}
    {bs cs : List α} (h : Forall₃ (fun a => Tripled R map parts (f a)) as bs cs) :
    Tripled R (fun g => List.map (map g)) (List.flatMap parts) (as.map f) bs cs := by
  induction h with
  | nil => exact ⟨[], rfl, rfl, rfl, by simp⟩
  | cons ha _ ih =>
    obtain ⟨z, hz, rfl, rfl, hparts⟩ := ha
    obtain ⟨zs, hzs, rfl, rfl, hrest⟩ := ih
    refine ⟨z :: zs, congrArg₂ List.cons hz hzs, rfl, rfl, ?_⟩
    rw [List.flatMap_cons, List.forall_mem_append]
    exact ⟨hparts, hrest⟩

theorem TripledTrees.nil : TripledTrees R [] [] [] := ⟨[], rfl, rfl, rfl, by simp⟩

theorem TripledTrees.cons (h : R s t u) (hs : TripledTrees R ss ts us) :
    TripledTrees R (s :: ss) (t :: ts) (u :: us) := by
  obtain ⟨ps, rfl, rfl, rfl, hps⟩ := hs
  refine ⟨(s, t, u) :: ps, rfl, rfl, rfl, ?_⟩
  rw [id, List.forall_mem_cons]
  exact ⟨h, hps⟩

theorem TripledTrees.of_forall₃ {f : β → Tree} {as : List β} (h : Forall₃ (fun a => R (f a)) as ts us) :
    TripledTrees R (as.map f) ts us := by
  induction h with
  | nil => exact .nil
  | cons ha _ ih => exact .cons ha ih

theorem TripledTrees.append {ss' ts' us' : List Tree} (h : TripledTrees R ss ts us)
    (h' : TripledTrees R ss' ts' us') : TripledTrees R (ss ++ ss') (ts ++ ts') (us ++ us') := by
  obtain ⟨ps, rfl, rfl, rfl, hps⟩ := h
  obtain ⟨ps', rfl, rfl, rfl, hps'⟩ := h'
  refine ⟨ps ++ ps', List.map_append, List.map_append, List.map_append, ?_⟩
  rw [id, List.forall_mem_append]
  exact ⟨hps, hps'⟩

theorem TripledTree?.none : TripledTree? R none none none := ⟨.none, rfl, rfl, rfl, by simp⟩

theorem TripledTree?.some (h : R s t u) : TripledTree? R (some s) (some t) (some u) := by
  refine ⟨.some (s, t, u), rfl, rfl, rfl, ?_⟩
  simpa using h

end Tripled

variable {t u : Tree} {ts us : List Tree}

/-! ## Types -/

theorem Node.ty_map {α β : Type} (f : α → β) (n : Node α) : (n.map f).ty = n.ty := by
  cases n <;> rfl

theorem Tree.Respanned.ty (h : Tree.Respanned document pt t u) : t.ty = u.ty := by
  cases h with
  | refl | point => rfl
  | layer n _ => exact (n.ty_map _).trans (n.ty_map _).symm

theorem Tree.Respanned.mkBlock (vars : List Variable) (ty : Ty) (h : List.Forall₂ (Tree.Respanned document pt) ts us) :
    Tree.Respanned document pt (.mk (.block vars ts ty)) (.mk (.block vars us ty)) := by
  obtain ⟨ps, rfl, rfl, hps⟩ : ∃ ps : List (Tree × Tree), ps.map Prod.fst = ts ∧ ps.map Prod.snd = us ∧
      ∀ p ∈ ps, Tree.Respanned document pt p.1 p.2 := by
    have hlength := h.length_eq
    refine ⟨ts.zip us, List.map_fst_zip (Nat.le_of_eq hlength), List.map_snd_zip (Nat.le_of_eq hlength.symm),
      fun p hp => ?_⟩
    exact (List.forall₂_iff_zip.mp h).2 hp
  exact .layer (.block vars ps ty) hps

/-- Blocks of related statements without variables. -/
theorem Tree.Respanned.block (h : List.Forall₂ (Tree.Respanned document pt) ts us) :
    Tree.Respanned document pt (.block [] ts) (.block [] us) := by
  have htypes : ts.map Tree.ty = us.map Tree.ty := by
    rw [← List.forall₂_eq_eq_eq, List.forall₂_map_left_iff, List.forall₂_map_right_iff]
    exact h.imp fun _ _ hty => hty.ty
  unfold Tree.block
  rw [← List.getLast?_map, ← List.getLast?_map, htypes]
  exact .mkBlock [] _ h

end Scribe
