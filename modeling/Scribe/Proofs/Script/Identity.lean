import Scribe.Proofs.Script.Layout
import Scribe.Proofs.Tree.Keys
import Scribe.Proofs.Writing.Follow.Tree

/-!
# Identities do not matter

Entities are known by identity while a script is written: names, fields, moved lambdas, jumps. None of this shows.
When the identities in a tree are exchanged for others, and different ones stay different, the script is the same,
down to its last marker; the tree it gives back and the values of its fields are those of the first script with the
identities exchanged.
-/

namespace Scribe

open Writing

variable {ρ σ : Renaming} {w : Wrapper}

/-- The script with other identities in its tree and in the values of its fields. -/
def Script.rename (ρ : Renaming) (s : Script) : Script :=
  { s with tree := s.tree.rename ρ, fields := s.fields.map (·.rename ρ) }

/-! ## Two runs -/

/-- A tree is compared with the renamed tree, and nothing is noted. -/
def Comparison.renamed (desk : Desk) (h : ρ.Injective) : Comparison where
  desk
  keys := ρ
  injective := h
  watches := False
  unmarked := False.elim
  holds _ := False
  shows _ := False

/-- A tree and the renamed tree. -/
def Tree.renamed (ρ : Renaming) (t : Tree) : Couple where
  tree := t
  first := t.rendition
  second := (t.rename ρ).rendition
  must := False
  most := 0

theorem Tree.renamed_sound (desk : Desk) (h : ρ.Injective) (t : Tree) : (t.renamed ρ).Sound (.renamed desk h) := by
  induction t using Tree.induction with
  | step n ih =>
    have hover : ((Tree.mk n).renamed ρ).Over (.renamed desk h) (n.map (renamed ρ)) := by
      refine ⟨?_, ?_, ?_, False.elim, ?_, fun _ hw => hw.elim⟩
      · rw [Node.map_map]
        exact congrArg Tree.mk n.map_id.symm
      · rw [Node.map_map]
        exact congrArg Prod.snd (Tree.piece_mk n)
      · have hpieces : ((n.map (renamed ρ)).map (Couple.right ρ)).relabel ρ =
            ((n.map (Tree.rename ρ)).relabel ρ).map piece := by
          rw [Node.map_map, Node.map_relabel, Node.map_map]
          rfl
        change ((Tree.mk n).rename ρ).rendition = _
        rw [rename_mk]
        exact (congrArg Prod.snd (Tree.piece_mk _)).trans (congrArg Node.rendition hpieces.symm)
      · rw [Node.writings_map, List.map_map]
        simp [renamed, Function.comp_def, List.map_const']
    refine hover.sound fun q hq => ?_
    rw [Node.children_map] at hq
    obtain ⟨t, ht, rfl⟩ := List.mem_map.mp hq
    exact ih t ht

theorem Tree.writeRoot_renamed (desk : Desk) (h : ρ.Injective) (t : Tree) : ∃ p : Couple,
    Follows (.renamed desk h) [p] [p] (Tree.rename ρ) t.writeRoot (t.rename ρ).writeRoot := by
  have hinline : Follows (.renamed desk h) [t.renamed ρ] [t.renamed ρ] (Tree.rename ρ) t.piece.inline
      (t.rename ρ).piece.inline := (t.renamed_sound desk h).write .discard
  have hentry : ∀ (sig : Signature) (body : Tree), Follows (.renamed desk h) [body.renamed ρ] [body.renamed ρ]
      (Tree.rename ρ) (entryMethod sig body.piece) (entryMethod (sig.rename ρ) (body.rename ρ).piece) :=
    fun sig body => entryMethod_follows sig (body.renamed_sound desk h)
  unfold writeRoot
  rw [node_rename]
  cases t.node
  case lambda sig body => exact ⟨_, hentry sig body⟩
  all_goals exact ⟨_, hinline⟩

/-! ## Scripts -/

/-- The draft of the renamed tree is the renamed draft. -/
theorem Tree.draft_rename (h : ρ.Injective) (t : Tree) (desk : Desk) :
    (t.rename ρ).draft desk = (t.draft desk).map (Prod.map (Tree.rename ρ) (Draft.rename ρ)) := by
  obtain ⟨p, hfollows⟩ := t.writeRoot_renamed desk h
  have hrun := hfollows { page := desk.firstPage } [] ⟨fun _ => rfl, False.elim⟩
  unfold FollowsFrom at hrun
  change (t.rename ρ).writeRoot desk { page := desk.firstPage } =
    (t.writeRoot desk { page := desk.firstPage }).map _
  cases hresult : t.writeRoot desk { page := desk.firstPage } with
  | error err =>
    rw [show t.writeRoot (Comparison.renamed desk h).desk _ = _ from hresult] at hrun
    exact hrun
  | ok r =>
    obtain ⟨u, d⟩ := r
    rw [show t.writeRoot (Comparison.renamed desk h).desk _ = _ from hresult] at hrun
    obtain ⟨notes, hy, hfits, -, -⟩ := hrun
    refine hy.trans ?_
    rw [hfits.marks id]
    rfl

theorem Draft.assemble_rename (d : Draft) (w : Wrapper) (t : Tree) :
    (d.rename ρ).assemble w (t.rename ρ) = (d.assemble w t).map (Prod.map (Script.rename ρ) id) := by
  have hnames : (d.fields.map (·.rename ρ)).map (·.name) = d.fields.map (·.name) := by
    simp [Field.rename, Function.comp_def]
  have htypes : (d.fields.map (·.rename ρ)).mapM (fun f => Lexicon.spell f.ty) =
      d.fields.mapM fun f => Lexicon.spell f.ty := by
    rw [List.mapM_map]
    rfl
  have htext : (d.rename ρ).text? w = d.text? w := by
    simp only [text?, spelled, declarations, Draft.rename, hnames, htypes]
  rw [assemble_eq, assemble_eq, htext]
  cases d.text? w with
  | none => rfl
  | some r => simp only [scriptOf, spelled, Draft.rename, htypes]; rfl

theorem Tree.pass_rename (h : ρ.Injective) (t : Tree) (desk : Desk) :
    (t.rename ρ).pass desk = (t.pass desk).map (Prod.map (Script.rename ρ) id) := by
  rw [pass_eq, pass_eq, draft_rename h]
  cases t.draft desk with
  | error err => rfl
  | ok r => exact r.2.assemble_rename desk.wrapper r.1

/-- Exchanging all identities for others exchanges them in the script. -/
theorem Tree.toScript_rename_of_injective (h : ρ.Injective) (t : Tree) (w : Wrapper) :
    (t.rename ρ).toScript w = (t.toScript w).map (Script.rename ρ) := by
  unfold toScript
  rw [pass_rename h]
  cases hfirst : t.pass ⟨w, {}⟩ with
  | error err => rfl
  | ok r =>
    obtain ⟨script, layout⟩ := r
    cases w.document with
    | none => rfl
    | some document =>
      dsimp only [bind, Except.bind, Except.map, Prod.map, id]
      rw [pass_rename h]
      cases t.pass ⟨w, layout⟩ <;> rfl

/-! ## Keys of a script -/

/-- The keys in a script: those of its tree and of the values of its fields. -/
def Script.keys (s : Script) : List (Entity × String) := s.tree.keys ++ s.fields.flatMap (·.value.keys)

theorem Script.keys_rename (s : Script) : (s.rename ρ).keys = s.keys.map ρ.onKey := by
  have hfields : (s.fields.map (·.rename ρ)).flatMap (·.value.keys) =
      (s.fields.flatMap (·.value.keys)).map ρ.onKey := by
    simp only [List.flatMap_map, List.map_flatMap, Field.rename, Hoisted.keys_rename]
  rw [keys, keys, List.map_append, ← hfields, ← s.tree.keys_rename]
  rfl

theorem Script.rename_congr {s : Script} (h : ∀ x ∈ s.keys, ρ.onKey x = σ.onKey x) : s.rename ρ = s.rename σ := by
  rw [keys, List.forall_mem_append] at h
  have hfields : s.fields.map (·.rename ρ) = s.fields.map (·.rename σ) := by
    refine List.map_congr_left fun f hf => ?_
    rw [Field.rename, Field.rename, Hoisted.rename_congr fun x hx => h.2 x (List.mem_flatMap.mpr ⟨f, hf, hx⟩)]
  rw [Script.rename, Script.rename, hfields, Tree.rename_congr h.1]

/-- Two keys of a sort change places. -/
def Renaming.swap (sort : Entity) (k l : String) : Renaming where
  key sort' m := if sort' = sort then if m = k then l else if m = l then k else m else m

theorem Renaming.swap_injective (sort : Entity) (k l : String) : (swap sort k l).Injective := by
  intro sort' m n hmn
  simp only [swap] at hmn
  grind

/-- **No key comes out of nowhere.** Every key in the script of a tree is one of the tree: a key that is not would
change when it changes places with another such key, but the tree, and with it the script, stays what it is. -/
theorem Tree.toScript_keys_subset {t : Tree} {s : Script} (hs : t.toScript w = .ok s) : s.keys ⊆ t.keys := by
  rintro ⟨sort, k⟩ hk
  refine Classical.byContradiction fun hnew => ?_
  let fresh := Renaming.longer ((s.keys ++ t.keys).map Prod.snd)
  have hfresh : ∀ x ∈ s.keys ++ t.keys, x.2 ≠ fresh := by
    intro x hx heq
    have hlt := Renaming.length_lt_longer (List.mem_map_of_mem (f := Prod.snd) hx)
    rw [heq] at hlt
    exact Nat.lt_irrefl _ hlt
  rw [List.forall_mem_append] at hfresh
  have hsame : t.rename (.swap sort k fresh) = t := by
    refine (rename_congr fun x hx => ?_).trans t.rename_none
    have hkey : ¬(x.1 = sort ∧ x.2 = k) := fun ⟨hsort, hk⟩ => hnew (by rwa [← hsort, ← hk])
    have hnot := hfresh.2 x hx
    simp only [Renaming.onKey, Renaming.swap, Renaming.none]
    grind
  have hscript := toScript_rename_of_injective (Renaming.swap_injective sort k fresh) t w
  rw [hsame, hs] at hscript
  have hmoved := s.keys_rename (ρ := .swap sort k fresh)
  rw [← Except.ok.inj hscript] at hmoved
  have hmem : (sort, fresh) ∈ s.keys := by
    rw [hmoved]
    exact List.mem_map.mpr ⟨(sort, k), hk, by simp [Renaming.onKey, Renaming.swap]⟩
  exact hfresh.1 _ hmem rfl

/-- **Identities do not matter.** A tree whose identities are exchanged for others, so that different ones stay
different, is refused with the same error, or it has the same script with the identities exchanged in the tree and in
the values of the fields. -/
theorem Tree.toScript_rename (t : Tree) (w : Wrapper) (ρ : Renaming) (h : ρ.InjectiveOn t.keys) :
    (t.rename ρ).toScript w = (t.toScript w).map (Script.rename ρ) := by
  have hagree : ∀ x ∈ t.keys, ρ.onKey x = (ρ.extend t.keys).onKey x := fun x hx => (Renaming.onKey_extend hx).symm
  rw [rename_congr hagree, toScript_rename_of_injective (Renaming.extend_injective h)]
  cases hs : t.toScript w with
  | error err => rfl
  | ok s =>
    have hscript : s.rename ρ = s.rename (ρ.extend t.keys) :=
      Script.rename_congr fun x hx => hagree x (toScript_keys_subset hs hx)
    exact congrArg Except.ok hscript.symm

/-- Two nameless parameters, a lambda, a label and a host object under other identities. One parameter takes the
identity that the other had, and identities of different sorts may be equal. -/
theorem Tree.toScript_rename_parameters :
    let x : Variable := { id := .given "x", ty := .int }
    let y : Variable := { id := .given "y", ty := .int }
    let l : Label := { id := .given "x", name := none, ty := .void }
    let o : HostObject := { id := .given "y", ty := .object }
    let t : Tree := .lambda (.given "x") [x, y] (.block [] [.binary .assign (.mk (.var x)) (.mk (.var y)),
      .jump .goto l none, .mk (.label l none), .mk (.constant (.object o) .object)])
    let ρ : Renaming := ⟨fun _ k => if k = "x" then "y" else "z"⟩
    let w : Wrapper := { typeName := some "T", document := some "T.cs" }
    ρ.InjectiveOn t.keys ∧ t.rename ρ ≠ t ∧ (t.rename ρ).toScript w = (t.toScript w).map (Script.rename ρ) := by
  intro x y l o t ρ w
  have hinjective : ρ.InjectiveOn t.keys := by
    unfold Renaming.InjectiveOn
    decide +kernel
  refine ⟨hinjective, fun h => ?_, toScript_rename t w ρ hinjective⟩
  have hkeys : (t.rename ρ).keys = t.keys := congrArg Tree.keys h
  revert hkeys
  decide +kernel

end Scribe
