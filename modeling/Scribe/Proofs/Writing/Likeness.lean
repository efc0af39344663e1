import Mathlib.Data.Option.Basic
import Scribe.Proofs.Lexicon.Ranked
import Scribe.Proofs.Tree.Defects
import Scribe.Proofs.Writing.Step

/-!
# Ways of writing that are alike

Sometimes a tree is written in its usual way and also in other ways that differ only in what happens at some of its
nodes. A *likeness* relates a way of writing and a family of such other ways. It is *congruent* when it goes through
the elementary steps of writing and through sequences; then it goes through everything that is written from pieces, as
long as it holds of the pieces.

A likeness may go through some errors and some types only. An `Allowance` says which ones these are. A property of ways
of writing is a likeness too, with no other ways at all (`Property.likeness`).

Expressions ask for less than statements: it is enough that the likeness goes through what stands on a line
(`Likeness.Lined`). `Variants` is a tree with its usual rendition and the other ones. What writes trees is treated behind
this module, once for all likenesses.
-/

namespace Scribe

open Text (Page)

/-! ## What is allowed for -/

/-- What is allowed for when a tree is written: whether its types are promised to have full names, and with
which errors the writing may stop. Where no promise is made, a missing full name is one of them. -/
structure Allowance where
  ranked : Prop
  error : ScriptError → Prop
  noFullName : ¬ranked → error .noFullName

namespace Allowance

/-- The type has a full name if that is promised. -/
def Admits (E : Allowance) (ty : Ty) : Prop := E.ranked → ty.isRanked = true

/-- Nothing is promised, and every error is allowed. -/
def all : Allowance := ⟨False, fun _ => True, fun _ => trivial⟩

theorem admits_all (ty : Ty) : all.Admits ty := False.elim

variable {E : Allowance} {ty : Ty}

theorem Admits.delegate {params : List Ty} {result : Ty} (hparams : ∀ ty ∈ params, E.Admits ty)
    (hresult : E.Admits result) : E.Admits (Ty.delegate params result) :=
  fun hE => Ty.isRanked_delegate (fun ty hty => hparams ty hty hE) (hresult hE)

end Allowance

/-! ## Likenesses -/

/-- A relation between a way of writing and a family of other ways. -/
abbrev Likeness (ι : Type) := (α : Type) → Writing α → (ι → Writing α) → Prop

namespace Likeness

open Writing

variable {ι α β γ : Type}

/-- Lists of computations that are alike one by one. -/
inductive All (R : Likeness ι) : List (Writing α) → (ι → List (Writing α)) → Prop where
  | nil : All R [] fun _ => []
  | cons {x : Writing α} {y : ι → Writing α} {xs : List (Writing α)} {ys : ι → List (Writing α)} :
    R α x y → All R xs ys → All R (x :: xs) fun i => y i :: ys i

theorem All.of_map {R : Likeness ι} {f : γ → Writing α} {g : γ → ι → Writing α} {cs : List γ}
    (h : ∀ c ∈ cs, R α (f c) (g c)) : All R (cs.map f) fun i => cs.map fun c => g c i := by
  induction cs with
  | nil => exact .nil
  | cons c cs ih => exact .cons (h c (by simp)) (ih fun c hc => h c (by simp [hc]))

theorem All.length {R : Likeness ι} {xs : List (Writing α)} {ys : ι → List (Writing α)} (h : All R xs ys) (i : ι) :
    (ys i).length = xs.length := by
  induction h with
  | nil => rfl
  | cons _ _ ih => rw [List.length_cons, List.length_cons, ih]

/-- A likeness that goes through what is put on a line, as far as it is allowed for, and through sequences. -/
structure Sequenced (R : Likeness ι) (E : Allowance) : Prop where
  protected pure {α : Type} (a : α) : R α (pure a) fun _ => pure a
  protected throw {α : Type} {err : ScriptError} : E.error err → R α (throw err) fun _ => throw err
  protected bind {α β : Type} {x : Writing α} {y : ι → Writing α} {f : α → Writing β} {g : α → ι → Writing β} :
    R α x y → (∀ a, R β (f a) (g a)) → R β (x >>= f) fun i => y i >>= fun a => g a i
  protected put (s : String) : R Unit (put s) fun _ => put s
  protected spell {ty : Ty} : E.Admits ty → R String (spell ty) fun _ => spell ty
  protected markDynamic : R Unit markDynamic fun _ => markDynamic
  protected field (value : Hoisted) {ty : Ty} : E.Admits ty →
    R String (field value ty value.hint) fun _ => field value ty value.hint

/-- A likeness that goes through items in braces too, where a text stands in front of them. These items may go on lines
of their own. -/
structure Lined (R : Likeness ι) (E : Allowance) : Prop extends R.Sequenced E where
  protected braced {α β : Type} {s : String} (limit : Nat) {x : Writing α} {y : ι → Writing α} {xs : List (Writing β)}
    {ys : ι → List (Writing β)} : s ≠ "" → R α x y → All R xs ys →
    R (α × List β) (do Writing.put s; let a ← x; let bs ← Writing.braced limit xs; return (a, bs))
      fun i => do Writing.put s; let a ← y i; let bs ← Writing.braced limit (ys i); return (a, bs)

/-- A likeness that goes through the elementary steps, as far as they are allowed for, and through sequences. -/
structure Congruent (R : Likeness ι) (E : Allowance) : Prop extends R.Sequenced E where
  protected onPage (f : Page → Page) : R Unit (onPage f) fun _ => onPage f
  put _ := onPage _
  protected fresh (stem : String) : R String (naming (·.fresh stem)) fun _ => naming (·.fresh stem)
  protected nameLabel (l : Label) : R String (naming (·.nameLabel l)) fun _ => naming (·.nameLabel l)
  protected addTaker (target : Label) (tail : Tail) : R Unit (addTaker target tail) fun _ => addTaker target tail
  protected mark (form : Passage.Form) (start : Page) : R (Option Tree) (mark form start) fun _ => mark form start
  protected turn : R Nat (modifyGet fun d => (d.turns, { d with turns := d.turns + 1 }))
    fun _ => modifyGet fun d => (d.turns, { d with turns := d.turns + 1 })
  protected get_bind {β : Type} {f : Draft → Writing β} {g : Draft → ι → Writing β} :
    (∀ d, R β (f d) (g d)) → R β (get >>= f) fun i => get >>= fun d => g d i
  protected read_bind {β : Type} {f : Desk → Writing β} {g : Desk → ι → Writing β} :
    (∀ desk, R β (f desk) (g desk)) → R β (read >>= f) fun i => read >>= fun desk => g desk i

theorem ite {R : Likeness ι} {c : Prop} [Decidable c] {x x' : Writing α} {y y' : ι → Writing α} (h : c → R α x y)
    (h' : ¬c → R α x' y') : R α (if c then x else x') fun i => if c then y i else y' i := by
  by_cases hc : c
  · simp only [if_pos hc]
    exact h hc
  · simp only [if_neg hc]
    exact h' hc

variable {R : Likeness ι} {E : Allowance}

/-! ## Lines -/

namespace Sequenced

variable (hR : R.Sequenced E)

include hR

protected theorem map {f : α → β} {x : Writing α} {y : ι → Writing α} (h : R α x y) :
    R β (x >>= fun a => pure (f a)) fun i => y i >>= fun a => pure (f a) :=
  hR.bind h fun _ => hR.pure _

protected theorem put_bind {s : String} {f : Unit → Writing α} {g : Unit → ι → Writing α} (h : R α (f ()) (g ())) :
    R α (put s >>= f) fun i => put s >>= fun a => g a i :=
  hR.bind (hR.put s) fun _ => h

protected theorem putType {ty : Ty} (h : E.Admits ty) : R Unit (putType ty) fun _ => putType ty :=
  hR.bind (hR.spell h) fun _ => hR.put _

protected theorem putDefault {ty : Ty} (h : E.Admits ty) : R Unit (putDefault ty) fun _ => putDefault ty :=
  hR.bind (hR.spell h) fun _ => hR.put _

protected theorem mapM {f : γ → Writing α} {g : γ → ι → Writing α} {cs : List γ} (h : ∀ c ∈ cs, R α (f c) (g c)) :
    R (List α) (cs.mapM f) fun i => cs.mapM fun c => g c i := by
  induction cs with
  | nil => exact hR.pure _
  | cons c cs ih =>
    simp only [List.mapM_cons]
    exact hR.bind (h c (by simp)) fun _ => hR.map (ih fun c hc => h c (by simp [hc]))

protected theorem mapM_map {δ : Type} {f : δ → Writing α} {m : γ → δ} {m' : ι → γ → δ} {cs : List γ}
    (h : ∀ c ∈ cs, R α (f (m c)) fun i => f (m' i c)) :
    R (List α) ((cs.map m).mapM f) fun i => (cs.map (m' i)).mapM f := by
  simp only [List.mapM_map]
  exact hR.mapM h

/-- Items with commas between them; where they go on new lines, line breaks have to be alike. -/
protected theorem separated_of {xs : List (Writing α)} {ys : ι → List (Writing α)} (h : All R xs ys) {wrap : Bool}
    (hwrap : wrap = true → R Unit newline fun _ => newline) :
    R (List α) (separated wrap xs) fun i => separated wrap (ys i) := by
  induction h with
  | nil => exact hR.pure _
  | @cons x y xs ys hxy hxys ih =>
    have hrest : ∀ a : α, R (List α) (separated wrap xs >>= fun as => pure (a :: as))
        fun i => separated wrap (ys i) >>= fun as => pure (a :: as) :=
      fun a => hR.map ih
    have hempty : ∀ i, (ys i).isEmpty = xs.isEmpty := by
      intro i
      cases hxys <;> rfl
    simp only [separated, hempty]
    refine ite (fun hc => hR.bind (hwrap hc) fun _ => ?_) fun _ => ?_
    all_goals
      exact hR.bind hxy fun a => ite (fun _ => hrest a) fun _ => hR.put_bind <| hrest a

protected theorem bracketed {xs : List (Writing α)} {ys : ι → List (Writing α)} (h : All R xs ys) (left right : String) :
    R (List α) (bracketed left right xs) fun i => bracketed left right (ys i) :=
  hR.put_bind <| hR.bind (hR.separated_of h nofun) fun _ => hR.put_bind <| hR.pure _

end Sequenced

/-- Items in braces, with a text in front and something behind. -/
protected theorem Lined.braced_bind (hR : R.Lined E) {s : String} (hs : s ≠ "") (limit : Nat) {x : Writing α}
    {y : ι → Writing α} {xs : List (Writing β)} {ys : ι → List (Writing β)} (hx : R α x y) (hxs : All R xs ys)
    {f : α → List β → Writing γ} {g : α → List β → ι → Writing γ} (hf : ∀ a bs, R γ (f a bs) (g a bs)) :
    R γ (do put s; let a ← x; let bs ← braced limit xs; f a bs)
      fun i => (do put s; let a ← y i; let bs ← braced limit (ys i); g a bs i) := by
  have h := hR.bind (hR.braced limit hs hx hxs) fun r => hf r.1 r.2
  simpa only [bind_assoc, pure_bind] using h

/-! ## Pages -/

namespace Congruent

variable (hR : R.Congruent E)

include hR

protected theorem putLine (s : String) : R Unit (putLine s) fun _ => putLine s := hR.onPage _

/-- A text on a new line, and what comes after it. -/
protected theorem putLine_bind {s : String} {f : Unit → Writing α} {g : Unit → ι → Writing α} (h : R α (f ()) (g ())) :
    R α (putLine s >>= f) fun i => putLine s >>= fun a => g a i :=
  hR.bind (hR.putLine s) fun _ => h

protected theorem newline : R Unit newline fun _ => newline := hR.onPage _

protected theorem page_bind {f : Page → Writing β} {g : Page → ι → Writing β} (h : ∀ p, R β (f p) (g p)) :
    R β (page >>= f) fun i => page >>= fun p => g p i := by
  have hpage : ∀ k : Page → Writing β, page >>= k = get >>= fun d => k d.page := fun _ => rfl
  simp only [hpage]
  exact hR.get_bind fun d => h d.page

/-- Items in braces are put on lines one after the other. -/
theorem lined : R.Lined E where
  toSequenced := hR.toSequenced
  braced {α β s} limit {x y xs ys} _ hx hxs := by
    have hbraced : R (List β) (braced limit xs) fun i => braced limit (ys i) := by
      unfold braced
      simp only [hxs.length]
      refine ite (fun _ => hR.put_bind <| hR.bracketed hxs _ _) fun _ => ?_
      refine hR.bind (hR.onPage _) fun _ => hR.put_bind <| hR.bind (hR.onPage _) fun _ => ?_
      refine hR.bind (hR.separated_of hxs fun _ => hR.newline) fun _ => hR.bind (hR.onPage _) fun _ => ?_
      exact hR.bind (hR.onPage _) fun _ => hR.put_bind <| hR.pure _
    exact hR.put_bind <| hR.bind hx fun _ => hR.map hbraced

end Congruent

end Likeness

/-! ## Trees with several renditions -/

/-- A tree with its usual rendition and a family of other ones. -/
structure Variants (ι : Type) where
  tree : Tree
  usual : Rendition
  other : ι → Rendition

namespace Variants

variable {ι : Type}

/-- The piece that is written in the usual way. -/
def left (p : Variants ι) : Piece := (p.tree, p.usual)

/-- The piece that is written in another way. -/
def right (i : ι) (p : Variants ι) : Piece := (p.tree, p.other i)

theorem map_tree (ps : List (Variants ι)) (i : ι) : (ps.map (right i)).map (·.tree) = (ps.map left).map (·.tree) := by
  rw [List.map_map, List.map_map]
  rfl

/-- The ways of writing the tree as a value are alike, and so are those of writing it quoted. -/
structure Alike (R : Likeness ι) (p : Variants ι) : Prop where
  value : R Tree p.left.value fun i => (p.right i).value
  quoted : p.usual.quoted = none ∧ (∀ i, (p.other i).quoted = none) ∨
    ∃ x y, p.usual.quoted = some x ∧ (∀ i, (p.other i).quoted = some (y i)) ∧ R Tree x y

theorem Alike.imp {R S : Likeness ι} (hRS : ∀ {x y}, R Tree x y → S Tree x y) {p : Variants ι} (h : p.Alike R) :
    p.Alike S where
  value := hRS h.value
  quoted := by
    rcases h.quoted with hnone | ⟨x, y, hx, hy, hxy⟩
    · exact .inl hnone
    · exact .inr ⟨x, y, hx, hy, hRS hxy⟩

end Variants

/-! ## Properties -/

/-- A property of ways of writing. -/
abbrev Property := (α : Type) → Writing α → Prop

/-- The property, as a likeness with no other ways of writing. -/
abbrev Property.likeness (P : Property) : Likeness Empty := fun α x _ => P α x

theorem Likeness.All.forall {P : Property} {α : Type} {xs : List (Writing α)} {ys : Empty → List (Writing α)}
    (h : All P.likeness xs ys) : ∀ x ∈ xs, P α x := by
  induction h with
  | nil => exact List.forall_mem_nil _
  | cons hx _ ih => exact List.forall_mem_cons.mpr ⟨hx, ih⟩

/-- A piece with no other renditions. -/
def Piece.alone (p : Piece) : Variants Empty := ⟨p.tree, p.2, nofun⟩

end Scribe
