import Mathlib.Data.List.Forall2
import Scribe.Proofs.Writing.Parallel

/-!
# The elementary steps, side by side

No elementary step but a mark looks at a position. All of them are the same in both runs, and lists of
computations that correspond one by one correspond.
-/

namespace Scribe.Pairing

open Writing

variable {α γ : Type} {w : Pairing} {R S : α → α → Prop} {V : γ → α → α → Prop} {P : γ → α → Prop}
  {f g : Unit → Writing α}

/-! ## The page -/

theorem put_same (s : String) : w.Same (put s) (put s) := .onPage fun h => h.write s

theorem newline_same : w.Same newline newline := .onPage fun h => h.newline

theorem putLine_same (s : String) : w.Same (putLine s) (putLine s) := .onPage fun h => h.newline.write s

theorem Alike.put_bind {s : String} (h : w.Alike R S (f ()) (g ())) : w.Alike R S (put s >>= f) (put s >>= g) :=
  .bind_same (put_same s) fun _ => h

/-- A text on a new line, and what comes after it. -/
theorem Alike.putLine_bind {s : String} (h : w.Alike R S (f ()) (g ())) :
    w.Alike R S (putLine s >>= f) (putLine s >>= g) :=
  .bind_same (putLine_same s) fun _ => h

theorem indent_same : w.Same indent indent := .onPage fun h => h.indent

theorem dedent_same : w.Same dedent dedent := .onPage fun h => h.dedent

theorem openBrace_same : w.Same openBrace openBrace := .onPage fun h => h.openBrace false

theorem openBraceHere_same : w.Same openBraceHere openBraceHere := .onPage fun h => h.openBrace true

theorem closeBrace_same : w.Same closeBrace closeBrace := .onPage fun h => h.closeBrace

/-! ## Types, names and fields -/

theorem spell_same (ty : Ty) : w.Same (spell ty) (spell ty) :=
  .onLexicon (Lexicon.facesOnly_spell ty) fun _ _ => rfl

theorem putType_same (ty : Ty) : w.Same (putType ty) (putType ty) :=
  .bind_same (spell_same ty) fun name => put_same name

theorem Alike.putType_bind {ty : Ty} (h : w.Alike R S (f ()) (g ())) :
    w.Alike R S (putType ty >>= f) (putType ty >>= g) :=
  .bind_same (putType_same ty) fun _ => h

theorem putDefault_same (ty : Ty) : w.Same (putDefault ty) (putDefault ty) :=
  .bind_same (spell_same ty) fun _ => put_same _

theorem markDynamic_same : w.Same markDynamic markDynamic :=
  .onLexicon (f := modify Lexicon.markDynamic) (fun _ _ h => ⟨rfl, h⟩) fun _ _ => rfl

theorem naming_same (f : Naming → String × Naming) : w.Same (naming f) (naming f) :=
  .modifyGet fun _ _ _ _ _ => rfl

theorem field_same (value : Hoisted) (ty : Ty) (hint : String) : w.Same (field value ty hint) (field value ty hint) :=
  .modifyGet fun _ _ _ _ _ => rfl

theorem onFlow_same (f : Flow → Flow) : w.Same (onFlow f) (onFlow f) := .modify fun _ _ _ _ _ => rfl

/-! ## Variables -/

theorem putVariable_giving (v : Variable) : w.Giving v.Written (putVariable v) (putVariable v) := by
  refine .bind_same (naming_same _) fun name => .get_bind fun d₁ d₂ hd => ?_
  rw [hd.undeclared]
  have hname : w.Giving v.Written (do put name; pure (v.written name)) (do put name; pure (v.written name)) :=
    .put_bind <| .pure rfl ⟨name, rfl⟩
  refine .ite (.bind_same (.modify fun _ _ _ _ _ => rfl) fun _ => ?_) hname
  exact .putType_bind <| .put_bind <| hname

theorem postpone_giving (v : Variable) : w.Giving v.Written (postpone v) (postpone v) :=
  .bind_same (naming_same _) fun name => .bind_same (.modify fun _ _ _ _ _ => rfl) fun _ => .pure rfl ⟨name, rfl⟩

/-! ## Lists -/

theorem mapM_alike {δ : Type} {h : δ → Writing α} {m m' : γ → δ} {cs : List γ}
    (hc : ∀ c ∈ cs, w.Alike R (V c) (h (m c)) (h (m' c))) :
    w.Alike (List.Forall₂ R) (Forall₃ V cs) ((cs.map m).mapM h) ((cs.map m').mapM h) := by
  induction cs with
  | nil => exact .pure .nil .nil
  | cons c cs ih =>
    rw [List.forall_mem_cons] at hc
    rw [List.map_cons, List.map_cons, List.mapM_cons, List.mapM_cons]
    refine hc.1.bind fun _ _ hab => (ih hc.2).bind fun _ _ hrest => ?_
    exact .pure (.cons hab hrest) fun has ha => .cons ha has

section Lists

variable {xs ys : List (Writing α)} {cs : List γ}

theorem separated_alike (wrap : Bool) (h : Forall₃ (fun c => w.Alike R (V c)) cs xs ys) :
    w.Alike (List.Forall₂ R) (Forall₃ V cs) (separated wrap xs) (separated wrap ys) := by
  induction h with
  | nil => exact .pure .nil .nil
  | @cons c x y cs xs ys hxy hxys ih =>
    have hempty : ys.isEmpty = xs.isEmpty := by cases hxys <;> rfl
    have hrest : ∀ a b, R a b → w.Alike (List.Forall₂ R) (fun as bs => V c a b → Forall₃ V (c :: cs) as bs)
        (do let as ← separated wrap xs; pure (a :: as)) (do let as ← separated wrap ys; pure (b :: as)) :=
      fun a b hab => ih.bind fun _ _ hrest => .pure (.cons hab hrest) fun has ha => .cons ha has
    have hitem : w.Alike (List.Forall₂ R) (Forall₃ V (c :: cs)) _ _ := hxy.bind fun a b hab =>
      .ite (c := xs.isEmpty = true) (hrest a b hab)
        (.bind_same (put_same (if wrap then "," else ", ")) fun _ => hrest a b hab)
    rw [separated, separated, hempty]
    exact .ite (.bind_same newline_same fun _ => hitem) hitem

variable (h : Forall₃ (fun c => w.Alike R (V c)) cs xs ys)

include h

theorem bracketed_alike (left right : String) :
    w.Alike (List.Forall₂ R) (Forall₃ V cs) (bracketed left right xs) (bracketed left right ys) :=
  .put_bind <| .bind (separated_alike false h) fun _ _ hab => .put_bind <| .pure hab id

theorem braced_alike (limit : Nat) : w.Alike (List.Forall₂ R) (Forall₃ V cs) (braced limit xs) (braced limit ys) := by
  have hlength : xs.length = ys.length := by
    induction h with
    | nil => rfl
    | cons _ _ ih => rw [List.length_cons, List.length_cons, ih]
  unfold braced
  rw [hlength]
  refine .ite (.put_bind <| bracketed_alike h _ _) ?_
  refine .bind_same newline_same fun _ => .put_bind ?_
  refine .bind_same indent_same fun _ => .bind (separated_alike true h) fun _ _ hab => ?_
  exact .bind_same dedent_same fun _ => .bind_same newline_same fun _ => .put_bind <| .pure hab id

end Lists

theorem forall₃_alike {f g : γ → Writing α} {cs : List γ} (h : ∀ c ∈ cs, w.Alike R (V c) (f c) (g c)) :
    Forall₃ (fun c => w.Alike R (V c)) cs (cs.map f) (cs.map g) := by
  induction cs with
  | nil => exact .nil
  | cons c cs ih =>
    rw [List.forall_mem_cons] at h
    exact .cons h.1 (ih h.2)

theorem Alike.giving {cs : List γ} {x y : Writing (List α)}
    (h : w.Alike (List.Forall₂ Eq) (Forall₃ (fun c a _ => P c a) cs) x y) : w.Giving (List.Forall₂ P cs) x y := by
  refine h.weaken (fun hab => ?_) Forall₃.left
  rwa [List.forall₂_eq_eq_eq] at hab

theorem mapM_giving {f : γ → Writing α} {cs : List γ} (h : ∀ c ∈ cs, w.Giving (P c) (f c) (f c)) :
    w.Giving (List.Forall₂ P cs) (cs.mapM f) (cs.mapM f) := by
  have hall : w.Alike _ _ ((cs.map id).mapM f) ((cs.map id).mapM f) := mapM_alike h
  rw [List.map_id] at hall
  exact hall.giving

theorem bracketed_giving (left right : String) {f : γ → Writing α} {cs : List γ}
    (h : ∀ c ∈ cs, w.Giving (P c) (f c) (f c)) :
    w.Giving (List.Forall₂ P cs) (bracketed left right (cs.map f)) (bracketed left right (cs.map f)) :=
  (bracketed_alike (forall₃_alike h) left right).giving

/-! ## Functions -/

theorem inFunction_twin {V : α → α → Prop} {x y : Writing α} (h : w.Twin V x y) :
    w.Twin V (inFunction x) (inFunction y) := by
  refine .get_bind fun d₁ d₂ hd => .bind_same (onFlow_same _) fun _ => .bind_twin h fun _ _ => ?_
  rw [hd.flow]
  exact .bind_same (onFlow_same _) fun _ => .give id

end Scribe.Pairing
