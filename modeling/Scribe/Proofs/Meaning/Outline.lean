import Mathlib.Logic.Relation
import Scribe.Proofs.Text.Page

/-!
# Statements in outline

Statements of which only the outline is known: loops, conditionals and jumps around texts that may be anything. What the
texts do is given from outside by a `Sense`, so that whatever is said of an outline holds for all of them.

Statements end with a signal. A loop is described by its rounds (`loop_iff`): it goes on for some rounds, and in one
more round it stops. A run that never ends is an endless sequence of rounds.
-/

namespace Scribe

open Relation (ReflTransGen)

/-- Statements around tests, values and other statements that are given by their texts. -/
inductive Outline where
  | other (text : String)
  | assign (name value : String)
  | result (value : String)
  | exit
  | label (name : String)
  | branch (test : String) (ifTrue ifFalse : List Outline)
  /-- A loop with a test; without one it is `while (true)`. -/
  | loop (test : Option String) (body : List Outline)

namespace Outline

open Text.Page (blanks)

/-! ## Text -/

mutual

/-- The text of a statement, with the line break in front of it. Other statements bring theirs along. -/
def print (level : Nat) : Outline → String
  | .other text => text
  | .assign name value => "\n" ++ (blanks level ++ (name ++ " = " ++ value ++ ";"))
  | .result value => "\n" ++ (blanks level ++ ("return " ++ value ++ ";"))
  | .exit => "\n" ++ (blanks level ++ "break;")
  | .label name => "\n" ++ (blanks level ++ (name ++ ":;"))
  | .branch test ifTrue ifFalse =>
    "\n" ++ (blanks level ++ ("if (" ++ test ++ ")")) ++
      ("\n" ++ (blanks level ++ "\x7b") ++ printAll (level + 1) ifTrue ++ ("\n" ++ (blanks level ++ "\x7d"))) ++
      ("\n" ++ (blanks level ++ "else")) ++
      ("\n" ++ (blanks level ++ "\x7b") ++ printAll (level + 1) ifFalse ++ ("\n" ++ (blanks level ++ "\x7d")))
  | .loop test body =>
    "\n" ++ (blanks level ++ ("while (" ++ test.getD "true" ++ ")")) ++
      ("\n" ++ (blanks level ++ "\x7b") ++ printAll (level + 1) body ++ ("\n" ++ (blanks level ++ "\x7d")))

/-- The text of statements. -/
def printAll (level : Nat) : List Outline → String
  | [] => ""
  | o :: os => print level o ++ printAll level os

end

/-! ## Meaning -/

/-- How statements end. -/
inductive Signal (V X : Type) where
  /-- With the statement behind them. -/
  | normal
  /-- By leaving the loop around them. -/
  | exit
  /-- With the next round of the loop around them. -/
  | again
  /-- At a label. -/
  | goto (target : String)
  /-- By returning from the method. -/
  | result (value : Option V)
  /-- With an exception. -/
  | failure (x : X)

/-- What statements do: the signals with which they may end, and the states behind them. -/
abbrev Meaning (σ V X : Type) := σ → Signal V X → σ → Prop

/-- What tests, values and other statements do, given by their texts. -/
structure Sense (σ V X : Type) where
  test : String → σ → Except X Bool → σ → Prop
  value : String → σ → Except X V → σ → Prop
  other : String → Meaning σ V X
  /-- The state with another value of a variable. -/
  store : String → V → σ → σ

section Combined

variable {σ V X : Type}

/-- Whether a loop goes on when its body ends like this. -/
def Signal.GoesOn (s : Signal V X) : Prop := s = .normal ∨ s = .again

/-- How a loop ends that stops because its body ends like this. -/
def Signal.outside : Signal V X → Signal V X
  | .exit => .normal
  | s => s

/-- How statements end when the label is behind the last of them. -/
def Signal.landing (name : Option String) : Signal V X → Signal V X
  | .goto target => if name = some target then .normal else .goto target
  | s => s

/-- What a loop does. -/
inductive Loop (test : σ → Except X Bool → σ → Prop) (body : Meaning σ V X) : Meaning σ V X
  | done {a b : σ} : test a (.ok false) b → Loop test body a .normal b
  | fails {a b : σ} {x : X} : test a (.error x) b → Loop test body a (.failure x) b
  | next {a b c d : σ} {s t : Signal V X} :
      test a (.ok true) b → body b s c → s.GoesOn → Loop test body c t d → Loop test body a t d
  | leaves {a b c : σ} {s : Signal V X} :
      test a (.ok true) b → body b s c → ¬s.GoesOn → Loop test body a s.outside c

/-- A statement in a list, with its name when it is a label. -/
structure Item (σ V X : Type) where
  name : Option String := none
  does : Meaning σ V X

/-- The statements behind a label. -/
def behind (target : String) : List (Item σ V X) → Option (List (Item σ V X))
  | [] => none
  | item :: items => if item.name = some target then some items else behind target items

/-- What the statements `rest` of the list `whole` do. -/
inductive Runs (whole : List (Item σ V X)) : List (Item σ V X) → Meaning σ V X
  | nil {a : σ} : Runs whole [] a .normal a
  | next {item : Item σ V X} {rest : List (Item σ V X)} {a b c : σ} {s : Signal V X} :
      item.does a .normal b → Runs whole rest b s c → Runs whole (item :: rest) a s c
  | goto {item : Item σ V X} {rest found : List (Item σ V X)} {a b c : σ} {s : Signal V X} {target : String} :
      item.does a (.goto target) b → behind target whole = some found → Runs whole found b s c →
      Runs whole (item :: rest) a s c
  | leaves {item : Item σ V X} {rest : List (Item σ V X)} {a b : σ} {s : Signal V X} :
      item.does a s b → s ≠ .normal → (∀ target, s = .goto target → behind target whole = none) →
      Runs whole (item :: rest) a s b

/-- What a list of statements does. -/
def Block (items : List (Item σ V X)) : Meaning σ V X := Runs items items

/-- Does something with a value, unless it cannot be computed. -/
def Sense.withValue (I : Sense σ V X) (value : String) (f : V → Meaning σ V X) : Meaning σ V X := fun a s c =>
  (∃ v b, I.value value a (.ok v) b ∧ f v b s c) ∨ ∃ x, I.value value a (.error x) c ∧ s = .failure x

mutual

/-- What a statement does. -/
def does (I : Sense σ V X) : Outline → Meaning σ V X
  | .other text => I.other text
  | .assign name value => I.withValue value fun v b s c => s = .normal ∧ c = I.store name v b
  | .result value => I.withValue value fun v b s c => s = .result (some v) ∧ c = b
  | .exit => fun a s c => s = .exit ∧ c = a
  | .label _ => fun a s c => s = .normal ∧ c = a
  | .branch test ifTrue ifFalse => fun a s c =>
    (∃ b, I.test test a (.ok true) b ∧ Block (items I ifTrue) b s c) ∨
    (∃ b, I.test test a (.ok false) b ∧ Block (items I ifFalse) b s c) ∨
    ∃ x, I.test test a (.error x) c ∧ s = .failure x
  | .loop (some test) body => Loop (I.test test) (Block (items I body))
  | .loop none body => Loop (fun a r b => r = .ok true ∧ b = a) (Block (items I body))

/-- The statements of a list, with the names of the labels. -/
def items (I : Sense σ V X) : List Outline → List (Item σ V X)
  | [] => []
  | .label name :: os => ⟨some name, does I (.label name)⟩ :: items I os
  | o :: os => ⟨none, does I o⟩ :: items I os

end

/-- What statements do. -/
def Do (I : Sense σ V X) (os : List Outline) : Meaning σ V X := Block (items I os)

/-! ## Loops -/

variable {test : σ → Except X Bool → σ → Prop} {body : Meaning σ V X} {a b c : σ} {s t : Signal V X}

/-- A round of a loop that goes on. -/
def Round (test : σ → Except X Bool → σ → Prop) (body : Meaning σ V X) (a c : σ) : Prop :=
  ∃ b s, test a (.ok true) b ∧ body b s c ∧ s.GoesOn

/-- A loop goes on for some rounds, and stops in one more. -/
theorem loop_iff : Loop test body a s c ↔ ∃ b, ReflTransGen (Round test body) a b ∧
    ((test b (.ok false) c ∧ s = .normal) ∨ (∃ x, test b (.error x) c ∧ s = .failure x) ∨
      ∃ m t, test b (.ok true) m ∧ body m t c ∧ ¬t.GoesOn ∧ s = t.outside) := by
  constructor
  · intro h
    induction h with
    | done htest => exact ⟨_, .refl, .inl ⟨htest, rfl⟩⟩
    | fails htest => exact ⟨_, .refl, .inr (.inl ⟨_, htest, rfl⟩)⟩
    | leaves htest hbody hstops => exact ⟨_, .refl, .inr (.inr ⟨_, _, htest, hbody, hstops, rfl⟩)⟩
    | next htest hbody hgoes _ ih =>
      obtain ⟨b, hrounds, hstop⟩ := ih
      exact ⟨b, .head ⟨_, _, htest, hbody, hgoes⟩ hrounds, hstop⟩
  · rintro ⟨b, hrounds, hstop⟩
    induction hrounds using ReflTransGen.head_induction_on with
    | refl =>
      obtain ⟨htest, rfl⟩ | ⟨x, htest, rfl⟩ | ⟨m, t, htest, hbody, hstops, rfl⟩ := hstop
      · exact .done htest
      · exact .fails htest
      · exact .leaves htest hbody hstops
    | head hround _ ih =>
      obtain ⟨m, t, htest, hbody, hgoes⟩ := hround
      exact .next htest hbody hgoes ih

/-- Where a body that ends the loop passes on its signal. -/
theorem Signal.landing_outside (name : Option String) (h : ¬(s.landing name).GoesOn) :
    (s.landing name).outside = s.outside := by
  cases s with
  | goto target =>
    simp only [landing] at h ⊢
    by_cases hname : name = some target
    · rw [if_pos hname] at h
      exact absurd (.inl rfl) h
    · rw [if_neg hname]
  | _ => rfl

theorem Signal.outside_of_ne (h : s ≠ .exit) : s.outside = s := by
  cases s with
  | exit => exact absurd rfl h
  | _ => rfl

/-- A loop that its body ends normally was left by a `break`. -/
theorem Signal.eq_exit_of_outside {name : Option String} (h : ¬(s.landing name).GoesOn) (hs : s.outside = .normal) :
    s = .exit := by
  by_cases hexit : s = .exit
  · exact hexit
  · rw [outside_of_ne hexit] at hs
    subst hs
    exact absurd (.inl rfl) h

/-! ## Lists -/

variable {whole pre rest : List (Item σ V X)} {item : Item σ V X} {name : Option String}

/-- How the list `whole` goes on when a statement in front of `rest` ends with a signal. -/
def Resumes (whole rest : List (Item σ V X)) (t : Signal V X) (b : σ) (s : Signal V X) (c : σ) : Prop :=
  match t with
  | .normal => Runs whole rest b s c
  | .goto target =>
    match behind target whole with
    | some found => Runs whole found b s c
    | none => s = .goto target ∧ c = b
  | t => s = t ∧ c = b

theorem runs_nil : Runs whole [] a s c ↔ s = .normal ∧ c = a := by
  constructor
  · rintro ⟨⟩
    exact ⟨rfl, rfl⟩
  · rintro ⟨rfl, rfl⟩
    exact .nil

theorem runs_cons : Runs whole (item :: rest) a s c ↔ ∃ t b, item.does a t b ∧ Resumes whole rest t b s c := by
  constructor
  · intro h
    cases h with
    | next hitem hrest => exact ⟨_, _, hitem, hrest⟩
    | goto hitem hfound hrest =>
      refine ⟨_, _, hitem, ?_⟩
      simp only [Resumes, hfound]
      exact hrest
    | leaves hitem hnormal hgoto =>
      refine ⟨_, _, hitem, ?_⟩
      cases s with
      | normal => exact absurd rfl hnormal
      | goto target => simp [Resumes, hgoto target rfl]
      | _ => exact ⟨rfl, rfl⟩
  · rintro ⟨t, b, hitem, hresumes⟩
    cases t with
    | normal => exact .next hitem hresumes
    | goto target =>
      simp only [Resumes] at hresumes
      split at hresumes
      · next hfound => exact .goto hitem hfound hresumes
      · next hnone =>
        obtain ⟨rfl, rfl⟩ := hresumes
        refine .leaves hitem nofun ?_
        rintro _ ⟨⟩
        exact hnone
    | _ =>
      obtain ⟨rfl, rfl⟩ := hresumes
      exact .leaves hitem nofun nofun

theorem behind_eq_none (hpre : ∀ item ∈ pre, item.name = none) (target : String) : behind target pre = none := by
  induction pre with
  | nil => rfl
  | cons item pre ih =>
    obtain ⟨hitem, hpre⟩ := List.forall_mem_cons.mp hpre
    rw [behind, hitem, if_neg nofun, ih hpre]

/-- The only label of a list is at its end, if there is one. -/
def closing (I : Sense σ V X) (name : Option String) : List (Item σ V X) := items I (name.toList.map .label)

theorem behind_closing (I : Sense σ V X) (hpre : ∀ item ∈ pre, item.name = none) (target : String) :
    behind target (pre ++ closing I name) = if name = some target then some [] else none := by
  induction pre with
  | nil =>
    cases name with
    | none | some name => rfl
  | cons item pre ih =>
    obtain ⟨hitem, hpre⟩ := List.forall_mem_cons.mp hpre
    rw [List.cons_append, behind, hitem, if_neg nofun, ih hpre]

theorem runs_closing (I : Sense σ V X) : Runs whole (closing I name) a s c ↔ s = .normal ∧ c = a := by
  cases name with
  | none => exact runs_nil
  | some name =>
    refine runs_cons.trans ⟨?_, ?_⟩
    · rintro ⟨t, b, ⟨rfl, rfl⟩, hrest⟩
      exact runs_nil.mp hrest
    · rintro ⟨rfl, rfl⟩
      exact ⟨_, _, ⟨rfl, rfl⟩, .nil⟩

theorem resumes_goto_closing (I : Sense σ V X) (hpre : ∀ item ∈ pre, item.name = none) (target : String) :
    Resumes (pre ++ closing I name) rest (.goto target) b s c ↔ s = Signal.landing name (.goto target) ∧ c = b := by
  simp only [Resumes, behind_closing I hpre, Signal.landing]
  by_cases hname : name = some target
  · simp only [if_pos hname]
    exact runs_nil
  · simp only [if_neg hname]

theorem resumes_goto (hpre : ∀ item ∈ pre, item.name = none) (target : String) :
    Resumes pre rest (.goto target) b s c ↔ s = .goto target ∧ c = b := by
  simp only [Resumes, behind_eq_none hpre]

/-- With a label at the end, a jump to it ends there. -/
theorem runs_append_closing (I : Sense σ V X) (hpre : ∀ item ∈ pre, item.name = none) :
    Runs (pre ++ closing I name) (rest ++ closing I name) a s c ↔ ∃ t, Runs pre rest a t c ∧ s = t.landing name := by
  -- a jump starts over with the whole list, so that only what is left to run is taken apart
  induction rest generalizing a with
  | nil =>
    rw [List.nil_append, runs_closing]
    simp only [runs_nil]
    constructor
    · rintro ⟨rfl, rfl⟩
      exact ⟨_, ⟨rfl, rfl⟩, rfl⟩
    · rintro ⟨t, ⟨rfl, rfl⟩, rfl⟩
      exact ⟨rfl, rfl⟩
  | cons item rest ih =>
    rw [List.cons_append, runs_cons]
    simp only [runs_cons]
    constructor
    · rintro ⟨t, b, hitem, hresumes⟩
      cases t with
      | normal =>
        obtain ⟨t, hrest, rfl⟩ := ih.mp hresumes
        exact ⟨t, ⟨_, _, hitem, hrest⟩, rfl⟩
      | goto target =>
        obtain ⟨rfl, rfl⟩ := (resumes_goto_closing I hpre target).mp hresumes
        exact ⟨_, ⟨_, _, hitem, (resumes_goto hpre target).mpr ⟨rfl, rfl⟩⟩, rfl⟩
      | _ =>
        obtain ⟨rfl, rfl⟩ := hresumes
        exact ⟨_, ⟨_, _, hitem, ⟨rfl, rfl⟩⟩, rfl⟩
    · rintro ⟨u, ⟨t, b, hitem, hresumes⟩, rfl⟩
      cases t with
      | normal => exact ⟨_, _, hitem, ih.mpr ⟨u, hresumes, rfl⟩⟩
      | goto target =>
        obtain ⟨rfl, rfl⟩ := (resumes_goto hpre target).mp hresumes
        exact ⟨_, _, hitem, (resumes_goto_closing I hpre target).mpr ⟨rfl, rfl⟩⟩
      | _ =>
        obtain ⟨rfl, rfl⟩ := hresumes
        exact ⟨_, _, hitem, ⟨rfl, rfl⟩⟩

theorem block_append_closing (I : Sense σ V X) (hpre : ∀ item ∈ pre, item.name = none) :
    Block (pre ++ closing I name) a s c ↔ ∃ t, Block pre a t c ∧ s = t.landing name :=
  runs_append_closing I hpre

/-- Without labels, one statement is done behind the other. -/
theorem runs_cons_of_unnamed (hwhole : ∀ item ∈ whole, item.name = none) :
    Runs whole (item :: rest) a s c ↔
      (∃ b, item.does a .normal b ∧ Runs whole rest b s c) ∨ item.does a s c ∧ s ≠ .normal := by
  rw [runs_cons]
  constructor
  · rintro ⟨t, b, hitem, hresumes⟩
    cases t with
    | normal => exact .inl ⟨b, hitem, hresumes⟩
    | goto target =>
      obtain ⟨rfl, rfl⟩ := (resumes_goto hwhole target).mp hresumes
      exact .inr ⟨hitem, nofun⟩
    | _ =>
      obtain ⟨rfl, rfl⟩ := hresumes
      exact .inr ⟨hitem, nofun⟩
  · rintro (⟨b, hitem, hrest⟩ | ⟨hitem, hnormal⟩)
    · exact ⟨_, b, hitem, hrest⟩
    · refine ⟨s, c, hitem, ?_⟩
      cases s with
      | normal => exact absurd rfl hnormal
      | goto target => exact (resumes_goto hwhole target).mpr ⟨rfl, rfl⟩
      | _ => exact ⟨rfl, rfl⟩

/-- Without labels, it does not matter in which list statements stand. -/
theorem runs_congr_of_unnamed {other : List (Item σ V X)} (hwhole : ∀ item ∈ whole, item.name = none)
    (hother : ∀ item ∈ other, item.name = none) : Runs whole rest a s c ↔ Runs other rest a s c := by
  induction rest generalizing a with
  | nil => rw [runs_nil, runs_nil]
  | cons item rest ih =>
    rw [runs_cons_of_unnamed hwhole, runs_cons_of_unnamed hother]
    simp only [ih]

theorem runs_last (hwhole : ∀ item ∈ whole, item.name = none) : Runs whole [item] a s c ↔ item.does a s c := by
  rw [runs_cons_of_unnamed hwhole]
  simp only [runs_nil]
  constructor
  · rintro (⟨b, hitem, rfl, rfl⟩ | ⟨hitem, -⟩)
    · exact hitem
    · exact hitem
  · intro hitem
    by_cases hnormal : s = .normal
    · exact .inl ⟨c, hnormal ▸ hitem, hnormal, rfl⟩
    · exact .inr ⟨hitem, hnormal⟩

theorem block_single {m : Meaning σ V X} : Block [⟨none, m⟩] a s c ↔ m a s c := runs_last (by simp)

/-- A statement, and perhaps a label behind it. -/
theorem block_closed (I : Sense σ V X) {m : Meaning σ V X} :
    Block (⟨none, m⟩ :: closing I name) a s c ↔ ∃ t, m a t c ∧ s = t.landing name := by
  have hunnamed : ∀ item ∈ [(⟨none, m⟩ : Item σ V X)], item.name = none := by simp
  refine (block_append_closing I hunnamed).trans ?_
  simp only [block_single]

theorem block_pair {m m' : Meaning σ V X} :
    Block [⟨none, m⟩, ⟨none, m'⟩] a s c ↔ (∃ b, m a .normal b ∧ m' b s c) ∨ m a s c ∧ s ≠ .normal := by
  have hunnamed : ∀ item ∈ [⟨none, m⟩, ⟨none, m'⟩], Item.name item = none := by simp
  rw [Block, runs_cons_of_unnamed hunnamed]
  simp only [runs_last hunnamed]

end Combined

end Outline

end Scribe
