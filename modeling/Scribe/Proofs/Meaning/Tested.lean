import Scribe.Flow
import Scribe.Proofs.Meaning.Outline

/-!
# Two forms of a loop with a test

A loop whose body is a conditional that leaves the loop when its test fails is written as a `while` with that test. In
the plain form it would be a `while (true)` around an `if` with the jump in its `else`.

The two forms have the same rounds, and they end in the same ways (`TestedLoop.Ends`) as long as no `break` in the body
ends them. The plain form is done with such a `break`, while the written form goes on to hand on the default value
(`written_iff`, `plain_iff`).
-/

namespace Scribe

open Relation (ReflTransGen)
open Outline (Signal Sense Meaning Do Block Loop items closing)

/-- The parts of a loop with a test. -/
structure TestedLoop where
  test : String
  body : String
  /-- The label behind the body, when a jump needs it. -/
  again : Option String
  /-- The label behind the loop, when a jump needs it. -/
  exit : Option String
  /-- How the loop hands on its value. -/
  tail : Tail
  /-- The value that is handed on when the test fails. -/
  fallback : String

namespace TestedLoop

variable (l : TestedLoop)

/-- What hands on the value behind the loop. -/
def handsOn : List Outline :=
  match l.tail with
  | .discard => []
  | .result => [.result l.fallback]
  | .assign name => [.assign name l.fallback]

/-- The jump out of the loop. -/
def leaving : List Outline :=
  match l.tail with
  | .discard => [.exit]
  | .result => [.result l.fallback]
  | .assign name => [.assign name l.fallback, .exit]

/-- What is inside the `while` with the test. -/
def inside : List Outline := .other l.body :: l.again.toList.map .label

/-- What is inside the `while (true)`. -/
def insidePlain : List Outline := .branch l.test [.other l.body] l.leaving :: l.again.toList.map .label

/-- The `while` with the test. -/
def tested : Outline := .loop (some l.test) l.inside

/-- The `while (true)` with a conditional in it. -/
def endless : Outline := .loop none l.insidePlain

/-- The loop as it is written. -/
def written : List Outline := l.tested :: (l.handsOn ++ l.exit.toList.map .label)

/-- The loop in its plain form. -/
def plain : List Outline := l.endless :: l.exit.toList.map .label

/-! ## What both forms do -/

section Meaning

variable {σ V X : Type} (I : Sense σ V X)

/-- A round with which the loop goes on. -/
def Round (a c : σ) : Prop :=
  ∃ b s, I.test l.test a (.ok true) b ∧ I.other l.body b s c ∧ (s.landing l.again).GoesOn

/-- The ways in which the loop ends, except by a `break` in its body. -/
inductive Ends : Meaning σ V X
  /-- The test fails, and the default value is handed on. -/
  | tested {a b c d : σ} {s : Signal V X} : ReflTransGen (l.Round I) a b → I.test l.test b (.ok false) c →
      Do I l.handsOn c s d → Ends a s d
  /-- There is no value of the test. -/
  | failed {a b c : σ} {x : X} : ReflTransGen (l.Round I) a b → I.test l.test b (.error x) c →
      Ends a (.failure x) c
  /-- The body is left otherwise. A jump to the label behind the loop ends there. -/
  | left {a b c d : σ} {s : Signal V X} : ReflTransGen (l.Round I) a b → I.test l.test b (.ok true) c →
      I.other l.body c s d → ¬(s.landing l.again).GoesOn → s ≠ .exit → Ends a (s.landing l.exit) d

/-- The loop is left by a `break` in its body. -/
def Breaks (a d : σ) : Prop :=
  ∃ b c, ReflTransGen (l.Round I) a b ∧ I.test l.test b (.ok true) c ∧ I.other l.body c .exit d

variable {l I} {a b c d : σ} {s t : Signal V X}

theorem do_nil : Do I [] a s c ↔ s = .normal ∧ c = a := Outline.runs_nil

theorem do_assign {name value : String} : Do I [.assign name value] a s c ↔
    I.withValue value (fun v b s c => s = .normal ∧ c = I.store name v b) a s c :=
  Outline.block_single

theorem do_result {value : String} : Do I [.result value] a s c ↔
    I.withValue value (fun v b s c => s = .result (some v) ∧ c = b) a s c :=
  Outline.block_single

theorem do_exit : Do I [.exit] a s c ↔ s = .exit ∧ c = a := Outline.block_single

theorem do_assign_exit {name value : String} : Do I [.assign name value, .exit] a s c ↔
    I.withValue value (fun v b s c => s = .exit ∧ c = I.store name v b) a s c := by
  refine Outline.block_pair.trans ⟨?_, ?_⟩
  · rintro (⟨b, ⟨v, m, hvalue, -, rfl⟩ | ⟨x, -, hx⟩, rfl, rfl⟩ | ⟨⟨v, m, -, hs, -⟩ | hfails, hnormal⟩)
    · exact .inl ⟨v, m, hvalue, rfl, rfl⟩
    · cases hx
    · exact absurd hs hnormal
    · exact .inr hfails
  · rintro (⟨v, m, hvalue, rfl, rfl⟩ | ⟨x, hvalue, rfl⟩)
    · exact .inl ⟨_, .inl ⟨v, m, hvalue, rfl, rfl⟩, rfl, rfl⟩
    · exact .inr ⟨.inr ⟨x, hvalue, rfl⟩, nofun⟩

/-- What hands on a value does not jump. -/
theorem handsOn_landing (h : Do I l.handsOn a s c) (name : Option String) : s.landing name = s := by
  unfold handsOn at h
  cases htail : l.tail with
  | discard =>
    rw [htail, do_nil] at h
    obtain ⟨rfl, -⟩ := h
    rfl
  | result =>
    rw [htail, do_result] at h
    obtain ⟨v, b, -, rfl, -⟩ | ⟨x, -, rfl⟩ := h <;> rfl
  | assign taker =>
    rw [htail, do_assign] at h
    obtain ⟨v, b, -, rfl, -⟩ | ⟨x, -, rfl⟩ := h <;> rfl

/-- Behind the jump out of the loop no other round follows. -/
theorem leaving_stops (h : Do I l.leaving a t c) (name : Option String) : t.landing name = t ∧ ¬t.GoesOn := by
  unfold leaving at h
  cases htail : l.tail with
  | discard =>
    rw [htail, do_exit] at h
    obtain ⟨rfl, -⟩ := h
    exact ⟨rfl, nofun⟩
  | result =>
    rw [htail, do_result] at h
    obtain ⟨v, b, -, rfl, -⟩ | ⟨x, -, rfl⟩ := h <;> exact ⟨rfl, nofun⟩
  | assign taker =>
    rw [htail, do_assign_exit] at h
    obtain ⟨v, b, -, rfl, -⟩ | ⟨x, -, rfl⟩ := h <;> exact ⟨rfl, nofun⟩

theorem withValue_outside {value : String} {f g : V → Meaning σ V X}
    (h : ∀ v b s c, f v b s c ↔ ∃ t, g v b t c ∧ s = t.outside) :
    I.withValue value f a s c ↔ ∃ t, I.withValue value g a t c ∧ s = t.outside := by
  constructor
  · rintro (⟨v, b, hvalue, hf⟩ | ⟨x, hvalue, rfl⟩)
    · obtain ⟨t, hg, rfl⟩ := (h v b s c).mp hf
      exact ⟨t, .inl ⟨v, b, hvalue, hg⟩, rfl⟩
    · exact ⟨_, .inr ⟨x, hvalue, rfl⟩, rfl⟩
  · rintro ⟨t, ⟨v, b, hvalue, hg⟩ | ⟨x, hvalue, rfl⟩, rfl⟩
    · exact .inl ⟨v, b, hvalue, (h v b _ c).mpr ⟨t, hg, rfl⟩⟩
    · exact .inr ⟨x, hvalue, rfl⟩

/-- The jump out of the loop hands on the value as well. -/
theorem handsOn_iff_leaving : Do I l.handsOn a s c ↔ ∃ t, Do I l.leaving a t c ∧ s = t.outside := by
  have hends (t : Signal V X) (b c : σ) (s : Signal V X) :
      s = t.outside ∧ c = b ↔ ∃ u, (u = t ∧ c = b) ∧ s = u.outside := by
    constructor
    · rintro ⟨rfl, rfl⟩
      exact ⟨t, ⟨rfl, rfl⟩, rfl⟩
    · rintro ⟨u, ⟨rfl, rfl⟩, rfl⟩
      exact ⟨rfl, rfl⟩
  unfold handsOn leaving
  cases l.tail with
  | discard =>
    simp only [do_nil, do_exit]
    exact hends .exit a c s
  | result =>
    simp only [do_result]
    exact withValue_outside fun v b s c => hends (.result (some v)) b c s
  | assign taker =>
    simp only [do_assign, do_assign_exit]
    exact withValue_outside fun v b s c => hends .exit (I.store taker v b) c s

/-! ## The loop with its test -/

theorem inside_iff : Do I l.inside b s c ↔ ∃ t, I.other l.body b t c ∧ s = t.landing l.again :=
  Outline.block_closed I

theorem round_tested : Outline.Round (I.test l.test) (Do I l.inside) = l.Round I := by
  funext a c
  refine propext ⟨?_, ?_⟩
  · rintro ⟨b, s, htest, hbody, hgoes⟩
    obtain ⟨t, hother, rfl⟩ := inside_iff.mp hbody
    exact ⟨b, t, htest, hother, hgoes⟩
  · rintro ⟨b, t, htest, hbody, hgoes⟩
    exact ⟨b, _, htest, inside_iff.mpr ⟨t, hbody, rfl⟩, hgoes⟩

/-- The `while` ends when the test fails, when there is no value of the test, or when the body is left. -/
theorem tested_iff : l.tested.does I a s d ↔ ∃ b, ReflTransGen (l.Round I) a b ∧
    ((I.test l.test b (.ok false) d ∧ s = .normal) ∨ (∃ x, I.test l.test b (.error x) d ∧ s = .failure x) ∨
      ∃ c t, I.test l.test b (.ok true) c ∧ I.other l.body c t d ∧ ¬(t.landing l.again).GoesOn ∧ s = t.outside) := by
  refine Outline.loop_iff.trans (exists_congr fun b => and_congr ?_ (or_congr Iff.rfl (or_congr Iff.rfl ?_)))
  · rw [← round_tested]
    rfl
  · constructor
    · rintro ⟨c, u, htest, hbody, hstops, rfl⟩
      obtain ⟨t, hother, rfl⟩ := inside_iff.mp hbody
      exact ⟨c, t, htest, hother, hstops, Signal.landing_outside _ hstops⟩
    · rintro ⟨c, t, htest, hother, hstops, rfl⟩
      exact ⟨c, _, htest, inside_iff.mpr ⟨t, hother, rfl⟩, hstops, (Signal.landing_outside _ hstops).symm⟩

/-- **The loop as it is written.** A `break` in its body comes out in front of what hands on the default value. -/
theorem written_iff : Do I l.written a s d ↔ l.Ends I a s d ∨ ∃ c, l.Breaks I a c ∧ Do I l.handsOn c s d := by
  have hitems : items I l.written = (⟨none, l.tested.does I⟩ :: items I l.handsOn) ++ closing I l.exit := by
    unfold written handsOn
    cases l.tail <;> rfl
  have hunnamed : ∀ item ∈ items I l.handsOn, item.name = none := by
    unfold handsOn
    cases l.tail <;> simp [items]
  have hall : ∀ item ∈ (⟨none, l.tested.does I⟩ :: items I l.handsOn : List (Outline.Item σ V X)), item.name = none :=
    List.forall_mem_cons.mpr ⟨rfl, hunnamed⟩
  have hsequence : Do I l.written a s d ↔ ∃ t, ((∃ b, l.tested.does I a .normal b ∧ Do I l.handsOn b t d) ∨
      l.tested.does I a t d ∧ t ≠ .normal) ∧ s = t.landing l.exit := by
    unfold Do Block
    rw [hitems, Outline.runs_append_closing I hall]
    simp only [Outline.runs_cons_of_unnamed hall, Outline.runs_congr_of_unnamed hall hunnamed]
  -- a jump to the label at the end is taken in there, wherever it comes from
  rw [hsequence]
  constructor
  · rintro ⟨t, ⟨c, htested, hhands⟩ | ⟨htested, hnormal⟩, rfl⟩
    · rw [handsOn_landing hhands]
      obtain ⟨b, hrounds, ⟨htest, -⟩ | ⟨x, -, hx⟩ | ⟨m, u, htest, hother, hstops, hu⟩⟩ := tested_iff.mp htested
      · exact .inl (.tested hrounds htest hhands)
      · cases hx
      · have hexit : u = .exit := Signal.eq_exit_of_outside hstops hu.symm
        exact .inr ⟨c, ⟨b, m, hrounds, htest, hexit ▸ hother⟩, hhands⟩
    · obtain ⟨b, hrounds, ⟨-, ht⟩ | ⟨x, htest, rfl⟩ | ⟨m, u, htest, hother, hstops, rfl⟩⟩ := tested_iff.mp htested
      · exact absurd ht hnormal
      · exact .inl (.failed hrounds htest)
      · have hexit : u ≠ .exit := by
          rintro rfl
          exact hnormal rfl
        rw [Signal.outside_of_ne hexit]
        exact .inl (.left hrounds htest hother hstops hexit)
  · rintro (hends | ⟨c, ⟨b, m, hrounds, htest, hother⟩, hhands⟩)
    · cases hends with
      | tested hrounds htest hhands =>
        exact ⟨s, .inl ⟨_, tested_iff.mpr ⟨_, hrounds, .inl ⟨htest, rfl⟩⟩, hhands⟩, (handsOn_landing hhands _).symm⟩
      | failed hrounds htest =>
        exact ⟨_, .inr ⟨tested_iff.mpr ⟨_, hrounds, .inr (.inl ⟨_, htest, rfl⟩)⟩, nofun⟩, rfl⟩
      | left hrounds htest hother hstops hexit =>
        refine ⟨_, .inr ⟨tested_iff.mpr ⟨_, hrounds, .inr (.inr ⟨_, _, htest, hother, hstops, ?_⟩)⟩, ?_⟩, rfl⟩
        · exact (Signal.outside_of_ne hexit).symm
        · rintro rfl
          exact hstops (.inl rfl)
    · have htested : l.tested.does I a .normal c :=
        tested_iff.mpr ⟨b, hrounds, .inr (.inr ⟨m, .exit, htest, hother, nofun, rfl⟩)⟩
      exact ⟨s, .inl ⟨c, htested, hhands⟩, (handsOn_landing hhands _).symm⟩

/-! ## The plain form -/

/-- What the conditional in the plain form does. -/
theorem branch_iff : Outline.does I (.branch l.test [.other l.body] l.leaving) a s c ↔
    (∃ b, I.test l.test a (.ok true) b ∧ I.other l.body b s c) ∨
    (∃ b, I.test l.test a (.ok false) b ∧ Do I l.leaving b s c) ∨
    ∃ x, I.test l.test a (.error x) c ∧ s = .failure x := by
  refine or_congr (exists_congr fun b => and_congr_right' ?_) Iff.rfl
  exact Outline.block_single

theorem insidePlain_iff : Do I l.insidePlain a s c ↔
    ∃ t, Outline.does I (.branch l.test [.other l.body] l.leaving) a t c ∧ s = t.landing l.again :=
  Outline.block_closed I

/-- The plain form has the same rounds. -/
theorem round_endless : Outline.Round (fun a r b => r = .ok true ∧ b = a) (Do I l.insidePlain) = l.Round I := by
  funext a c
  refine propext ⟨?_, ?_⟩
  · rintro ⟨_, s, ⟨-, rfl⟩, hbody, hgoes⟩
    obtain ⟨t, hbranch, rfl⟩ := insidePlain_iff.mp hbody
    obtain ⟨b, htest, hother⟩ | ⟨b, htest, hleaving⟩ | ⟨x, htest, rfl⟩ := branch_iff.mp hbranch
    · exact ⟨b, t, htest, hother, hgoes⟩
    · obtain ⟨hlanding, hstops⟩ := leaving_stops hleaving l.again
      rw [hlanding] at hgoes
      exact absurd hgoes hstops
    · obtain hgoes | hgoes := hgoes <;> cases hgoes
  · rintro ⟨b, t, htest, hother, hgoes⟩
    exact ⟨a, _, ⟨rfl, rfl⟩, insidePlain_iff.mpr ⟨t, branch_iff.mpr (.inl ⟨b, htest, hother⟩), rfl⟩, hgoes⟩

theorem endless_iff : l.endless.does I a s d ↔ ∃ b, ReflTransGen (l.Round I) a b ∧
    ∃ t, Outline.does I (.branch l.test [.other l.body] l.leaving) b t d ∧ ¬(t.landing l.again).GoesOn ∧
      s = t.outside := by
  refine Outline.loop_iff.trans (exists_congr fun b => and_congr ?_ ⟨?_, ?_⟩)
  · rw [← round_endless]
    rfl
  · rintro (⟨⟨hok, -⟩, -⟩ | ⟨x, ⟨hok, -⟩, -⟩ | ⟨_, u, ⟨-, rfl⟩, hbody, hstops, rfl⟩)
    · cases hok
    · cases hok
    · obtain ⟨t, hbranch, rfl⟩ := insidePlain_iff.mp hbody
      exact ⟨t, hbranch, hstops, Signal.landing_outside _ hstops⟩
  · rintro ⟨t, hbranch, hstops, rfl⟩
    refine .inr (.inr ⟨b, _, ⟨rfl, rfl⟩, insidePlain_iff.mpr ⟨t, hbranch, rfl⟩, hstops, ?_⟩)
    exact (Signal.landing_outside _ hstops).symm

/-- **The plain form.** A `break` in its body ends it. -/
theorem plain_iff : Do I l.plain a s d ↔ l.Ends I a s d ∨ l.Breaks I a d ∧ s = .normal := by
  have hsequence : Do I l.plain a s d ↔ ∃ t, l.endless.does I a t d ∧ s = t.landing l.exit := Outline.block_closed I
  simp only [hsequence, endless_iff]
  constructor
  · rintro ⟨_, ⟨b, hrounds, t, hbranch, hstops, rfl⟩, rfl⟩
    obtain ⟨c, htest, hother⟩ | ⟨c, htest, hleaving⟩ | ⟨x, htest, rfl⟩ := branch_iff.mp hbranch
    · by_cases hexit : t = .exit
      · subst hexit
        exact .inr ⟨⟨b, c, hrounds, htest, hother⟩, rfl⟩
      · rw [Signal.outside_of_ne hexit]
        exact .inl (.left hrounds htest hother hstops hexit)
    · have hhands : Do I l.handsOn c t.outside d := handsOn_iff_leaving.mpr ⟨t, hleaving, rfl⟩
      rw [handsOn_landing hhands]
      exact .inl (.tested hrounds htest hhands)
    · exact .inl (.failed hrounds htest)
  · rintro (hends | ⟨⟨b, c, hrounds, htest, hother⟩, rfl⟩)
    · cases hends with
      | tested hrounds htest hhands =>
        obtain ⟨t, hleaving, rfl⟩ := handsOn_iff_leaving.mp hhands
        obtain ⟨hlanding, hstops⟩ := leaving_stops hleaving l.again
        refine ⟨_, ⟨_, hrounds, t, branch_iff.mpr (.inr (.inl ⟨_, htest, hleaving⟩)), ?_, rfl⟩, ?_⟩
        · rw [hlanding]
          exact hstops
        · exact (handsOn_landing hhands _).symm
      | failed hrounds htest =>
        exact ⟨_, ⟨_, hrounds, _, branch_iff.mpr (.inr (.inr ⟨_, htest, rfl⟩)), nofun, rfl⟩, rfl⟩
      | left hrounds htest hother hstops hexit =>
        refine ⟨_, ⟨_, hrounds, _, branch_iff.mpr (.inl ⟨_, htest, hother⟩), hstops, rfl⟩, ?_⟩
        rw [Signal.outside_of_ne hexit]
    · exact ⟨.normal, ⟨b, hrounds, .exit, branch_iff.mpr (.inl ⟨c, htest, hother⟩), nofun, rfl⟩, rfl⟩

/-! ## The two forms compared -/

/-- How what the loop does as it is written compares with its plain form. -/
structure Compares (l : TestedLoop) (I : Sense σ V X) : Prop where
  /-- Both go through the same rounds, so that one goes on for ever when the other does. -/
  rounds : ∀ a c, Outline.Round (I.test l.test) (Do I l.inside) a c ↔
    Outline.Round (fun a r b => r = .ok true ∧ b = a) (Do I l.insidePlain) a c
  /-- Where nothing is handed on, both do the same. -/
  discards : l.tail = .discard → ∀ a s d, Do I l.written a s d ↔ Do I l.plain a s d
  /-- Where no `break` in the body ends the loop, both do the same. -/
  unbroken : ∀ a, (∀ c, ¬l.Breaks I a c) → ∀ s d, Do I l.written a s d ↔ Do I l.plain a s d
  /-- Where a `break` in the body ends the loop, the plain form is done, and the other one goes on to hand on the
  default value. -/
  broken : ∀ a c, l.Breaks I a c → Do I l.plain a .normal c ∧ ∀ s d, Do I l.handsOn c s d → Do I l.written a s d
  /-- When the test fails, the variable that takes over the value has the default value. -/
  tested : ∀ {name a b c d v}, l.tail = .assign name → ReflTransGen (l.Round I) a b → I.test l.test b (.ok false) c →
    I.value l.fallback c (.ok v) d → Do I l.written a .normal (I.store name v d)
  /-- A jump to the label behind the loop keeps the value that was stored before. -/
  kept : ∀ {name a b c d}, l.exit = some name → l.again ≠ some name → ReflTransGen (l.Round I) a b →
    I.test l.test b (.ok true) c → I.other l.body c (.goto name) d → Do I l.written a .normal d

theorem compares (l : TestedLoop) (I : Sense σ V X) : l.Compares I where
  rounds a c := by
    rw [round_tested, round_endless]
  discards htail a s d := by
    have hhands (c : σ) : Do I l.handsOn c s d ↔ s = .normal ∧ d = c := by
      rw [handsOn, htail]
      exact do_nil
    rw [written_iff, plain_iff]
    simp only [hhands]
    refine or_congr Iff.rfl ⟨?_, ?_⟩
    · rintro ⟨c, hbreaks, rfl, rfl⟩
      exact ⟨hbreaks, rfl⟩
    · rintro ⟨hbreaks, rfl⟩
      exact ⟨d, hbreaks, rfl, rfl⟩
  unbroken a hunbroken s d := by
    rw [written_iff, plain_iff]
    refine or_congr Iff.rfl ⟨?_, ?_⟩
    · rintro ⟨c, hbreaks, -⟩
      exact absurd hbreaks (hunbroken c)
    · rintro ⟨hbreaks, -⟩
      exact absurd hbreaks (hunbroken d)
  broken a c hbreaks := by
    constructor
    · exact plain_iff.mpr (.inr ⟨hbreaks, rfl⟩)
    · exact fun s d hhands => written_iff.mpr (.inr ⟨c, hbreaks, hhands⟩)
  tested htail hrounds htest hvalue := by
    refine written_iff.mpr (.inl (.tested hrounds htest ?_))
    rw [handsOn, htail]
    exact do_assign.mpr (.inl ⟨_, _, hvalue, rfl, rfl⟩)
  kept {name} _ _ _ _ hexit hagain hrounds htest hother := by
    have hstays : Signal.landing l.again (.goto name) = (.goto name : Signal V X) := if_neg hagain
    have hlands : Signal.landing l.exit (.goto name) = (.normal : Signal V X) := if_pos hexit
    rw [← hlands]
    refine written_iff.mpr (.inl (.left hrounds htest hother ?_ nofun))
    rw [hstays]
    exact nofun

end Meaning

end TestedLoop

end Scribe
