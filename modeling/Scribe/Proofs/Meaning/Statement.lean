import Mathlib.Logic.Function.Basic
import Scribe.Proofs.Meaning.Expression
import Scribe.Proofs.Reading.Routine

/-!
# Executing statements

What the statements of a script do. A statement ends with a signal: it goes on with the next one, it leaves
or repeats the loop around it, it goes to a label, or it returns. A `goto` ends everything up to the list of
statements that has the label, and goes on behind the label there.

`Stmt.exec` takes fuel. `Does` and `Runs` say what happens with some fuel; since more fuel changes no result
(`exec_mono`), they are closed under the steps of an execution, one lemma for each.
-/

namespace Scribe.Reading

variable {test : Expr} {body s : Stmt} {rest whole : List Stmt} {x : String}

/-- How a statement ends. -/
inductive Signal where
  /-- With the statement behind it. -/
  | normal
  /-- By leaving the loop around it. -/
  | exit
  /-- With the next round of the loop around it. -/
  | again
  /-- At a label. -/
  | goto (target : String)
  /-- By returning from the method. -/
  | result (d : Option Datum)
deriving DecidableEq, Repr

/-- The values of names. -/
abbrev Env := String → Datum

/-- The statements behind a label. -/
def behind (name : String) : List Stmt → Option (List Stmt)
  | [] => none
  | .label x :: ss => if x = name then some ss else behind name ss
  | _ :: ss => behind name ss

/-! ## Execution -/

mutual

/-- Executes a statement: its signal, and the values of names behind it. -/
def Stmt.exec : Nat → Stmt → Env → Option (Signal × Env)
  | 0, _, _ => none
  | _ + 1, .empty, σ => some (.normal, σ)
  | _ + 1, .label _, σ => some (.normal, σ)
  | _ + 1, .exit, σ => some (.exit, σ)
  | _ + 1, .again, σ => some (.again, σ)
  | _ + 1, .goto target, σ => some (.goto target, σ)
  | _ + 1, .result none, σ => some (.result none, σ)
  | _ + 1, .result (some e), σ =>
    match e.eval σ with
    | .ok d => some (.result (some d), σ)
    | .error _ => none
  | _ + 1, .assign target e, σ =>
    match e.eval σ with
    | .ok d => some (.normal, Function.update σ target d)
    | .error _ => none
  | n + 1, .block body, σ => execFrom n body body σ
  | n + 1, .branch test ifTrue ifFalse, σ =>
    match test.eval σ with
    | .ok (.bool b) => (if b then ifTrue else ifFalse).exec n σ
    | _ => none
  | n + 1, .loop test body, σ =>
    match test.eval σ with
    | .ok (.bool true) =>
      match body.exec n σ with
      | some (.normal, σ) | some (.again, σ) => (Stmt.loop test body).exec n σ
      | some (.exit, σ) => some (.normal, σ)
      | outcome => outcome
    | .ok (.bool false) => some (.normal, σ)
    | _ => none

/-- Executes the statements `rest` of the list `whole`, in which labels are looked up. -/
def execFrom : Nat → List Stmt → List Stmt → Env → Option (Signal × Env)
  | 0, _, _, _ => none
  | _ + 1, _, [], σ => some (.normal, σ)
  | n + 1, whole, s :: rest, σ =>
    match s.exec n σ with
    | some (.normal, σ) => execFrom n whole rest σ
    | some (.goto target, σ) =>
      match behind target whole with
      | some ss => execFrom n whole ss σ
      | none => some (.goto target, σ)
    | outcome => outcome

end

/-- Calls a method: the values that its parameters have in the end, and its result. -/
def Routine.call (r : Routine) (n : Nat) (args : List Datum) : Option (List Datum × Option Datum) :=
  let names := r.params.map (·.2)
  match execFrom n r.body r.body (bindArgs names args) with
  | some (.normal, σ) => some (names.map σ, none)
  | some (.result d, σ) => some (names.map σ, d)
  | _ => none

/-! ## More fuel -/

/-- With this fuel, whatever has a result has it with one more step of fuel as well. -/
structure Grows (n : Nat) : Prop where
  exec {s : Stmt} {σ : Env} {r : Signal × Env} : s.exec n σ = some r → s.exec (n + 1) σ = some r
  execFrom {whole rest : List Stmt} {σ : Env} {r : Signal × Env} :
    execFrom n whole rest σ = some r → Reading.execFrom (n + 1) whole rest σ = some r

section Growth

variable {n : Nat} {σ : Env} {r : Signal × Env}

theorem Grows.loop (h : Grows n)
    (hr : (Stmt.loop test body).exec (n + 1) σ = some r) : (Stmt.loop test body).exec (n + 2) σ = some r := by
  rw [Stmt.exec] at hr ⊢
  split at hr
  · cases hbody : body.exec n σ with
    | none =>
      rw [hbody] at hr
      cases hr
    | some outcome =>
      obtain ⟨signal, σ'⟩ := outcome
      rw [hbody] at hr
      rw [h.exec hbody]
      cases signal
      case normal => exact h.exec hr
      case again => exact h.exec hr
      all_goals exact hr
  · exact hr
  · cases hr

theorem Grows.cons (h : Grows n) (hr : Reading.execFrom (n + 1) whole (s :: rest) σ = some r) :
    Reading.execFrom (n + 2) whole (s :: rest) σ = some r := by
  rw [Reading.execFrom] at hr ⊢
  cases hs : s.exec n σ with
  | none =>
    rw [hs] at hr
    cases hr
  | some outcome =>
    obtain ⟨signal, σ'⟩ := outcome
    rw [hs] at hr
    rw [h.exec hs]
    cases signal
    case normal => exact h.execFrom hr
    case goto target =>
      simp only at hr ⊢
      split at hr
      · exact h.execFrom hr
      · exact hr
    all_goals exact hr

end Growth

/-- **More fuel changes no result.** -/
theorem grows (n : Nat) : Grows n := by
  induction n with
  | zero =>
    constructor
    · intro s σ r h
      rw [Stmt.exec] at h
      cases h
    · intro whole rest σ r h
      rw [execFrom] at h
      cases h
  | succ n ih =>
    constructor
    · intro s σ r h
      cases s with
      | block body =>
        rw [Stmt.exec] at h ⊢
        exact ih.execFrom h
      | branch test ifTrue ifFalse =>
        rw [Stmt.exec] at h ⊢
        split at h
        · exact ih.exec h
        · cases h
      | loop test body => exact ih.loop h
      | result e =>
        cases e <;> (rw [Stmt.exec] at h ⊢; exact h)
      | _ =>
        rw [Stmt.exec] at h ⊢
        exact h
    · intro whole rest σ r h
      cases rest with
      | nil =>
        rw [execFrom] at h ⊢
        exact h
      | cons s rest => exact ih.cons h

theorem Stmt.exec_mono {n m : Nat} (hnm : n ≤ m) {σ : Env} {r : Signal × Env}
    (h : s.exec n σ = some r) : s.exec m σ = some r := by
  induction hnm with
  | refl => exact h
  | step _ ih => exact (grows _).exec ih

theorem execFrom_mono {n m : Nat} (hnm : n ≤ m) {σ : Env} {r : Signal × Env}
    (h : execFrom n whole rest σ = some r) : execFrom m whole rest σ = some r := by
  induction hnm with
  | refl => exact h
  | step _ ih => exact (grows _).execFrom ih

/-! ## Steps of an execution -/

/-- With some fuel, the statement ends like this. -/
def Does (s : Stmt) (σ : Env) (r : Signal × Env) : Prop := ∃ n, s.exec n σ = some r

/-- With some fuel, the statements `rest` of the list `whole` end like this. -/
def Runs (whole rest : List Stmt) (σ : Env) (r : Signal × Env) : Prop := ∃ n, execFrom n whole rest σ = some r

/-- How the list `whole` goes on when a statement in front of `rest` ends with a signal. -/
def Resumes (whole rest : List Stmt) (signal : Signal) (σ : Env) (r : Signal × Env) : Prop :=
  match signal with
  | .normal => Runs whole rest σ r
  | .goto target =>
    match behind target whole with
    | some ss => Runs whole ss σ r
    | none => r = (.goto target, σ)
  | signal => r = (signal, σ)

section Steps

variable {σ σ' : Env} {r : Signal × Env} {signal : Signal}

theorem Runs.nil (whole : List Stmt) (σ : Env) : Runs whole [] σ (.normal, σ) :=
  ⟨1, by rw [execFrom]⟩

theorem Runs.cons (hs : Does s σ (signal, σ')) (h : Resumes whole rest signal σ' r) : Runs whole (s :: rest) σ r := by
  obtain ⟨n, hn⟩ := hs
  -- Both the statement and what follows run with the larger fuel.
  have hmore {ss : List Stmt} (hss : Runs whole ss σ' r) :
      ∃ m, s.exec m σ = some (signal, σ') ∧ execFrom m whole ss σ' = some r := by
    obtain ⟨k, hk⟩ := hss
    exact ⟨max n k, Stmt.exec_mono (Nat.le_max_left n k) hn, execFrom_mono (Nat.le_max_right n k) hk⟩
  cases signal with
  | normal =>
    obtain ⟨m, hm, hrest⟩ := hmore h
    exact ⟨m + 1, by rw [execFrom, hm]; exact hrest⟩
  | goto target =>
    simp only [Resumes] at h
    split at h
    · next ss hss =>
      obtain ⟨m, hm, hrest⟩ := hmore h
      refine ⟨m + 1, ?_⟩
      rw [execFrom, hm]
      simp only [hss]
      exact hrest
    · next hss =>
      refine ⟨n + 1, ?_⟩
      rw [execFrom, hn]
      simp only [hss]
      rw [h]
  | _ =>
    refine ⟨n + 1, ?_⟩
    rw [execFrom, hn, h]

theorem Does.block {body : List Stmt} (h : Runs body body σ r) : Does (.block body) σ r := by
  obtain ⟨n, hn⟩ := h
  exact ⟨n + 1, by rw [Stmt.exec]; exact hn⟩

theorem Does.branch {b : Bool} (htest : test.eval σ = .ok (.bool b)) {ifTrue ifFalse : Stmt}
    (h : Does (if b then ifTrue else ifFalse) σ r) : Does (.branch test ifTrue ifFalse) σ r := by
  obtain ⟨n, hn⟩ := h
  exact ⟨n + 1, by rw [Stmt.exec, htest]; exact hn⟩

theorem Does.loop_next (htest : test.eval σ = .ok (.bool true)) (hbody : Does body σ (signal, σ'))
    (hsignal : signal = .normal ∨ signal = .again) (h : Does (.loop test body) σ' r) : Does (.loop test body) σ r := by
  obtain ⟨n, hn⟩ := hbody
  obtain ⟨k, hk⟩ := h
  refine ⟨max n k + 1, ?_⟩
  rw [Stmt.exec, htest]
  simp only [Stmt.exec_mono (Nat.le_max_left n k) hn]
  rcases hsignal with rfl | rfl <;> exact Stmt.exec_mono (Nat.le_max_right n k) hk

theorem Does.loop_exit (htest : test.eval σ = .ok (.bool true))
    (hbody : Does body σ (.exit, σ')) : Does (.loop test body) σ (.normal, σ') := by
  obtain ⟨n, hn⟩ := hbody
  exact ⟨n + 1, by rw [Stmt.exec, htest]; simp only [hn]⟩

theorem Does.loop_goto {target : String} (htest : test.eval σ = .ok (.bool true))
    (hbody : Does body σ (.goto target, σ')) : Does (.loop test body) σ (.goto target, σ') := by
  obtain ⟨n, hn⟩ := hbody
  exact ⟨n + 1, by rw [Stmt.exec, htest]; simp only [hn]⟩

theorem Does.loop_done (body : Stmt) (htest : test.eval σ = .ok (.bool false)) :
    Does (.loop test body) σ (.normal, σ) :=
  ⟨1, by rw [Stmt.exec, htest]⟩

end Steps

/-! ## Segments of a list -/

/-- The labels in a list of statements, without those inside the statements. -/
def labelNames (ss : List Stmt) : List String :=
  ss.filterMap fun
    | .label x => some x
    | _ => none

theorem labelNames_append (ss rs : List Stmt) : labelNames (ss ++ rs) = labelNames ss ++ labelNames rs :=
  List.filterMap_append

/-- A label that is not in the list is not found. -/
theorem behind_eq_none {ss : List Stmt} (h : x ∉ labelNames ss) : behind x ss = none := by
  induction ss with
  | nil => rfl
  | cons s ss ih =>
    cases s with
    | label y =>
      have hparts : ¬ (x = y ∨ x ∈ labelNames ss) := by simpa [labelNames] using h
      rw [behind, if_neg fun heq => hparts (Or.inl heq.symm)]
      exact ih fun hmem => hparts (Or.inr hmem)
    | _ => exact ih h

theorem behind_label {pre : List Stmt} (h : x ∉ labelNames pre) (ss : List Stmt) :
    behind x (pre ++ .label x :: ss) = some ss := by
  induction pre with
  | nil => exact if_pos rfl
  | cons s pre ih =>
    cases s with
    | label y =>
      have hparts : ¬ (x = y ∨ x ∈ labelNames pre) := by simpa [labelNames] using h
      rw [List.cons_append, behind, if_neg fun heq => hparts (Or.inl heq.symm)]
      exact ih fun hmem => hparts (Or.inr hmem)
    | _ => exact ih h

/-- Whatever list the statements `ss` stand in, they end with the signal; in front of them the list has
none of the labels `names`. -/
def Leads (names : List String) (ss : List Stmt) (σ : Env) (signal : Signal) (σ' : Env) : Prop :=
  ∀ pre post r, (∀ x ∈ labelNames pre, x ∉ names) →
    Resumes (pre ++ (ss ++ post)) post signal σ' r → Runs (pre ++ (ss ++ post)) (ss ++ post) σ r

section Segments

variable {names : List String} {ss rs : List Stmt} {σ σ' σ'' : Env} {signal : Signal}

theorem Leads.nil (names : List String) (σ : Env) : Leads names [] σ .normal σ :=
  fun _ _ _ _ h => h

theorem Does.leads (h : Does s σ (signal, σ')) (names : List String) : Leads names [s] σ signal σ' :=
  fun _ _ _ _ hresumes => .cons h hresumes

/-- Statements that go on are followed by others. -/
theorem Leads.append {names' : List String} (h : Leads names ss σ .normal σ') (h' : Leads names' rs σ' signal σ'')
    (hfresh : ∀ x ∈ labelNames ss, x ∉ names') : Leads (names ++ names') (ss ++ rs) σ signal σ'' := by
  intro pre post r hpre hresumes
  have hsecond := h' (pre ++ ss) post r ?_ ?_
  · have hfirst := h pre (rs ++ post) r fun x hx hmem => hpre x hx (List.mem_append_left names' hmem)
    rw [List.append_assoc]
    refine hfirst ?_
    rw [List.append_assoc] at hsecond
    exact hsecond
  · intro x hx
    rw [labelNames_append] at hx
    rcases List.mem_append.mp hx with hx | hx
    · exact fun hmem => hpre x hx (List.mem_append_right names hmem)
    · exact hfresh x hx
  · rw [List.append_assoc] at hresumes ⊢
    exact hresumes

/-- Statements that do not go on hide what follows them. -/
theorem Leads.append_of_ne (h : Leads names ss σ signal σ') (hsignal : signal ≠ .normal) (rs : List Stmt) :
    Leads names (ss ++ rs) σ signal σ' := by
  intro pre post r hpre hresumes
  have hfirst := h pre (rs ++ post) r hpre
  rw [List.append_assoc] at hresumes ⊢
  refine hfirst ?_
  cases signal with
  | normal => exact absurd rfl hsignal
  | _ => exact hresumes

theorem Leads.mono {names' : List String} (h : Leads names ss σ signal σ') (hsub : ∀ x ∈ names, x ∈ names') :
    Leads names' ss σ signal σ' :=
  fun pre post r hpre hresumes => h pre post r (fun x hx hmem => hpre x hx (hsub x hmem)) hresumes

/-- A block ends like its statements, when none of its own labels is meant. -/
theorem Leads.block (h : Leads names ss σ signal σ')
    (hgoto : ∀ x, signal = .goto x → x ∉ labelNames ss) : Does (.block ss) σ (signal, σ') := by
  have hwhole := h [] [] (signal, σ') (by simp [labelNames])
  simp only [List.nil_append, List.append_nil] at hwhole
  refine .block (hwhole ?_)
  cases signal with
  | normal => exact Runs.nil _ _
  | goto x => simp only [Resumes, behind_eq_none (hgoto x rfl)]
  | _ => rfl

/-- A jump to a label behind the statements goes on behind the label. -/
theorem Leads.landing (h : Leads names ss σ (.goto x) σ') (hx : x ∈ names)
    (hfresh : x ∉ labelNames ss) : Leads names (ss ++ [.label x, .empty]) σ .normal σ' := by
  intro pre post r hpre hresumes
  have hfirst := h pre ([.label x, .empty] ++ post) r hpre
  rw [List.append_assoc] at hresumes ⊢
  refine hfirst ?_
  have hfound : behind x (pre ++ (ss ++ ([.label x, .empty] ++ post))) = some (.empty :: post) := by
    rw [← List.append_assoc]
    refine behind_label (fun hmem => ?_) _
    rw [labelNames_append] at hmem
    rcases List.mem_append.mp hmem with hmem | hmem
    · exact hpre x hmem hx
    · exact hfresh hmem
  simp only [Resumes, hfound]
  exact .cons ⟨1, by rw [Stmt.exec]⟩ hresumes

end Segments

end Scribe.Reading
