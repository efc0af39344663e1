import Scribe.Proofs.Flow.Lowered

/-!
# The statements for a tree do what the tree does

A simulation: where the evaluation of a structured tree ends, the execution of its statements ends as well,
with the same values of all variables, and with a signal that fits the ending (`Ending.Signals`). A value is
returned where the tree stands for a result, and otherwise the statements go on. A jump may end in two ways:
directly, with the `break` or `continue` of the loop around it, or with a `goto` from inside another loop; in
the second case the loop that owns the label has put it where the `goto` finds it.

The induction is on the fuel of the evaluation. `Leads` describes a part of a list of statements wherever it
stands, because the statements of nested blocks become parts of one list.
-/

namespace Scribe

open Reading

/-- The signals with which the statements for a tree may end where the tree ends like this. `used` are the
labels that the tree goes to with a `goto`. -/
def Ending.Signals (ν : Ident → String) (frame : Frame) (used : List Ident) (returns : Bool) :
    Ending → Signal → Prop
  | .value d, signal => signal = if returns then .result d else .normal
  | .jump target, signal =>
    (frame.form target = .exit ∧ signal = .exit) ∨ (frame.form target = .again ∧ signal = .again) ∨
      (target ∈ used ∧ signal = .goto (ν target))

/-- The labels of a tree are different from each other and from those in scope, and they are among the labels
`ls`, which names tell apart. -/
structure Tree.Owns (t : Tree) (ls : List Ident) (scope : List Label) : Prop where
  nodup : t.labels.Nodup
  outside : ∀ l ∈ scope, l.id ∉ t.labels
  among : ∀ i ∈ t.labels, i ∈ ls
  scope : ∀ l ∈ scope, l.id ∈ ls

section Simulation

variable {ν μ : Ident → String} {vs : List Variable} {ls : List Ident}

/-- Some end of an execution fits the ending of the evaluation. -/
def Meets (ν μ : Ident → String) (vs : List Variable) (frame : Frame) (used : List Ident) (returns : Bool)
    (ending : Ending) (ρ : Ident → Datum) (ends : Signal → Env → Prop) : Prop :=
  ∃ signal σ, Agrees μ vs ρ σ ∧ ending.Signals ν frame used returns signal ∧ ends signal σ

/-- What is shown of a tree, when it is evaluated with some fuel. -/
structure Simulates (ν μ : Ident → String) (vs : List Variable) (t : Tree) (returns : Bool) (scope : List Label)
    (frame : Frame) (σ : Env) (ending : Ending) (ρ : Ident → Datum) : Prop where
  /-- Jumps lead to labels in scope. -/
  inScope : ∀ i, ending = .jump i → ∃ l ∈ scope, l.id = i
  list : Meets ν μ vs frame (t.gotos frame) returns ending ρ
    (Leads (t.labels.map ν) ((t.lowering ν μ).list returns frame) σ)
  otherwise : Meets ν μ vs frame (t.gotos frame) returns ending ρ fun signal σ' =>
    Does ((t.lowering ν μ).otherwise returns frame) σ (signal, σ')

/-- With this fuel, every structured tree is simulated. -/
def SimulatesAt (ν μ : Ident → String) (vs : List Variable) (ls : List Ident) (n : Nat) : Prop :=
  ∀ (returns : Bool) (scope : List Label) (t : Tree), Tree.Structured vs returns scope t → t.Owns ls scope →
    ∀ (frame : Frame) (ρ ρ' : Ident → Datum) (σ : Env) (ending : Ending), Agrees μ vs ρ σ →
      t.run n ρ = some (ending, ρ') → Simulates ν μ vs t returns scope frame σ ending ρ'

/-! ## Signals -/

section Signals

variable {frame : Frame} {used used' : List Ident} {returns : Bool} {ending : Ending} {signal : Signal}

theorem Ending.Signals.mono (h : ending.Signals ν frame used returns signal) (hsub : ∀ i ∈ used, i ∈ used') :
    ending.Signals ν frame used' returns signal := by
  cases ending with
  | value d => exact h
  | jump target =>
    rcases h with h | h | ⟨hmem, hgoto⟩
    · exact Or.inl h
    · exact Or.inr (Or.inl h)
    · exact Or.inr (Or.inr ⟨hsub _ hmem, hgoto⟩)

/-- A construct with a result keeps the value of its parts; for any other one the value does not matter. -/
theorem Ending.Signals.atType (h : ending.Signals ν frame used returns signal) {ty : Ty}
    (hty : returns = true → ty.isVoid = false) : (ending.atType ty).Signals ν frame used returns signal := by
  cases ending with
  | jump target => exact h
  | value d =>
    cases returns with
    | false => exact h
    | true =>
      rw [Ending.atType, hty rfl]
      exact h

theorem Meets.mono {ρ : Ident → Datum} {ends ends' : Signal → Env → Prop}
    (h : Meets ν μ vs frame used returns ending ρ ends) (hsub : ∀ i ∈ used, i ∈ used') {ty : Ty}
    (hty : returns = true → ty.isVoid = false) (hends : ∀ signal σ, ends signal σ → ends' signal σ) :
    Meets ν μ vs frame used' returns (ending.atType ty) ρ ends' := by
  obtain ⟨signal, σ, hσ, hsignal, hend⟩ := h
  exact ⟨signal, σ, hσ, (hsignal.mono hsub).atType hty, hends signal σ hend⟩

theorem Ending.atType_eq_jump {ty : Ty} {i : Ident} (h : ending.atType ty = .jump i) : ending = .jump i := by
  cases ending with
  | value d => cases h
  | jump target => exact h

end Signals

/-! ## Blocks -/

/-- Labels that names tell apart. -/
def LabelsApart (ν : Ident → String) (ls : List Ident) : Prop := ∀ i ∈ ls, ∀ j ∈ ls, ν i = ν j → i = j

section Blocks

variable {t : Tree} {returns : Bool} {scope : List Label} {frame : Frame} {σ : Env} {ending : Ending}
  {ρ : Ident → Datum} {used : List Ident}

/-- A label in scope is not among the names of labels that the tree owns. -/
theorem Tree.Owns.not_mem (h : t.Owns ls scope) (hν : LabelsApart ν ls) {l : Label} (hl : l ∈ scope) :
    ν l.id ∉ t.labels.map ν := by
  intro hmem
  obtain ⟨i, hi, heq⟩ := List.mem_map.mp hmem
  have hsame := hν i (h.among i hi) l.id (h.scope l hl) heq
  exact h.outside l hl (hsame ▸ hi)

/-- A `goto` signal means a jump to a label in scope. -/
theorem Ending.Signals.goto {x : String} (h : ending.Signals ν frame used returns (.goto x))
    (hscope : ∀ i, ending = .jump i → ∃ l ∈ scope, l.id = i) : ∃ l ∈ scope, x = ν l.id := by
  cases ending with
  | value d => cases returns <;> cases h
  | jump target =>
    obtain ⟨l, hl, hid⟩ := hscope target rfl
    rcases h with ⟨-, h⟩ | ⟨-, h⟩ | ⟨-, h⟩
    · cases h
    · cases h
    · cases h
      exact ⟨l, hl, by rw [hid]⟩

/-- The statements of a tree do the same in braces. -/
theorem Meets.block (h : Tree.Structured vs returns scope t) (howns : t.Owns ls scope) (hν : LabelsApart ν ls)
    (hscope : ∀ i, ending = .jump i → ∃ l ∈ scope, l.id = i)
    (hlist : Meets ν μ vs frame used returns ending ρ
      (Leads (t.labels.map ν) ((t.lowering ν μ).list returns frame) σ)) :
    Meets ν μ vs frame used returns ending ρ fun signal σ' =>
      Does (.block ((t.lowering ν μ).list returns frame)) σ (signal, σ') := by
  obtain ⟨signal, σ', hσ, hsignal, hleads⟩ := hlist
  refine ⟨signal, σ', hσ, hsignal, hleads.block fun x hx hmem => ?_⟩
  subst hx
  obtain ⟨l, hl, rfl⟩ := hsignal.goto hscope
  exact howns.not_mem hν hl (h.labelNames_subset frame _ hmem)

end Blocks

/-! ## Statements without parts -/

section Leaves

variable {frame : Frame} {scope : List Label} {σ : Env} {n : Nat} {ending : Ending} {ρ ρ' : Ident → Datum}

theorem simulates_skip (hρ : Agrees μ vs ρ σ) (hrun : (Tree.mk (.defaultOf .void)).run n ρ = some (ending, ρ')) :
    Simulates ν μ vs (.mk (.defaultOf .void)) false scope frame σ ending ρ' := by
  obtain ⟨n, rfl⟩ := Tree.exists_succ_of_run hrun
  rw [Tree.run_skip] at hrun
  cases hrun
  refine ⟨by simp, ⟨.normal, σ, hρ, rfl, ?_⟩, ⟨.normal, σ, hρ, rfl, ?_⟩⟩
  · rw [Tree.lowering_skip]
    exact Leads.nil _ _
  · rw [Tree.lowering_skip]
    exact ⟨1, by rw [Stmt.exec]⟩

theorem Agrees.update (h : Agrees μ vs ρ σ) (hμ : ∀ v ∈ vs, ∀ w ∈ vs, μ v.id = μ w.id → v.id = w.id) {v : Variable}
    (hv : v ∈ vs) (d : Datum) : Agrees μ vs (Function.update ρ v.id d) (Function.update σ (μ v.id) d) := by
  intro w hw
  by_cases hid : w.id = v.id
  · rw [hid, Function.update_self, Function.update_self]
  · rw [Function.update_of_ne hid, Function.update_of_ne fun heq => hid (hμ w hw v hv heq), h w hw]

/-- What a single statement does, it does in a list and in braces. -/
theorem Reading.Does.meets {s : Stmt} {used : List Ident} {returns : Bool} {signal : Signal} {σ' : Env}
    (h : Does s σ (signal, σ')) (hρ : Agrees μ vs ρ σ') (hsignal : ending.Signals ν frame used returns signal)
    (hs : ∀ x, s ≠ .label x) (names : List String) :
    Meets ν μ vs frame used returns ending ρ (Leads names [s] σ) ∧
      Meets ν μ vs frame used returns ending ρ fun signal σ' => Does (.block [s]) σ (signal, σ') := by
  refine ⟨⟨signal, σ', hρ, hsignal, h.leads names⟩, ⟨signal, σ', hρ, hsignal, ?_⟩⟩
  refine (h.leads names).block fun x _ hx => ?_
  cases s with
  | label y => exact hs y rfl
  | _ => cases hx

theorem simulates_assign (hμ : ∀ v ∈ vs, ∀ w ∈ vs, μ v.id = μ w.id → v.id = w.id) {v : Variable} (hv : v ∈ vs)
    {e : Tree} (he : Tree.Pure vs e) {ty : Ty} (hρ : Agrees μ vs ρ σ)
    (hrun : (Tree.mk (.binary .assign (.mk (.var v)) e ty)).run n ρ = some (ending, ρ')) :
    Simulates ν μ vs (.mk (.binary .assign (.mk (.var v)) e ty)) false scope frame σ ending ρ' := by
  obtain ⟨n, rfl⟩ := Tree.exists_succ_of_run hrun
  rw [Tree.run_assign] at hrun
  split at hrun
  · next d hd =>
    cases hrun
    have hdoes : Does (.assign (μ v.id) (e.reading μ)) σ (.normal, Function.update σ (μ v.id) d) :=
      ⟨1, by rw [Stmt.exec, he.eval hρ, hd]⟩
    obtain ⟨hlist, hblock⟩ := hdoes.meets (hρ.update hμ hv d) (show Ending.Signals ν frame _ false
      (.value (some d)) .normal from rfl) (by simp) _
    refine ⟨by simp, ?_, ?_⟩
    · rw [Tree.lowering_assign]
      exact hlist
    · rw [Tree.lowering_assign]
      exact hblock
  · cases hrun

theorem simulates_jump {kind : JumpKind} {target : Label} (htarget : target ∈ scope) {ty : Ty}
    (hρ : Agrees μ vs ρ σ) (hrun : (Tree.mk (.jump kind target none ty)).run n ρ = some (ending, ρ')) :
    Simulates ν μ vs (.mk (.jump kind target none ty)) false scope frame σ ending ρ' := by
  obtain ⟨n, rfl⟩ := Tree.exists_succ_of_run hrun
  rw [Tree.run_jump] at hrun
  cases hrun
  have hdoes : ∃ signal, Does ((frame.form target.id).stmt (ν target.id)) σ (signal, σ) ∧
      Ending.Signals ν frame ((Tree.mk (.jump kind target none ty)).gotos frame) false (.jump target.id)
        signal := by
    rw [Tree.gotos_jump]
    cases hform : frame.form target.id with
    | exit => exact ⟨.exit, ⟨1, by rw [JumpForm.stmt, Stmt.exec]⟩, Or.inl ⟨hform, rfl⟩⟩
    | again => exact ⟨.again, ⟨1, by rw [JumpForm.stmt, Stmt.exec]⟩, Or.inr (Or.inl ⟨hform, rfl⟩)⟩
    | goto =>
      refine ⟨.goto (ν target.id), ⟨1, by rw [JumpForm.stmt, Stmt.exec]⟩, Or.inr (Or.inr ⟨?_, rfl⟩)⟩
      exact List.mem_singleton.mpr rfl
  obtain ⟨signal, hstmt, hsignal⟩ := hdoes
  have hlabel : ∀ x, (frame.form target.id).stmt (ν target.id) ≠ .label x := by
    intro x
    cases frame.form target.id <;> simp [JumpForm.stmt]
  obtain ⟨hlist, hblock⟩ := hstmt.meets hρ hsignal hlabel _
  refine ⟨fun i hi => ⟨target, htarget, Ending.jump.inj hi⟩, ?_, ?_⟩
  · rw [Tree.lowering_jump]
    exact hlist
  · rw [Tree.lowering_jump]
    exact hblock

theorem simulates_result {t : Tree} (h : Tree.Pure vs t) (hρ : Agrees μ vs ρ σ)
    (hrun : t.run n ρ = some (ending, ρ')) : Simulates ν μ vs t true scope frame σ ending ρ' := by
  obtain ⟨n, rfl⟩ := Tree.exists_succ_of_run hrun
  rw [h.run] at hrun
  split at hrun
  · next d hd =>
    cases hrun
    have hdoes : Does (.result (some (t.reading μ))) σ (.result (some d), σ) :=
      ⟨1, by rw [Stmt.exec, h.eval hρ, hd]⟩
    obtain ⟨hlist, hblock⟩ := hdoes.meets hρ (show Ending.Signals ν frame _ true
      (.value (some d)) (.result (some d)) from rfl) (by simp) _
    refine ⟨by simp, ?_, ?_⟩
    · rw [h.lowering_eq]
      exact hlist
    · rw [h.lowering_eq]
      exact hblock
  · cases hrun

end Leaves

/-! ## Conditionals -/

theorem Tree.Owns.of_sublist {t u : Tree} {scope : List Label} (h : t.Owns ls scope)
    (hsub : u.labels.Sublist t.labels) : u.Owns ls scope where
  nodup := hsub.nodup h.nodup
  outside l hl hmem := h.outside l hl (hsub.subset hmem)
  among i hi := h.among i (hsub.subset hi)
  scope := h.scope

section Conditional

variable {returns : Bool} {scope : List Label} {c a b : Tree} {ty : Ty} {frame : Frame} {σ : Env} {n : Nat}
  {ending : Ending} {ρ ρ' : Ident → Datum} (ih : SimulatesAt ν μ vs ls n) (hν : LabelsApart ν ls)
  (hty : ty.isVoid = !returns) (hc : Tree.Pure vs c) (ha : Tree.Structured vs returns scope a)
  (hb : Tree.Structured vs returns scope b) (howns : (Tree.mk (.conditional c a b ty)).Owns ls scope)
  (hρ : Agrees μ vs ρ σ) (hrun : (Tree.mk (.conditional c a b ty)).run (n + 1) ρ = some (ending, ρ'))

include ih hν hty hc ha hb howns hρ hrun

/-- The branch that is taken does what the conditional does. -/
theorem simulates_branch :
    (∀ i, ending = .jump i → ∃ l ∈ scope, l.id = i) ∧
      Meets ν μ vs frame ((Tree.mk (.conditional c a b ty)).gotos frame) returns ending ρ' fun signal σ' =>
        Does (((Tree.mk (.conditional c a b ty)).lowering ν μ).otherwise returns frame) σ (signal, σ') := by
  have hvalued : returns = true → ty.isVoid = false := fun hreturns => by rw [hty, hreturns]; rfl
  rw [Tree.run_conditional] at hrun
  split at hrun
  · next x hx =>
    obtain ⟨⟨taken, ρ''⟩, hbranch, heq⟩ := Option.map_eq_some_iff.mp hrun
    cases heq
    have htest : (c.reading μ).eval σ = .ok (.bool x) := by rw [hc.eval hρ, hx]
    rw [Tree.gotos_conditional, Tree.otherwise_conditional]
    cases x with
    | true =>
      have howns' : a.Owns ls scope := howns.of_sublist (by
        rw [Tree.labels_conditional]
        exact (List.sublist_append_left _ _).trans (List.sublist_append_right _ _))
      have hsim := ih returns scope a ha howns' frame ρ ρ' σ taken hρ hbranch
      refine ⟨fun i hi => hsim.inScope i (Ending.atType_eq_jump hi), ?_⟩
      refine (Meets.block ha howns' hν hsim.inScope hsim.list).mono (fun i hi => ?_) hvalued fun signal σ' h => ?_
      · exact List.mem_append_right _ (List.mem_append_left _ hi)
      · exact .branch htest h
    | false =>
      have howns' : b.Owns ls scope := howns.of_sublist (by
        rw [Tree.labels_conditional]
        exact (List.sublist_append_right _ _).trans (List.sublist_append_right _ _))
      have hsim := ih returns scope b hb howns' frame ρ ρ' σ taken hρ hbranch
      refine ⟨fun i hi => hsim.inScope i (Ending.atType_eq_jump hi), ?_⟩
      refine hsim.otherwise.mono (fun i hi => ?_) hvalued fun signal σ' h => ?_
      · exact List.mem_append_right _ (List.mem_append_right _ hi)
      · exact .branch htest h
  · cases hrun

theorem simulates_conditional : Simulates ν μ vs (.mk (.conditional c a b ty)) returns scope frame σ ending ρ' := by
  obtain ⟨hscope, hbranch⟩ := simulates_branch ih hν hty hc ha hb howns hρ hrun
  refine ⟨hscope, ?_, hbranch⟩
  rw [Tree.list_conditional]
  split
  · next hexpr =>
    -- Both branches are expressions, so the conditional is written as one.
    rw [Bool.and_eq_true, Bool.and_eq_true] at hexpr
    obtain ⟨⟨hreturns, hea⟩, heb⟩ := hexpr
    have hexpr : (Tree.mk (.conditional c a b ty)).isExpression = true := by
      rw [Tree.isExpression_conditional, hty, hreturns, hea, heb]
      rfl
    have helementary := (Tree.Structured.conditional hty hc ha hb).elementary hreturns hexpr
    obtain ⟨d, rfl, rfl, hd⟩ := helementary.eval hρ hrun
    have hdoes : Does (.result (some ((Tree.mk (.conditional c a b ty)).reading μ))) σ (.result (some d), σ) :=
      ⟨1, by rw [Stmt.exec, hd]⟩
    exact ⟨_, σ, hρ, by rw [hreturns]; rfl, hdoes.leads _⟩
  · obtain ⟨signal, σ', hσ, hsignal, hdoes⟩ := hbranch
    exact ⟨signal, σ', hσ, hsignal, hdoes.leads _⟩

end Conditional

/-! ## Statements in a row -/

section Rows

variable {returns : Bool} {scope : List Label} {frame : Frame} {σ : Env} {ending : Ending} {ρ ρ' : Ident → Datum}

/-- What is shown of trees in a row. -/
structure SimulatesRow (ν μ : Ident → String) (vs : List Variable) (ts : List Tree) (t : Tree) (returns : Bool)
    (scope : List Label) (frame : Frame) (σ : Env) (ending : Ending) (ρ : Ident → Datum) : Prop where
  inScope : ∀ i, ending = .jump i → ∃ l ∈ scope, l.id = i
  list : Meets ν μ vs frame ((ts ++ [t]).flatMap (·.gotos frame)) returns ending ρ
    (Leads (((ts ++ [t]).flatMap Tree.labels).map ν)
      (ts.flatMap (fun s => (s.lowering ν μ).list false frame) ++ (t.lowering ν μ).list returns frame) σ)

/-- The names of labels of one tree are not those of another one. -/
theorem names_disjoint (hν : LabelsApart ν ls) {is js : List Ident} (hnodup : (is ++ js).Nodup)
    (hamong : ∀ i ∈ is ++ js, i ∈ ls) {x : String} (hx : x ∈ is.map ν) : x ∉ js.map ν := by
  intro hmem
  obtain ⟨i, hi, rfl⟩ := List.mem_map.mp hx
  obtain ⟨j, hj, heq⟩ := List.mem_map.mp hmem
  have hsame := hν j (hamong j (List.mem_append_right _ hj)) i (hamong i (List.mem_append_left _ hi)) heq
  exact (List.nodup_append.mp hnodup).2.2 i hi j hj hsame.symm

theorem simulates_row (hν : LabelsApart ν ls) {t : Tree} (ht : Tree.Structured vs returns scope t)
    {ts : List Tree} (hts : ∀ s ∈ ts, Tree.Structured vs false scope s) {ty : Ty}
    (howns : (Tree.mk (.block [] (ts ++ [t]) ty)).Owns ls scope) :
    ∀ n : Nat, (∀ m < n, SimulatesAt ν μ vs ls m) → ∀ (ρ : Ident → Datum) (σ : Env), Agrees μ vs ρ σ →
      Tree.runAll n (ts ++ [t]) ρ = some (ending, ρ') →
        SimulatesRow ν μ vs ts t returns scope frame σ ending ρ' := by
  induction ts with
  | nil =>
    intro n ih ρ σ hρ hrun
    obtain ⟨n, rfl⟩ := Tree.exists_succ_of_runAll hrun
    have hlast : t.run n ρ = some (ending, ρ') := by
      rw [List.nil_append, Tree.runAll_cons] at hrun
      split at hrun
      · next hone => rw [hone]; exact hrun
      · exact hrun
    have howns' : t.Owns ls scope := howns.of_sublist (by rw [Tree.labels_block]; simp)
    have hsim := ih n (Nat.lt_succ_self n) returns scope t ht howns' frame ρ ρ' σ ending hρ hlast
    refine ⟨hsim.inScope, ?_⟩
    simpa using hsim.list
  | cons s ts ihts =>
    intro n ih ρ σ hρ hrun
    have hs := hts s List.mem_cons_self
    have hlabels : (Tree.mk (.block [] (s :: ts ++ [t]) ty)).labels =
        s.labels ++ (ts ++ [t]).flatMap Tree.labels := by
      rw [Tree.labels_block, List.cons_append, List.flatMap_cons]
    have hrest := ihts (fun u hu => hts u (List.mem_cons_of_mem s hu))
      (howns.of_sublist (by rw [hlabels, Tree.labels_block]; exact List.sublist_append_right _ _))
    have howns' : s.Owns ls scope := howns.of_sublist (by rw [hlabels]; exact List.sublist_append_left _ _)
    have hfresh : ∀ x ∈ labelNames ((s.lowering ν μ).list false frame),
        x ∉ ((ts ++ [t]).flatMap Tree.labels).map ν := fun x hx =>
      names_disjoint hν (hlabels ▸ howns.nodup) (fun i hi => howns.among i (hlabels ▸ hi))
        (hs.labelNames_subset frame x hx)
    obtain ⟨n, rfl⟩ := Tree.exists_succ_of_runAll hrun
    rw [List.cons_append, Tree.runAll_cons] at hrun
    cases hfirst : s.run n ρ with
    | none =>
      rw [hfirst] at hrun
      cases hrun
    | some outcome =>
      obtain ⟨first, ρ₁⟩ := outcome
      have hsim := ih n (Nat.lt_succ_self n) false scope s hs howns' frame ρ ρ₁ σ first hρ hfirst
      obtain ⟨signal, σ₁, hσ₁, hsignal, hleads⟩ := hsim.list
      rw [hfirst] at hrun
      cases first with
      | value d =>
        -- The first tree goes on with the others.
        have hgoes : Tree.runAll n (ts ++ [t]) ρ₁ = some (ending, ρ') := by simpa using hrun
        obtain rfl : signal = .normal := hsignal
        obtain ⟨hscope, signal, σ₂, hσ₂, hsignal₂, hleads₂⟩ :=
          hrest n (fun m hm => ih m (by omega)) ρ₁ σ₁ hσ₁ hgoes
        refine ⟨hscope, signal, σ₂, hσ₂, hsignal₂.mono fun i hi => ?_, ?_⟩
        · rw [List.cons_append, List.flatMap_cons]
          exact List.mem_append_right _ hi
        · rw [List.cons_append, List.flatMap_cons, List.map_append, List.flatMap_cons, List.append_assoc]
          exact hleads.append hleads₂ hfresh
      | jump target =>
        cases hrun
        have hne : signal ≠ .normal := by
          rintro rfl
          rcases hsignal with ⟨-, h⟩ | ⟨-, h⟩ | ⟨-, h⟩ <;> cases h
        have hmono : Ending.Signals ν frame ((s :: ts ++ [t]).flatMap (·.gotos frame)) false (.jump target)
            signal := hsignal.mono fun i hi => by
          rw [List.cons_append, List.flatMap_cons]
          exact List.mem_append_left _ hi
        refine ⟨hsim.inScope, signal, σ₁, hσ₁, hmono, ?_⟩
        rw [List.flatMap_cons, List.append_assoc]
        refine (hleads.append_of_ne hne _).mono fun x hx => ?_
        rw [List.cons_append, List.flatMap_cons, List.map_append]
        exact List.mem_append_left _ hx

end Rows

/-! ## Loops -/

namespace Frame

variable {exit again : Option Label} {target : Ident}

theorem exit_of_form (h : (ofLoop exit again).form target = .exit) : exit.map (·.id) = some target := by
  rw [form] at h
  split at h
  · next hexit => exact hexit
  · split at h <;> cases h

theorem again_of_form (h : (ofLoop exit again).form target = .again) : again.map (·.id) = some target := by
  rw [form] at h
  split at h
  · cases h
  · split at h
    · next hagain => exact hagain
    · cases h

/-- A label for which a `goto` is needed is none of the loop. -/
theorem outside_of_form {l : Label} {scope : List Label} (h : (ofLoop exit again).form l.id = .goto)
    (hl : l ∈ exit.toList ++ again.toList ++ scope) : l ∈ scope := by
  rw [form] at h
  split at h
  · cases h
  · next hexit =>
    split at h
    · cases h
    · next hagain =>
      rcases List.mem_append.mp hl with hl | hl
      · rcases List.mem_append.mp hl with hl | hl
        · exact absurd (Option.map_eq_some_iff.mpr ⟨l, Option.mem_toList.mp hl, rfl⟩) hexit
        · exact absurd (Option.map_eq_some_iff.mpr ⟨l, Option.mem_toList.mp hl, rfl⟩) hagain
      · exact hl

end Frame

/-- A label goes on with what follows it. -/
theorem landing_leads (names : List String) (used : List Ident) (l : Option Label) (σ : Env) :
    Leads names (landing ν used l) σ .normal σ := by
  cases l with
  | none => exact Leads.nil names σ
  | some l =>
    rw [landing]
    split
    · intro pre post r _ h
      have hlabel : Does (.label (ν l.id)) σ (.normal, σ) := ⟨1, by rw [Stmt.exec]⟩
      have hempty : Does .empty σ (.normal, σ) := ⟨1, by rw [Stmt.exec]⟩
      exact .cons hlabel (Runs.cons hempty h)
    · exact Leads.nil names σ

section Loop

variable {scope : List Label} {body : Tree} {exit again : Option Label} {σ : Env} {ending : Ending}
  {ρ ρ' : Ident → Datum}

/-- A round of a loop: either its test succeeds, and the statements do what the body does, or the test fails,
and the body leaves the loop. -/
inductive Round (ν μ : Ident → String) (vs : List Variable) (body : Tree) (exit again : Option Label) (σ : Env)
    (ending : Ending) (ρ : Ident → Datum) : Prop where
  | goes : (body.round ν μ exit again).1.eval σ = .ok (.bool true) →
      Meets ν μ vs (.ofLoop exit again) (body.gotos (.ofLoop exit again)) false ending ρ
        (Leads (body.labels.map ν) (body.round ν μ exit again).2 σ) →
      Round ν μ vs body exit again σ ending ρ
  | ends {l : Label} : (body.round ν μ exit again).1.eval σ = .ok (.bool false) → exit = some l →
      ending = .jump l.id → Agrees μ vs ρ σ → Round ν μ vs body exit again σ ending ρ

/-- A tree that does nothing but leave the loop is a jump. -/
theorem Tree.Structured.of_leavesLoop {t : Tree} (h : Tree.Structured vs false scope t)
    (hleaves : t.leavesLoop exit = true) :
    ∃ kind target ty l, t = .mk (.jump kind target none ty) ∧ exit = some l ∧ l.id = target.id := by
  cases h with
  | @jump _ kind target ty _ _ =>
    have hexit : exit.map (·.id) = some target.id := eq_of_beq hleaves
    obtain ⟨l, hl, hid⟩ := Option.map_eq_some_iff.mp hexit
    exact ⟨kind, target, ty, l, rfl, hl, hid⟩
  | _ => cases hleaves

/-- In a loop with a test, the body is a conditional that leaves the loop when the test fails. -/
theorem round_of_conditional {n : Nat} (ih : ∀ m ≤ n, SimulatesAt ν μ vs ls m) {c a b : Tree} {ty : Ty}
    (hc : Tree.Pure vs c) (ha : Tree.Structured vs false scope a) (hb : Tree.Structured vs false scope b)
    (hleaves : b.leavesLoop exit = true) (howns : (Tree.mk (.conditional c a b ty)).Owns ls scope)
    (hρ : Agrees μ vs ρ σ) (hrun : (Tree.mk (.conditional c a b ty)).run n ρ = some (ending, ρ')) :
    Round ν μ vs (.mk (.conditional c a b ty)) exit again σ ending ρ' := by
  have hround : (Tree.mk (.conditional c a b ty)).round ν μ exit again =
      (c.reading μ, (a.lowering ν μ).list false (.ofLoop exit again)) := by
    rw [Tree.round, show (Tree.mk (.conditional c a b ty)).testOf? exit = some c from if_pos hleaves,
      ← Tree.whenTrue_conditional ν μ c a b ty]
  obtain ⟨n, rfl⟩ := Tree.exists_succ_of_run hrun
  rw [Tree.run_conditional] at hrun
  split at hrun
  · next x hx =>
    obtain ⟨⟨taken, ρ''⟩, hbranch, heq⟩ := Option.map_eq_some_iff.mp hrun
    cases heq
    have htest : (c.reading μ).eval σ = .ok (.bool x) := by rw [hc.eval hρ, hx]
    cases x with
    | true =>
      have hlabels : a.labels.Sublist (Tree.mk (.conditional c a b ty)).labels := by
        rw [Tree.labels_conditional]
        exact (List.sublist_append_left _ _).trans (List.sublist_append_right _ _)
      have hsim := ih n (Nat.le_succ n) false scope a ha (howns.of_sublist hlabels) (.ofLoop exit again) ρ ρ' σ
        taken hρ hbranch
      refine .goes (by rw [hround]; exact htest) (hsim.list.mono (fun i hi => ?_) (by simp) fun signal σ' h => ?_)
      · rw [Tree.gotos_conditional]
        exact List.mem_append_right _ (List.mem_append_left _ hi)
      · rw [hround]
        exact h.mono fun x hx => List.map_subset ν hlabels.subset hx
    | false =>
      -- the branch that leaves the loop is a jump and nothing else
      obtain ⟨kind, target, tj, l, rfl, hl, hid⟩ := hb.of_leavesLoop hleaves
      cases n with
      | zero =>
        simp only [Tree.run] at hbranch
        cases hbranch
      | succ n =>
        rw [if_neg Bool.false_ne_true, Tree.run_jump] at hbranch
        cases hbranch
        exact .ends (by rw [hround]; exact htest) hl (by rw [hid]; rfl) hρ
  · cases hrun

/-- The evaluation of the body is a round of the loop. -/
theorem round_of_run {n : Nat} (ih : ∀ m ≤ n, SimulatesAt ν μ vs ls m) (hbody : Tree.Structured vs false scope body)
    (howns : body.Owns ls scope) (hρ : Agrees μ vs ρ σ) (hrun : body.run n ρ = some (ending, ρ')) :
    Round ν μ vs body exit again σ ending ρ' := by
  have hsim := ih n (Nat.le_refl n) false scope body hbody howns (.ofLoop exit again) ρ ρ' σ ending hρ hrun
  have hendless (hnone : body.testOf? exit = none) : Round ν μ vs body exit again σ ending ρ' := by
    have hround : body.round ν μ exit again = (.truth true, (body.lowering ν μ).list false (.ofLoop exit again)) := by
      rw [Tree.round, hnone]
    refine .goes (by rw [hround]; rfl) ?_
    rw [hround]
    exact hsim.list
  cases hbody with
  | @conditional _ _ c a b ty _ hc ha hb =>
    by_cases hleaves : b.leavesLoop exit = true
    · exact round_of_conditional ih hc ha hb hleaves howns hρ hrun
    · exact hendless (if_neg hleaves)
  | _ => exact hendless rfl

/-- The labels of a loop's body are not those of the loop. -/
theorem Tree.Owns.inLoop (h : (Tree.mk (.loop body exit again)).Owns ls scope) :
    body.Owns ls (exit.toList ++ again.toList ++ scope) := by
  have hlabels := Tree.labels_loop body exit again
  have howned : ∀ l ∈ exit.toList ++ again.toList, l.id ∈ (Tree.mk (.loop body exit again)).labels := fun l hl => by
    rw [hlabels]
    exact List.mem_append_left _ (List.mem_map_of_mem hl)
  have hsub : ∀ i ∈ body.labels, i ∈ (Tree.mk (.loop body exit again)).labels := fun i hi => by
    rw [hlabels]
    exact List.mem_append_right _ hi
  have hnodup := h.nodup
  rw [hlabels, List.nodup_append] at hnodup
  refine ⟨hnodup.2.1, fun l hl hmem => ?_, fun i hi => h.among i (hsub i hi), fun l hl => ?_⟩
  · rcases List.mem_append.mp hl with hl | hl
    · exact hnodup.2.2 l.id (List.mem_map_of_mem hl) l.id hmem rfl
    · exact h.outside l hl (hsub _ hmem)
  · rcases List.mem_append.mp hl with hl | hl
    · exact h.among _ (howned l hl)
    · exact h.scope l hl

/-- The signals of a round, with the label for the next round at its end. -/
def Ending.RoundSignals (ν : Ident → String) (frame : Frame) (used : List Ident) : Ending → Signal → Prop
  | .value _, signal => signal = .normal
  | .jump target, signal =>
    match frame.form target with
    | .exit => signal = .exit ∨ (target ∈ used ∧ signal = .goto (ν target))
    | .again => signal = .normal ∨ signal = .again
    | .goto => target ∈ used ∧ signal = .goto (ν target)

/-- The labels in the statements of a round are labels that the body owns. -/
theorem labelNames_round (hbody : Tree.Structured vs false scope body) :
    ∀ x ∈ labelNames (body.round ν μ exit again).2, x ∈ body.labels.map ν := by
  have hendless (hnone : body.testOf? exit = none) :
      ∀ x ∈ labelNames (body.round ν μ exit again).2, x ∈ body.labels.map ν := by
    rw [Tree.round, hnone]
    exact hbody.labelNames_subset _
  cases hbody with
  | @conditional _ _ c a b ty _ hc ha hb =>
    by_cases hleaves : b.leavesLoop exit = true
    · rw [Tree.round, show (Tree.mk (.conditional c a b ty)).testOf? exit = some c from if_pos hleaves,
        Tree.labels_conditional]
      intro x hx
      rw [Tree.whenTrue_conditional] at hx
      rw [List.map_append, List.map_append]
      exact List.mem_append_right _ (List.mem_append_left _ (ha.labelNames_subset _ x hx))
    · exact hendless (if_neg hleaves)
  | _ => exact hendless rfl

/-- The two labels of a loop are different. -/
theorem Tree.Owns.form_again (h : (Tree.mk (.loop body exit again)).Owns ls scope) {l : Label} (hl : again = some l) :
    (Frame.ofLoop exit again).form l.id = .again := by
  have hne : exit.map (·.id) ≠ some l.id := by
    intro heq
    obtain ⟨e, he, hid⟩ := Option.map_eq_some_iff.mp heq
    have hnodup := h.nodup
    rw [Tree.labels_loop, he, hl, Option.toList_some, Option.toList_some, List.singleton_append, List.map_cons,
      List.cons_append, List.nodup_cons] at hnodup
    exact hnodup.1 (by rw [hid]; exact List.mem_cons_self)
  exact (if_neg hne).trans (if_pos (by rw [hl]; rfl))

/-- A round ends with its statements or at the label behind them. -/
theorem block_of_round (hν : LabelsApart ν ls)
    (hbody : Tree.Structured vs false (exit.toList ++ again.toList ++ scope) body)
    (howns : (Tree.mk (.loop body exit again)).Owns ls scope)
    (hscope : ∀ i, ending = .jump i → ∃ l ∈ exit.toList ++ again.toList ++ scope, l.id = i)
    (h : Meets ν μ vs (.ofLoop exit again) (body.gotos (.ofLoop exit again)) false ending ρ
      (Leads (body.labels.map ν) (body.round ν μ exit again).2 σ)) :
    ∃ signal σ', Agrees μ vs ρ σ' ∧
      ending.RoundSignals ν (.ofLoop exit again) (body.gotos (.ofLoop exit again)) signal ∧
      Does (.block ((body.round ν μ exit again).2 ++ landing ν (body.gotos (.ofLoop exit again)) again)) σ
        (signal, σ') := by
  obtain ⟨signal, σ', hσ, hsignal, hleads⟩ := h
  have hnormal (hleads : Leads (body.labels.map ν) (body.round ν μ exit again).2 σ .normal σ') :
      Does (.block ((body.round ν μ exit again).2 ++ landing ν (body.gotos (.ofLoop exit again)) again)) σ
        (.normal, σ') :=
    (hleads.append (landing_leads [] _ again σ') nofun).block nofun
  cases ending with
  | value d =>
    obtain rfl : signal = .normal := hsignal
    exact ⟨.normal, σ', hσ, rfl, hnormal hleads⟩
  | jump target =>
    rcases hsignal with ⟨hform, rfl⟩ | ⟨hform, rfl⟩ | ⟨hused, rfl⟩
    · refine ⟨.exit, σ', hσ, ?_, (hleads.append_of_ne nofun _).block nofun⟩
      simp [Ending.RoundSignals, hform]
    · refine ⟨.again, σ', hσ, ?_, (hleads.append_of_ne nofun _).block nofun⟩
      simp [Ending.RoundSignals, hform]
    · obtain ⟨l, hl, hid⟩ := hscope target rfl
      have hfresh : ν target ∉ labelNames (body.round ν μ exit again).2 := fun hmem =>
        howns.inLoop.not_mem hν hl (hid ▸ labelNames_round hbody _ hmem)
      by_cases hform : (Frame.ofLoop exit again).form target = .again
      · -- The label for the next round is at the end of the list.
        obtain ⟨l', rfl, rfl⟩ := Option.map_eq_some_iff.mp (Frame.again_of_form hform)
        have hlanding : landing ν (body.gotos (.ofLoop exit (some l'))) (some l') = [.label (ν l'.id), .empty] :=
          if_pos hused
        have hwide : Leads (ν l'.id :: body.labels.map ν) (body.round ν μ exit (some l')).2 σ (.goto (ν l'.id)) σ' :=
          hleads.mono fun x hx => List.mem_cons_of_mem _ hx
        refine ⟨.normal, σ', hσ, by simp [Ending.RoundSignals, hform], ?_⟩
        rw [hlanding]
        exact (hwide.landing List.mem_cons_self hfresh).block nofun
      · have hlanding : ν target ∉ labelNames (landing ν (body.gotos (.ofLoop exit again)) again) := by
          intro hmem
          have hname := Tree.labelNames_landing _ _ _ hmem
          simp only [List.mem_map, Option.mem_toList] at hname
          obtain ⟨-, ⟨l', hl', rfl⟩, heq⟩ := hname
          have hmem' : l' ∈ exit.toList ++ again.toList ++ scope := by simp [hl']
          have hsame := hν _ (howns.inLoop.scope l' hmem') _ (howns.inLoop.scope l hl) (by rw [heq, hid])
          exact hform (by rw [← hid, ← hsame]; exact howns.form_again hl')
        refine ⟨.goto (ν target), σ', hσ, ?_, (hleads.append_of_ne nofun _).block fun x hx hmem => ?_⟩
        · cases hother : (Frame.ofLoop exit again).form target with
          | again => exact absurd hother hform
          | _ => simp [Ending.RoundSignals, hother, hused]
        · cases hx
          rw [labelNames_append] at hmem
          exact (List.mem_append.mp hmem).elim hfresh hlanding

/-- How a loop ends without the label behind it. -/
inductive LoopEnds (ν : Ident → String) (exit : Option Label) (scope : List Label) (used : List Ident) :
    Ending → Signal → Prop where
  /-- The loop is done. -/
  | done : LoopEnds ν exit scope used (.value none) .normal
  /-- The loop is left from inside another one. -/
  | left {l : Label} : exit = some l → l.id ∈ used → LoopEnds ν exit scope used (.value none) (.goto (ν l.id))
  /-- A jump goes further out. -/
  | out {l : Label} : l ∈ scope → l.id ∈ used → LoopEnds ν exit scope used (.jump l.id) (.goto (ν l.id))

/-- A jump ends a loop, goes on with its next round or goes further out. -/
theorem Tree.run_loop_of_jump {n : Nat} {target : Ident} {ρ₁ : Ident → Datum}
    (h : body.run n ρ = some (.jump target, ρ₁)) :
    (Tree.mk (.loop body exit again)).run (n + 1) ρ =
      match (Frame.ofLoop exit again).form target with
      | .exit => some (.value none, ρ₁)
      | .again => (Tree.mk (.loop body exit again)).run n ρ₁
      | .goto => some (.jump target, ρ₁) := by
  rw [Tree.run_loop, h]
  by_cases hexit : exit.map (·.id) = some target
  · rw [show (Frame.ofLoop exit again).form target = .exit from if_pos hexit]
    exact if_pos hexit
  · by_cases hagain : again.map (·.id) = some target
    · rw [show (Frame.ofLoop exit again).form target = .again from (if_neg hexit).trans (if_pos hagain)]
      exact (if_neg hexit).trans (if_pos hagain)
    · rw [show (Frame.ofLoop exit again).form target = .goto from (if_neg hexit).trans (if_neg hagain)]
      exact (if_neg hexit).trans (if_neg hagain)

/-- A loop goes through its rounds. -/
theorem loop_ends (hν : LabelsApart ν ls) (hbody : Tree.Structured vs false (exit.toList ++ again.toList ++ scope) body)
    (howns : (Tree.mk (.loop body exit again)).Owns ls scope) :
    ∀ n : Nat, (∀ m < n, SimulatesAt ν μ vs ls m) → ∀ (ρ : Ident → Datum) (σ : Env), Agrees μ vs ρ σ →
      (Tree.mk (.loop body exit again)).run n ρ = some (ending, ρ') →
        ∃ signal σ', Agrees μ vs ρ' σ' ∧
          LoopEnds ν exit scope (body.gotos (.ofLoop exit again)) ending signal ∧
          Does (body.loopStmt ν μ exit again) σ (signal, σ') := by
  intro n
  -- on the fuel: the rounds behind the first one have less of it
  induction n with
  | zero =>
    intro _ ρ σ _ hrun
    rw [Tree.run] at hrun
    cases hrun
  | succ n ihn =>
    intro ih ρ σ hρ hrun
    cases hfirst : body.run n ρ with
    | none =>
      rw [Tree.run_loop, hfirst] at hrun
      cases hrun
    | some outcome =>
      obtain ⟨first, ρ₁⟩ := outcome
      have hscope := (ih n (Nat.lt_succ_self n) false _ body hbody howns.inLoop (.ofLoop exit again) ρ ρ₁ σ first hρ
        hfirst).inScope
      have hround : Round ν μ vs body exit again σ first ρ₁ :=
        round_of_run (fun m hm => ih m (Nat.lt_succ_of_le hm)) hbody howns.inLoop hρ hfirst
      have hnext := ihn fun m hm => ih m (Nat.lt_succ_of_lt hm)
      cases hround with
      | @ends l htest hl hjump hσ =>
        subst hjump
        rw [Tree.run_loop_of_jump hfirst, show (Frame.ofLoop exit again).form l.id = .exit from
          if_pos (by rw [hl]; rfl)] at hrun
        cases hrun
        exact ⟨.normal, σ, hσ, .done, .loop_done _ htest⟩
      | goes htest hmeets =>
        obtain ⟨signal, σ₁, hσ₁, hsignal, hdoes⟩ := block_of_round hν hbody howns hscope hmeets
        -- a round that ends by itself is followed by the next, and so is one that is cut short
        have hrepeat (hsignal : signal = .normal ∨ signal = .again)
            (hrun : (Tree.mk (.loop body exit again)).run n ρ₁ = some (ending, ρ')) :
            ∃ signal σ', Agrees μ vs ρ' σ' ∧
              LoopEnds ν exit scope (body.gotos (.ofLoop exit again)) ending signal ∧
              Does (body.loopStmt ν μ exit again) σ (signal, σ') := by
          obtain ⟨signal', σ', hσ', hends, hrest⟩ := hnext ρ₁ σ₁ hσ₁ hrun
          exact ⟨signal', σ', hσ', hends, .loop_next htest hdoes hsignal hrest⟩
        cases first with
        | value d =>
          rw [Tree.run_loop, hfirst] at hrun
          exact hrepeat (Or.inl hsignal) hrun
        | jump target =>
          rw [Tree.run_loop_of_jump hfirst] at hrun
          obtain ⟨l, hl, hid⟩ := hscope target rfl
          cases hform : (Frame.ofLoop exit again).form target with
          | exit =>
            simp only [Ending.RoundSignals, hform] at hsignal hrun
            cases hrun
            rcases hsignal with rfl | ⟨hused, rfl⟩
            · exact ⟨.normal, σ₁, hσ₁, .done, .loop_exit htest hdoes⟩
            · obtain ⟨e, he, rfl⟩ := Option.map_eq_some_iff.mp (Frame.exit_of_form hform)
              exact ⟨_, σ₁, hσ₁, .left he hused, .loop_goto htest hdoes⟩
          | again =>
            simp only [Ending.RoundSignals, hform] at hsignal hrun
            exact hrepeat hsignal hrun
          | goto =>
            simp only [Ending.RoundSignals, hform] at hsignal hrun
            cases hrun
            obtain ⟨hused, rfl⟩ := hsignal
            subst hid
            exact ⟨_, σ₁, hσ₁, .out (Frame.outside_of_form hform hl) hused, .loop_goto htest hdoes⟩

theorem simulates_loop {n : Nat} (ih : ∀ m < n, SimulatesAt ν μ vs ls m) (hν : LabelsApart ν ls)
    (h : Tree.Structured vs false scope (.mk (.loop body exit again)))
    (hbody : Tree.Structured vs false (exit.toList ++ again.toList ++ scope) body)
    (howns : (Tree.mk (.loop body exit again)).Owns ls scope) {frame : Frame} (hρ : Agrees μ vs ρ σ)
    (hrun : (Tree.mk (.loop body exit again)).run n ρ = some (ending, ρ')) :
    Simulates ν μ vs (.mk (.loop body exit again)) false scope frame σ ending ρ' := by
  obtain ⟨signal, σ', hσ, hends, hdoes⟩ := loop_ends hν hbody howns n ih ρ σ hρ hrun
  have hscope : ∀ i, ending = .jump i → ∃ l ∈ scope, l.id = i := by
    rintro i rfl
    -- behind the loop there may be a label for jumps that could not be a `break`
    cases hends with
    | out hl _ => exact ⟨_, hl, rfl⟩
  have hlist : Meets ν μ vs frame ((Tree.mk (.loop body exit again)).gotos frame) false ending ρ'
      (Leads ((Tree.mk (.loop body exit again)).labels.map ν)
        (((Tree.mk (.loop body exit again)).lowering ν μ).list false frame) σ) := by
    rw [Tree.lowering_loop, Tree.gotos_loop]
    have hleads := hdoes.leads ((Tree.mk (.loop body exit again)).labels.map ν)
    cases hends with
    | done =>
      refine ⟨.normal, σ', hσ, rfl, ?_⟩
      have hlanding : Leads [] (landing ν (body.gotos (.ofLoop exit again)) exit) σ' .normal σ' :=
        landing_leads _ _ _ _
      have hboth := hleads.append hlanding (by simp)
      rw [List.append_nil] at hboth
      exact hboth
    | @left l hl hused =>
      refine ⟨.normal, σ', hσ, rfl, ?_⟩
      have hlanding : landing ν (body.gotos (.ofLoop exit again)) exit = [.label (ν l.id), .empty] := by
        rw [hl]
        exact if_pos (hl ▸ hused)
      have hmem : ν l.id ∈ (Tree.mk (.loop body exit again)).labels.map ν := by
        rw [Tree.labels_loop, hl]
        exact List.mem_cons_self
      simp only [Lowering.ofList, hlanding]
      exact hleads.landing hmem (by rintro ⟨⟩)
    | out hl hused =>
      exact ⟨_, σ', hσ, Or.inr (Or.inr ⟨hused, rfl⟩), hleads.append_of_ne (by simp) _⟩
  refine ⟨hscope, hlist, ?_⟩
  have hblock := Meets.block h howns hν hscope hlist
  rw [Tree.lowering_loop] at hblock ⊢
  exact hblock

end Loop

/-! ## The simulation -/

theorem simulates_empty {n : Nat} {scope : List Label} {ty : Ty} {frame : Frame} {ρ ρ' : Ident → Datum} {σ : Env}
    {ending : Ending} (hρ : Agrees μ vs ρ σ) (hrun : Tree.run (n + 1) (.mk (.block [] [] ty)) ρ = some (ending, ρ')) :
    Simulates ν μ vs (.mk (.block [] [] ty)) false scope frame σ ending ρ' := by
  rw [Tree.run_block] at hrun
  obtain ⟨_, hempty, heq⟩ := Option.map_eq_some_iff.mp hrun
  obtain ⟨n, rfl⟩ := Tree.exists_succ_of_runAll hempty
  rw [Tree.runAll] at hempty
  cases hempty
  cases heq
  have hnil : Leads ((Tree.mk (.block [] [] ty)).labels.map ν) [] σ .normal σ := Leads.nil _ _
  refine ⟨by rintro _ ⟨⟩, ⟨.normal, σ, hρ, rfl, ?_⟩, ⟨.normal, σ, hρ, rfl, ?_⟩⟩
  · rw [Tree.lowering_block]
    exact hnil
  · rw [Tree.lowering_block]
    exact hnil.block (by simp)

theorem simulates_block {n : Nat} (ih : ∀ m < n, SimulatesAt ν μ vs ls m) (hν : LabelsApart ν ls)
    {returns : Bool} {scope : List Label} {ts : List Tree} {t : Tree} {ty : Ty}
    (h : Tree.Structured vs returns scope (.mk (.block [] (ts ++ [t]) ty))) (hty : returns = true → ty.isVoid = false)
    (hts : ∀ s ∈ ts, Tree.Structured vs false scope s) (ht : Tree.Structured vs returns scope t)
    (howns : (Tree.mk (.block [] (ts ++ [t]) ty)).Owns ls scope) {frame : Frame} {ρ ρ' : Ident → Datum} {σ : Env}
    {ending : Ending} (hρ : Agrees μ vs ρ σ)
    (hrun : Tree.run (n + 1) (.mk (.block [] (ts ++ [t]) ty)) ρ = some (ending, ρ')) :
    Simulates ν μ vs (.mk (.block [] (ts ++ [t]) ty)) returns scope frame σ ending ρ' := by
  rw [Tree.run_block] at hrun
  obtain ⟨⟨last, ρ''⟩, hrow, heq⟩ := Option.map_eq_some_iff.mp hrun
  cases heq
  have hsim : SimulatesRow ν μ vs ts t returns scope frame σ last ρ' :=
    simulates_row hν ht hts howns n ih ρ σ hρ hrow
  have hscope : ∀ i, last.atType ty = .jump i → ∃ l ∈ scope, l.id = i := fun i hi =>
    hsim.inScope i (Ending.atType_eq_jump hi)
  have hlist : Meets ν μ vs frame ((Tree.mk (.block [] (ts ++ [t]) ty)).gotos frame) returns (last.atType ty) ρ'
      (Leads ((Tree.mk (.block [] (ts ++ [t]) ty)).labels.map ν)
        (((Tree.mk (.block [] (ts ++ [t]) ty)).lowering ν μ).list returns frame) σ) := by
    rw [Tree.gotos_block, Tree.labels_block, Tree.lowering_block]
    refine hsim.list.mono (fun i hi => hi) hty fun signal σ' hleads => ?_
    simp only [Lowering.ofList, List.map_append, List.map_cons, List.map_nil, Tree.inRow_append, List.flatMap_map]
      at hleads ⊢
    exact hleads
  refine ⟨hscope, hlist, ?_⟩
  have hblock := Meets.block h howns hν hscope hlist
  rw [Tree.lowering_block] at hblock ⊢
  exact hblock

/-- **The statements for a structured tree do what the tree does**, whatever fuel its evaluation takes. -/
theorem simulated (hν : LabelsApart ν ls) (hμ : ∀ v ∈ vs, ∀ w ∈ vs, μ v.id = μ w.id → v.id = w.id) (n : Nat) :
    SimulatesAt ν μ vs ls n := by
  induction n using Nat.strongRecOn with
  | ind n ih =>
    intro returns scope t h howns frame ρ ρ' σ ending hρ hrun
    obtain ⟨n, rfl⟩ := Tree.exists_succ_of_run hrun
    have hn := ih n (Nat.lt_succ_self n)
    cases h with
    | skip => exact simulates_skip hρ hrun
    | assign hv he => exact simulates_assign hμ hv he hρ hrun
    | jump _ htarget => exact simulates_jump htarget hρ hrun
    | loop hlabels hbody => exact simulates_loop ih hν (.loop hlabels hbody) hbody howns hρ hrun
    | result h => exact simulates_result h hρ hrun
    | conditional hty hc ha hb => exact simulates_conditional hn hν hty hc ha hb howns hρ hrun
    | empty => exact simulates_empty hρ hrun
    | block hty hts ht =>
      exact simulates_block (fun m hm => ih m (Nat.lt_succ_of_lt hm)) hν (.block hty hts ht) hty hts ht howns hρ
        hrun

end Simulation

end Scribe
