import Scribe.Proofs.Script.Class

/-!
# What a backend is asked for

A backend is any pair of functions, with any state of its own. `Backend.logged` is the same backend with a log of what
it is asked for, in order.

The script of a lambda is compiled once, and then its fields are filled in one after the other, up to the first one
that cannot be. `BuildRequest.Fits` says that request and script agree: the class that is asked for is the one that
the script opens, its entry method is the one that is asked for, and the lines of the class declare the fields that
are filled in.
-/

namespace Scribe

variable {σ α : Type}

/-! ## The log of a backend -/

/-- What a backend is asked for. -/
inductive Call (α : Type) where
  | compile (request : BuildRequest)
  | fill (artifact : α) (name : String) (value : Hoisted)

namespace Backend

/-- The backend, with a log of what it is asked for. -/
def logged (b : Backend (StateM σ) α) : Backend (StateM (σ × List (Call α))) α where
  compile request := do
    let (s, log) ← get
    let (answer, s) := (b.compile request).run s
    set (s, log ++ [.compile request])
    return answer
  fill artifact name value := do
    let (s, log) ← get
    let (answer, s) := (b.fill artifact name value).run s
    set (s, log ++ [.fill artifact name value])
    return answer

/-- Fields are filled in one after the other, up to the first one that cannot be. The calls are those that are made
between the two states of the backend. -/
inductive Fills (b : Backend (StateM σ) α) :
    α → σ → List Field → List (Call α) → Except BackendError α → σ → Prop where
  | done (artifact : α) (s : σ) : Fills b artifact s [] [] (.ok artifact) s
  | refused {artifact : α} {s s' : σ} {f : Field} {fs : List Field} {err : BackendError} :
      (b.fill artifact f.name f.value).run s = (.error err, s') →
      Fills b artifact s (f :: fs) [.fill artifact f.name f.value] (.error err) s'
  | filled {artifact artifact' : α} {s s' s'' : σ} {f : Field} {fs : List Field} {calls : List (Call α)}
      {result : Except BackendError α} :
      (b.fill artifact f.name f.value).run s = (.ok artifact', s') → Fills b artifact' s' fs calls result s'' →
      Fills b artifact s (f :: fs) (.fill artifact f.name f.value :: calls) result s''

/-- A request is compiled, and then the fields are filled in. -/
inductive Builds (b : Backend (StateM σ) α) (request : BuildRequest) (fields : List Field) :
    σ → List (Call α) → Except BuildError α → σ → Prop where
  | rejected {s s' : σ} {err : BackendError} : (b.compile request).run s = (.error err, s') →
      Builds b request fields s [.compile request] (.error (.backend err)) s'
  | compiled {s s' s'' : σ} {artifact : α} {calls : List (Call α)} {result : Except BackendError α} :
      (b.compile request).run s = (.ok artifact, s') → b.Fills artifact s' fields calls result s'' →
      Builds b request fields s (.compile request :: calls) (result.mapError .backend) s''

/-- What goes wrong in a backend is an error of the backend. -/
theorem Builds.ne_script {b : Backend (StateM σ) α} {request : BuildRequest} {fields : List Field} {s s' : σ}
    {calls : List (Call α)} {result : Except BuildError α} (h : b.Builds request fields s calls result s')
    (err : ScriptError) : result ≠ .error (.script err) := by
  have hbackend : ∀ answer : Except BackendError α, answer.mapError BuildError.backend ≠ .error (.script err) := by
    rintro (err | artifact)
    · exact nofun
    · exact nofun
  cases h with
  | rejected _ => exact nofun
  | compiled _ _ => exact hbackend _

theorem logged_compile (b : Backend (StateM σ) α) (request : BuildRequest) (s : σ) (log : List (Call α)) :
    (b.logged.compile request).run (s, log) =
      (((b.compile request).run s).1, ((b.compile request).run s).2, log ++ [.compile request]) := rfl

theorem logged_fill (b : Backend (StateM σ) α) (artifact : α) (name : String) (value : Hoisted) (s : σ)
    (log : List (Call α)) : (b.logged.fill artifact name value).run (s, log) =
      (((b.fill artifact name value).run s).1, ((b.fill artifact name value).run s).2,
        log ++ [.fill artifact name value]) := rfl

/-- The log of filling in fields. -/
theorem fillAll_logged (b : Backend (StateM σ) α) (fields : List Field) (artifact : α) (s : σ)
    (log : List (Call α)) : ∃ calls result s',
      (b.logged.fillAll artifact fields).run (s, log) = (result, s', log ++ calls) ∧
        b.Fills artifact s fields calls result s' := by
  induction fields generalizing artifact s log with
  | nil => exact ⟨[], .ok artifact, s, by rw [List.append_nil]; rfl, .done artifact s⟩
  | cons f fs ih =>
    have hfirst := b.logged_fill artifact f.name f.value s log
    rw [fillAll, StateT.run_bind, hfirst]
    cases hfill : (b.fill artifact f.name f.value).run s with
    | mk answer s' =>
      cases answer with
      | error err => exact ⟨_, .error err, s', rfl, .refused hfill⟩
      | ok next =>
        obtain ⟨calls, result, s'', hrest, hfills⟩ := ih next s' (log ++ [.fill artifact f.name f.value])
        refine ⟨.fill artifact f.name f.value :: calls, result, s'', ?_, .filled hfill hfills⟩
        rw [List.append_assoc] at hrest
        exact hrest

end Backend

/-! ## Requests and scripts -/

/-- Request and script agree about the class and its entry method, and the class declares the fields in the order of
their names, on a line each. -/
def BuildRequest.Fits (request : BuildRequest) (fields : List Field) : Prop :=
  ∃ c : ClassText, request.script = c.text ∧ request.typeName = c.qualifiedName ∧ request.methodName = c.entry ∧
    request.isStatic = c.isStatic ∧ (c.fields.map Prod.fst).Pairwise (· ≤ ·) ∧
    (c.fields.map Prod.fst).Perm (fields.map (·.name))

namespace Lambda

variable {l : Lambda} {o : BuildOptions} {script : Script}

/-- The request for a script fits it, since there is always a class. -/
theorem request_fits (h : l.tree.toScript o.effectiveWrapper = .ok script) :
    (BuildRequest.ofScript script o.effectiveWrapper o.references).Fits script.fields := by
  obtain ⟨c, htext, hspace, hname, hentry, hstatic, hsorted, hperm⟩ := toScript_class rfl h
  refine ⟨c, htext, ?_, hentry.symm, hstatic.symm, hsorted, hperm⟩
  unfold ClassText.qualifiedName
  rw [hspace, hname]
  rfl

/-- The calls that are made for a script that could be written. -/
theorem build_logged (h : l.tree.toScript o.effectiveWrapper = .ok script) (b : Backend (StateM σ) α) (s : σ) :
    ∃ calls result s', (l.build o b.logged).run (s, []) = (result, s', calls) ∧
      b.Builds (.ofScript script o.effectiveWrapper o.references) script.fields s calls result s' := by
  let request := BuildRequest.ofScript script o.effectiveWrapper o.references
  have hfirst := b.logged_compile request s []
  unfold build
  simp only [h]
  rw [StateT.run_bind, hfirst]
  cases hcompile : (b.compile request).run s with
  | mk answer s' =>
    cases answer with
    | error err => exact ⟨[.compile request], .error (.backend err), s', rfl, .rejected hcompile⟩
    | ok artifact =>
      obtain ⟨calls, result, s'', hfill, hfills⟩ := b.fillAll_logged script.fields artifact s' [.compile request]
      refine ⟨.compile request :: calls, result.mapError .backend, s'', ?_, .compiled hcompile hfills⟩
      show (StateT.run (b.logged.fillAll artifact script.fields >>= _) (s', [.compile request]) : Id _) = _
      rw [StateT.run_bind, hfill]
      cases result with
      | error err | ok artifact => rfl

/-- A build that gives `result` falls back on `direct` when that is a failure, and asks for nothing more. -/
theorem buildOr_run {b : Backend (StateM σ) α} {direct : Lambda → α} {s s' : σ} {result : Except BuildError α}
    (h : (l.build o b).run s = (result, s')) (hresult : result ≠ .error (.script .noFullName)) :
    (l.buildOr o b direct).run s = (.ok (result.toOption.getD (direct l)), s') := by
  unfold buildOr
  rw [StateT.run_bind, h]
  cases result with
  | ok artifact => rfl
  | error err =>
    cases err with
    | backend err => rfl
    | script err =>
      cases err with
      | noFullName => exact absurd rfl hresult
      | _ => rfl

/-- **Request, script and fields agree.** When the script of a lambda can be written, the backend is asked once to
compile it, with a request that fits the script, and then to fill in its fields in the order in which they were
created, up to the first one that cannot be. When it cannot be written, the backend is asked for nothing. A build that
failed falls back on `direct`, and no other does; the one exception is a malformed type, which ends everything. -/
theorem build_agrees (l : Lambda) (o : BuildOptions) (b : Backend (StateM σ) α) (direct : Lambda → α) (s : σ) :
    match l.tree.toScript o.effectiveWrapper with
    | .ok script =>
      ∃ request calls result s', request.script = script.text ∧ request.Fits script.fields ∧
        b.Builds request script.fields s calls result s' ∧
        (l.build o b.logged).run (s, []) = (result, s', calls) ∧
        (l.buildOr o b.logged direct).run (s, []) = (.ok (result.toOption.getD (direct l)), s', calls)
    | .error err =>
      (l.build o b.logged).run (s, []) = (.error (.script err), s, []) ∧
        (l.buildOr o b.logged direct).run (s, []) =
          (if err = .noFullName then .error err else .ok (direct l), s, []) := by
  cases h : l.tree.toScript o.effectiveWrapper with
  | ok script =>
    obtain ⟨calls, result, s', hbuild, hbuilds⟩ := build_logged h b s
    refine ⟨_, calls, result, s', rfl, request_fits h, hbuilds, hbuild, ?_⟩
    exact buildOr_run hbuild (hbuilds.ne_script .noFullName)
  | error err =>
    have hbuild : (l.build o b.logged).run (s, []) = (.error (.script err), s, []) := by
      unfold build
      simp only [h]
      rfl
    refine ⟨hbuild, ?_⟩
    by_cases herr : err = .noFullName
    · subst herr
      unfold buildOr
      rw [StateT.run_bind, hbuild]
      rfl
    · rw [if_neg herr]
      exact buildOr_run hbuild fun heq => herr (BuildError.script.inj (Except.error.inj heq))

end Lambda

end Scribe
