import Scribe.Proofs.Script.Method

/-!
# The method of a structured lambda does what the lambda does

The script of a structured lambda is read as a method with the statements of `Tree.lowering`, and these do
what the tree does. So a call of the method ends like the evaluation of the lambda, with the same values of
the parameters and the same result.
-/

namespace Scribe

open Reading hiding statement statements

/-! ## Arguments -/

/-- Arguments are found under the name of a parameter as they are under its identity. -/
theorem lookup_names {μ : Ident → String} {i : Ident} {vs : List Variable} (h : ∀ v ∈ vs, μ i = μ v.id → i = v.id)
    (args : List Datum) : ((vs.map fun v => μ v.id).zip args).lookup (μ i) = ((vs.map (·.id)).zip args).lookup i := by
  induction vs generalizing args with
  | nil => rfl
  | cons v vs ih =>
    cases args with
    | nil => rfl
    | cons a args =>
      rw [List.map_cons, List.map_cons, List.zip_cons_cons, List.zip_cons_cons, List.lookup_cons, List.lookup_cons,
        ih (fun w hw => h w (List.mem_cons_of_mem v hw)) args]
      by_cases hi : i = v.id
      · rw [hi, beq_self_eq_true, beq_self_eq_true]
      · have hname : μ i ≠ μ v.id := fun heq => hi (h v List.mem_cons_self heq)
        rw [beq_false_of_ne hi, beq_false_of_ne hname]

theorem agrees_bindArgs {μ : Ident → String} {vs : List Variable} (h : NamesApart μ vs) (args : List Datum) :
    Agrees μ vs (bindArgs (vs.map (·.id)) args) (bindArgs (vs.map fun v => μ v.id) args) := by
  intro v hv
  unfold bindArgs
  rw [lookup_names (fun w hw => h.injective v hv w hw) args]

/-! ## Calls -/

section Calls

variable {l : Lambda}

/-- A method with the statements of the body ends like the lambda. -/
theorem Lambda.Structured.call (h : l.Structured) {ν : Ident → String} (hν : LabelsApart ν l.body.labels)
    {r : Routine} (hbody : r.body = (l.body.lowering ν l.naming.readAs).list (!l.sig.result.isVoid) {})
    (hparams : r.params.map (·.2) = l.sig.params.map fun v => l.naming.readAs v.id) {n : Nat} {args : List Datum}
    {out : List Datum × Option Datum} (hcall : l.call n args = some out) :
    ∃ k, ∀ m, k ≤ m → r.call m args = some out := by
  have hnames := h.namesRead.2
  unfold Lambda.call at hcall
  dsimp only at hcall
  split at hcall
  · next d ρ hrun =>
    cases hcall
    obtain ⟨signal, σ, hσ, hsignal, hleads⟩ := (simulated hν hnames.injective n _ _ _ h.body h.owns {} _ _ _ _
      (agrees_bindArgs hnames args) hrun).list
    have hvalues : (r.params.map (·.2)).map σ = (l.sig.params.map (·.id)).map ρ := by
      rw [hparams, List.map_map, List.map_map]
      exact List.map_congr_left fun v hv => hσ v hv
    have hsignal' : signal = if !l.sig.result.isVoid then .result d else .normal := hsignal
    have hruns : Runs r.body r.body (bindArgs (r.params.map (·.2)) args) (signal, σ) := by
      have hwhole := hleads [] [] (signal, σ) nofun
      rw [List.nil_append, List.append_nil, ← hbody, ← hparams] at hwhole
      refine hwhole ?_
      rw [hsignal']
      cases l.sig.result.isVoid with
      | true => exact Runs.nil _ _
      | false => exact rfl
    obtain ⟨k, hk⟩ := hruns
    refine ⟨k, fun m hm => ?_⟩
    unfold Routine.call
    rw [← hvalues]
    simp only [execFrom_mono hm hk, hsignal']
    cases l.sig.result.isVoid <;> rfl
  · cases hcall

/-- What labels are called when the labels `ls` get names as well. -/
def Naming.labelName (n : Naming) (ls : List Ident) (i : Ident) : String :=
  ((n.nameLabels (ls.map fun i => { id := i })).label? i).getD ""

theorem Naming.calls_labelName (n : Naming) (ls : List Ident) : n.Calls (n.labelName ls) := by
  intro i s hs
  rw [labelName, label?_nameLabels hs]
  rfl

theorem Naming.LabelsNumbered.labelsApart {n : Naming} (h : n.LabelsNumbered) (ls : List Ident) :
    LabelsApart (n.labelName ls) ls := by
  have hnumbered : (n.nameLabels (ls.map fun i => { id := i })).LabelsNumbered := by
    refine h.nameLabels fun m hm => ?_
    obtain ⟨i, -, rfl⟩ := List.mem_map.mp hm
    rfl
  intro i hi j hj heq
  obtain ⟨s, hs⟩ := exists_label? (List.mem_map_of_mem hi) n
  obtain ⟨t, ht⟩ := exists_label? (List.mem_map_of_mem hj) n
  unfold labelName at heq
  rw [hs, ht, Option.getD_some, Option.getD_some] at heq
  exact hnumbered.apart i j s hs (heq ▸ ht)

/-- The text that is drafted is read as a method with the statements of the body. -/
theorem Lambda.Drafted.routine {w : Wrapper} {d : Draft} (hd : l.Drafted w d) (h : l.Structured)
    (hname : isPlainName w.entryName = true) (hfree : Identifier.isReserved w.entryName = false)
    {ν : Ident → String} (hν : d.naming.Calls ν) :
    routine? d.page.tokens = some
      { result := l.sig.result.word
        name := w.entryName
        params := l.sig.params.map fun v => (v.ty.word, l.naming.readAs v.id)
        body := (l.body.lowering ν l.naming.readAs).list (!l.sig.result.isVoid) {} } := by
  have hread := h.namesRead.1
  obtain ⟨us, htokens, hus⟩ := hd.tokens ν hν
  obtain ⟨mods, hmods, hhead⟩ := tokens_head h.result h.keywords (fun v hv => (hread v hv).1) w.isStatic
    (isPlainName_iff.mp hname).1
  have hentry : identifier? w.entryName.toList = some w.entryName := by
    rw [identifier?, (atom?_of_plain hname hfree).2]
  have hparams : (l.sig.params.map fun v => (v.ty.word.toList, (l.naming.ofVariable v.id).toList)).map
      (identifier? ·.2) = (l.sig.params.map fun v => l.naming.readAs v.id).map some := by
    rw [List.map_map, List.map_map]
    refine List.map_congr_left fun v hv => ?_
    show identifier? (l.naming.ofVariable v.id).toList = _
    rw [identifier?, (hread v hv).2]
    rfl
  have hroutine := routine?_read hmods (isWord_keyword h.result).2 hentry hparams hus
  simp only [List.map_map, List.zip_map', Function.comp_def, String.ofList_toList] at hroutine
  rw [htokens, hhead, ← hroutine]
  simp only [List.append_assoc, List.cons_append, List.nil_append]

/-- **The script of a structured lambda keeps its meaning.** It is written as a method with the parameters of
the lambda. Wherever the evaluation of the lambda ends, a call of the method ends with the same values of the
parameters and the same result. -/
theorem Lambda.script_keeps_meaning (h : l.Structured) {w : Wrapper} (hname : isPlainName w.entryName = true)
    (hfree : Identifier.isReserved w.entryName = false) : ∃ text r,
      l.tree.WrittenAlone w text ∧ routine? (tokens text) = some r ∧ r.name = w.entryName ∧
      l.sig.result.keyword? = some r.result ∧
      l.sig.params.map (fun v => (v.ty.keyword?, v.name)) = r.params.map (fun p => (some p.1, some p.2)) ∧
      ∀ n args out, l.call n args = some out → ∃ k, ∀ m, k ≤ m → r.call m args = some out := by
  obtain ⟨u, d, hdraft, hd⟩ := h.draft ⟨w, {}⟩
  have hcalls := d.naming.calls_labelName l.body.labels
  refine ⟨d.page.text, _, ?_, hd.routine h hname hfree hcalls, rfl, ?_, ?_, fun n args out hcall => ?_⟩
  · refine Tree.writtenAlone_of_draft fun layout => ?_
    obtain ⟨u', d', hdraft', hd'⟩ := h.draft ⟨w, layout⟩
    refine ⟨u', d', hdraft', ?_, hd'.methods, hd'.fields, hd'.lexicon⟩
    rcases l.tree.draft_layouts w {} layout with ⟨err, herr, -⟩ | ⟨_, _, _, _, h₁, h₂, htext, -⟩
    · cases hdraft.symm.trans herr
    · cases hdraft.symm.trans h₁
      cases hdraft'.symm.trans h₂
      exact htext.symm
  · exact Ty.keyword?_eq_word h.result
  · rw [List.map_map]
    refine List.map_congr_left fun v hv => ?_
    obtain ⟨s, hs, -⟩ := h.names v hv
    show (v.ty.keyword?, v.name) = (some v.ty.word, some (l.naming.readAs v.id))
    rw [h.namesRead.2.own v hv s hs, hs, Ty.keyword?_eq_word (h.keywords v hv)]
  · refine h.call (hd.labels.labelsApart l.body.labels) rfl ?_ hcall
    rw [List.map_map]
    rfl

end Calls

/-! ## A nested loop -/

/-- The parameters of `countdown`. -/
def countdownParams : List Variable :=
  ["x", "y"].map fun s => { id := .given s, name := some s, ty := .int }

/-- Counts `x` down until it is less than `y`. The loop that counts is inside another one, and a jump leaves both
of them. -/
def countdown : Lambda :=
  let x := Tree.mk (.var { id := .given "x", name := some "x", ty := .int })
  let y := Tree.mk (.var { id := .given "y", name := some "y", ty := .int })
  let done : Label := { id := .given "done" }
  let step := Tree.mk (.conditional (.mk (.binary .lessThan x y .bool)) (.mk (.jump .goto done none .void))
    (.mk (.binary .assign x (.mk (.binary .subtract x (.mk (.constant (.int 1) .int)) .int)) .int)) .void)
  let loops := Tree.mk (.loop (.mk (.loop step (some { id := .given "low" }) none)) (some done) none)
  { sig := { id := .given "countdown", params := countdownParams, result := .int }
    body := .mk (.block [] ([loops] ++ [x]) .int) }

theorem structured_countdown : countdown.Structured where
  types v hv := by
    obtain ⟨s, -, rfl⟩ := List.mem_map.mp hv
    exact Or.inl rfl
  names v hv := by
    obtain ⟨s, hs, rfl⟩ := List.mem_map.mp hv
    have hplain : ∀ s ∈ ["x", "y"], isPlainName s = true := by decide
    exact ⟨s, rfl, hplain s hs⟩
  idsApart := by decide
  namesApart := by decide
  result := rfl
  labels := by decide +kernel
  body := by
    have hx : Tree.Simple countdownParams (.mk (.var { id := .given "x", name := some "x", ty := .int })) :=
      .var (by decide)
    have hy : Tree.Simple countdownParams (.mk (.var { id := .given "y", name := some "y", ty := .int })) :=
      .var (by decide)
    have hone : Tree.Simple countdownParams (.mk (.constant (.int 1) .int)) := .number (by decide)
    refine .block (fun _ => rfl) (fun t ht => ?_) (.result (.simple hx))
    rw [List.mem_singleton.mp ht]
    refine .loop (by decide) (.loop (by decide) (.conditional rfl (.operation rfl rfl hx hy) ?_ ?_))
    · exact .jump (by decide) (by decide)
    · exact .assign (by decide) (.operation rfl rfl hx hone)

theorem countdown_call : countdown.call 20 [.int 5, .int 3] = some ([.int 2, .int 3], some (.int 2)) := by
  decide +kernel

/-- The method of `countdown` counts as well. -/
theorem script_keeps_meaning_countdown :
    countdown.Structured ∧ isPlainName ({} : Wrapper).entryName = true ∧
      Identifier.isReserved ({} : Wrapper).entryName = false ∧ ∃ text r,
        countdown.tree.WrittenAlone {} text ∧ routine? (tokens text) = some r ∧
        ∃ k, ∀ m, k ≤ m → r.call m [.int 5, .int 3] = some ([.int 2, .int 3], some (.int 2)) := by
  have hname : isPlainName ({} : Wrapper).entryName = true := by decide
  have hfree : Identifier.isReserved ({} : Wrapper).entryName = false := by decide
  obtain ⟨text, r, hwritten, hread, -, -, -, hcalls⟩ := Lambda.script_keeps_meaning structured_countdown hname hfree
  exact ⟨structured_countdown, hname, hfree, text, r, hwritten, hread, hcalls 20 _ _ countdown_call⟩

end Scribe
