import Scribe.Proofs.Flow.Lines
import Scribe.Proofs.Flow.Simulation

/-!
# Structured trees are written as their statements

The tokens that writing a structured tree adds to a page spell the statements of `Tree.lowering`. There is one
lemma for each construct, and the induction over structured trees puts them together.
-/

namespace Scribe

open Writing
open Reading hiding statement statements

variable {t : Tree} {tail : Tail} {P : (Ident → String) → List Token → Prop}

/-- How a tree hands on its value, if it is returned. -/
def tailOf (returns : Bool) : Tail := if returns then .result else .discard

theorem tailOf_atType {returns : Bool} {ty : Ty} (h : returns = true → ty.isVoid = false) :
    (tailOf returns).atType ty = tailOf returns := by
  cases returns with
  | true => exact if_neg (by rw [h rfl]; decide)
  | false =>
    unfold Tail.atType
    split <;> rfl

/-- The tokens are an `else` with the statement, or nothing for an empty one. -/
def Reading.SpellsElse (ts : List Token) (s : Stmt) : Prop :=
  (ts = [] ∧ s = .empty) ∨ ∃ us, ts = keyword "else" :: us ∧ Spells us s

/-- The step writes the statements for the tree. -/
def Writing.Lowers {α : Type} (x : Writing α) (desk : Desk) (μ : Ident → String) (t : Tree) (returns : Bool)
    (d : Draft) : Prop :=
  Writes x desk d (t.gotos d.flow.frame) fun ν ts => SpellsAll ts ((t.lowering ν μ).list returns d.flow.frame)

/-- What is shown of a structured tree: it is written as its statements, in a list and behind an `else`; and
of a conditional, the body for the case that its test succeeds is written as its statements. -/
structure Tree.IsWritten (t : Tree) (desk : Desk) (μ : Ident → String) (vs : List Variable) (returns : Bool)
    (scope : List Label) : Prop where
  statement (d : Draft) : d.Ready μ vs scope → ∀ isFirst isLast,
    Lowers (statement t.piece (tailOf returns) isFirst isLast) desk μ t returns d
  otherwise (d : Draft) : d.Ready μ vs scope →
    Writes (elseBranch t.piece (tailOf returns)) desk d (t.gotos d.flow.frame) fun ν ts =>
      SpellsElse ts ((t.lowering ν μ).otherwise returns d.flow.frame)
  whenTrue {c a b : Tree} {ty : Ty} : t.node = .conditional c a b ty → ∀ d : Draft, d.Ready μ vs scope →
    Lowers (a.piece.body (tailOf returns)) desk μ a returns d

section Constructs

variable {desk : Desk} {d : Draft} {μ : Ident → String} {vs : List Variable} {returns : Bool} {scope : List Label}

/-! ## Statements and bodies -/

theorem statement_of_isExpression (hexpr : t.isExpression = true) (hempty : t.isEmpty = false)
    (tail : Tail) (isFirst isLast : Bool) : statement t.piece tail isFirst isLast = lineOf t.piece tail := by
  obtain ⟨n⟩ := t
  unfold statement
  simp only [Tree.piece, hempty, hexpr, Bool.false_eq_true, if_false, if_true]
  cases n with
  | sequencePoint document span | label target value =>
    rw [Tree.isExpression, Tree.fold_mk] at hexpr
    cases hexpr
  | _ => rfl

/-- Whether the tree is a block, a conditional or a loop. -/
def Tree.isCompound (t : Tree) : Bool :=
  match t.node with
  | .block _ _ _ | .conditional _ _ _ _ | .loop _ _ _ => true
  | _ => false

theorem statement_of_isCompound (h : t.isCompound = true) (hexpr : t.isExpression = false) (tail : Tail)
    (isFirst isLast : Bool) :
    statement t.piece tail isFirst isLast = do
      unless isFirst do newline
      let u ← t.piece.write tail
      return [u] := by
  obtain ⟨n⟩ := t
  have hempty : (Tree.mk n).isEmpty = false := by cases n <;> first | rfl | cases h
  unfold statement
  simp only [Tree.piece, hempty, hexpr, Bool.false_eq_true, if_false]
  cases n <;> first | rfl | cases h

/-- A compound statement starts on a line of its own. -/
theorem Tree.isCompound.writes (h : t.isCompound = true) (hexpr : t.isExpression = false) {used : List Ident}
    (hwrite : ∀ page, Writes (t.piece.write tail) desk { d with page } used P) (isFirst isLast : Bool) :
    Writes (statement t.piece tail isFirst isLast) desk d used P := by
  rw [statement_of_isCompound h hexpr]
  cases isFirst with
  | true => exact (hwrite d.page).map _
  | false =>
    have hnewline : d.Adds { d with page := d.page.newline } [] [] :=
      d.adds_page (by rw [Text.Page.tokens_newline, List.append_nil]) d.passages
    exact Writes.after hnewline rfl ((hwrite _).map fun u => [u]) fun _ _ hP => hP

theorem body_writes (hlabel : t.node.labelTarget? = none) {used : List Ident}
    (h : Writes (statement t.piece tail true true) desk d used P) : Writes (t.piece.body tail) desk d used P := by
  have hsingle : Writes (do let ts ← statements [t.piece] tail; return Tree.ofStatements ts) desk d used P := by
    have hstatements : statements [t.piece] tail desk d =
        (do let here ← statement t.piece tail true true; return here ++ []) desk d := by
      unfold statements
      simp only [List.getLast?_singleton, Option.bind_some, Tree.piece, hlabel]
      rfl
    obtain ⟨ts, e, us, hrun, hadds, hP⟩ := h.map (fun here => here ++ [])
    refine ⟨Tree.ofStatements ts, e, us, ?_, hadds, hP⟩
    rw [bind_apply, hstatements, hrun]
    rfl
  obtain ⟨n⟩ := t
  cases n with
  | block vars ts ty =>
    rw [statement_of_isCompound rfl (by rw [Tree.isExpression, Tree.fold_mk]; rfl)] at h
    exact h.of_map
  | defaultOf ty =>
    unfold Piece.body
    by_cases hempty : (Tree.mk (.defaultOf ty)).isEmpty = true
    · unfold statement at h
      simp only [Tree.piece, hempty, if_true] at h ⊢
      obtain ⟨a, e, ts, hrun, hadds, hP⟩ := h
      cases hrun
      exact ⟨_, d, ts, rfl, hadds, hP⟩
    · simp only [Tree.piece, hempty]
      exact hsingle
  | _ => exact hsingle

theorem Tree.Structured.labelTarget? (h : t.Structured vs returns scope) : t.node.labelTarget? = none := by
  cases h with
  | result h =>
    cases h with
    | simple h => cases h <;> rfl
    | operation _ _ _ _ => rfl
  | _ => rfl

theorem Tree.IsWritten.body (h : t.IsWritten desk μ vs returns scope) (hlabel : t.node.labelTarget? = none) (d : Draft)
    (hd : d.Ready μ vs scope) : Lowers (t.piece.body (tailOf returns)) desk μ t returns d :=
  body_writes hlabel (h.statement d hd true true)

theorem bracedBody_writes (h : ∀ page, Lowers (t.piece.body tail) desk μ t returns { d with page }) :
    Writes (t.piece.bracedBody tail) desk d (t.gotos d.flow.frame) fun ν ts =>
      Spells ts (.block ((t.lowering ν μ).list returns d.flow.frame)) :=
  Writes.braced (P := fun ν ts => SpellsAll ts ((t.lowering ν μ).list returns d.flow.frame)) h
    fun _ _ hts => hts.block

/-- What is neither a conditional nor left out becomes a block behind an `else`. -/
theorem isWritten_of_statement (hlabel : t.node.labelTarget? = none)
    (homitted : t.isOmitted (tailOf returns == .discard) = false) (hbranches : t.piece.2.branches = none)
    (hblock : ∀ ν frame, (t.lowering ν μ).otherwise returns frame = .block ((t.lowering ν μ).list returns frame))
    (hnode : ∀ c a b ty, t.node ≠ .conditional c a b ty)
    (hstatement : ∀ d : Draft, d.Ready μ vs scope → ∀ isFirst isLast,
      Lowers (statement t.piece (tailOf returns) isFirst isLast) desk μ t returns d) :
    t.IsWritten desk μ vs returns scope where
  statement := hstatement
  otherwise d hd := by
    have helse : elseBranch t.piece (tailOf returns) =
        (do putLine "else"; t.piece.bracedBody (tailOf returns)) := by
      unfold elseBranch
      rw [show t.piece.tree.isOmitted (tailOf returns == .discard) = false from homitted, hbranches]
      rfl
    have hline : d.Adds { d with page := d.page.writeLine "else" } [] [keyword "else"] :=
      d.adds_page (d.page.tokens_writeLine "else") d.passages
    have hbody := bracedBody_writes (d := { d with page := d.page.writeLine "else" }) fun page =>
      body_writes hlabel (hstatement { d with page } (hd.onPage page d.passages) true true)
    rw [helse]
    refine Writes.after hline rfl hbody fun ν us hus => Or.inr ⟨us, rfl, ?_⟩
    rw [hblock]
    exact hus
  whenTrue h := absurd h (hnode _ _ _ _)

/-! ## Lines -/

theorem lineOf_writes {p : Piece} {a : Tree} {s : String} {ls : List Label} {used : List Ident}
    (h : p.inline desk { d with page := d.page.writeLine (leadOf p.tree tail) } =
      .ok (a, { d with
        page := (d.page.writeLine (leadOf p.tree tail)).write s
        naming := d.naming.nameLabels ls
        flow := d.flow.marked used }))
    (hls : ∀ l ∈ ls, l.name = none)
    (hP : ∀ ν, (d.naming.nameLabels ls).Calls ν → P ν (tokens (leadOf p.tree tail ++ (s ++ ";")))) :
    Writes (lineOf p tail) desk d used P := by
  obtain ⟨ts, passages, hline⟩ := lineOf_apply h
  exact ⟨ts, _, _, hline, d.adds_line _ hls used passages, hP⟩

/-- An expression that names and marks nothing. -/
theorem lineOf_writes_of_inline {p : Piece} {a : Tree} {s : String}
    (h : p.inline desk { d with page := d.page.writeLine (leadOf p.tree tail) } =
      .ok (a, { d with page := (d.page.writeLine (leadOf p.tree tail)).write s }))
    (hP : ∀ ν, P ν (tokens (leadOf p.tree tail ++ (s ++ ";")))) : Writes (lineOf p tail) desk d [] P := by
  have hquiet : p.inline desk { d with page := d.page.writeLine (leadOf p.tree tail) } =
      .ok (a, { d with
        page := (d.page.writeLine (leadOf p.tree tail)).write s
        naming := d.naming.nameLabels []
        flow := d.flow.marked [] }) := by
    rw [Flow.marked_nil]
    exact h
  exact lineOf_writes hquiet nofun fun ν _ => hP ν

theorem leadOf_discard (t : Tree) : leadOf t .discard = "" := by
  unfold leadOf
  split <;> rfl

theorem isWritten_skip : (Tree.mk (.defaultOf .void)).IsWritten desk μ vs false scope := by
  have hgotos (frame : Frame) : (Tree.mk (.defaultOf .void)).gotos frame = [] := by
    rw [Tree.gotos, Tree.fold_mk]
    rfl
  refine ⟨fun d hd isFirst isLast => ?_, fun d hd => ?_, by rintro _ _ _ _ ⟨⟩⟩
  · unfold Lowers
    rw [hgotos]
    refine writes_pure [] fun ν => ?_
    rw [Tree.lowering_skip]
    exact SpellsAll.nil
  · rw [hgotos]
    refine writes_pure _ fun ν => Or.inl ⟨rfl, ?_⟩
    rw [Tree.lowering_skip]

theorem isWritten_assign {v : Variable} (hv : v ∈ vs) {e : Tree} (he : Tree.Pure vs e) {ty : Ty} :
    (Tree.mk (.binary .assign (.mk (.var v)) e ty)).IsWritten desk μ vs false scope := by
  refine isWritten_of_statement rfl rfl (by rw [Tree.piece_mk]; rfl)
    (fun ν frame => by rw [Tree.lowering_assign]; rfl) nofun fun d hd isFirst isLast => ?_
  have hexpr : (Tree.mk (.binary .assign (.mk (.var v)) e ty)).isExpression = true := by
    rw [Tree.isExpression, Tree.fold_mk]
    rfl
  have hgotos : (Tree.mk (.binary .assign (.mk (.var v)) e ty)).gotos d.flow.frame = [] := by
    rw [Tree.gotos_binary, (Tree.Simple.var hv).labels_eq d.flow.frame |>.2, (he.labels_eq d.flow.frame).2]
    rfl
  have hdiscard := leadOf_discard (Tree.mk (.binary .assign (.mk (.var v)) e ty))
  obtain ⟨hword, hatom⟩ := hd.reads v hv
  obtain ⟨a, ha⟩ := inline_assign (hd.onPage (d.page.writeLine (leadOf _ .discard)) d.passages) desk hv he ty
  unfold Lowers
  rw [statement_of_isExpression hexpr rfl, hgotos]
  refine lineOf_writes_of_inline ha fun ν => ?_
  have hspaced : (" = " : String) = " " ++ String.ofList ['='] ++ " " := by decide
  have hid : identifier? (d.naming.ofVariable v.id).toList = some (μ v.id) := by rw [identifier?, hatom]
  show SpellsAll (tokens (leadOf (Tree.mk (.binary .assign (.mk (.var v)) e ty)) .discard ++ _)) _
  rw [hdiscard, Tree.lowering_assign, String.empty_append, tokens_terminated, hspaced, tokens_spaced (by decide),
    tokens_of_isWord hword]
  exact (Spells.assign hid (hd.reads_shown he.plain he.vars_subset)).all

theorem isWritten_jump {kind : JumpKind} (hkind : kind ≠ .returnTo) {target : Label} (htarget : target ∈ scope)
    {ty : Ty} : (Tree.mk (.jump kind target none ty)).IsWritten desk μ vs false scope := by
  refine isWritten_of_statement rfl rfl (by rw [Tree.piece_mk]; rfl)
    (fun ν frame => by rw [Tree.lowering_jump]; rfl) nofun fun d hd isFirst isLast => ?_
  have hexpr : (Tree.mk (.jump kind target none ty)).isExpression = true := by
    rw [Tree.isExpression, Tree.fold_mk]
    rfl
  have hdiscard := leadOf_discard (Tree.mk (.jump kind target none ty))
  have hinline : (Tree.mk (.jump kind target none ty)).piece.inline = jump kind target none := by
    rw [Tree.piece_mk]
    rfl
  have hline := hd.onPage (d.page.writeLine (leadOf (Tree.mk (.jump kind target none ty)) .discard)) d.passages
  obtain ⟨a, s, ls, ha, hls, hspells⟩ := jump_apply hline desk htarget hkind
  unfold Lowers
  rw [statement_of_isExpression hexpr rfl, Tree.gotos_jump]
  refine lineOf_writes (hinline ▸ ha) hls fun ν hν => ?_
  show SpellsAll (tokens (leadOf (Tree.mk (.jump kind target none ty)) .discard ++ _)) _
  rw [hdiscard, Tree.lowering_jump, String.empty_append]
  exact (hspells ν hν).all

/-- A tree with a value that is written as an expression is returned. -/
theorem statement_result (hplain : t.Plain) (hvars : ∀ v ∈ t.vars, v ∈ vs) (hty : t.ty.isVoid = false)
    (hd : d.Ready μ vs scope) (desk : Desk) (isFirst isLast : Bool) :
    Writes (statement t.piece .result isFirst isLast) desk d [] fun _ ts =>
      SpellsAll ts [.result (some (t.reading μ))] := by
  have hlead : leadOf t .result = "return " := by
    have hnode : t.node.isThrow = false ∧ t.node.isJump = false := by
      cases hplain with
      | @unary op s e ty hs he => cases op <;> first | exact ⟨rfl, rfl⟩ | cases hs
      | _ => exact ⟨rfl, rfl⟩
    unfold leadOf
    rw [hnode.1, hnode.2, hty]
    rfl
  have hempty : t.isEmpty = false := by cases hplain <;> rfl
  obtain ⟨a, ha⟩ := (hd.onPage (d.page.writeLine (leadOf t .result)) d.passages).inline desk hplain hvars
  rw [statement_of_isExpression hplain.isExpression hempty]
  refine lineOf_writes_of_inline ha fun ν => ?_
  have hreturn := tokens_lead "return " (w := "return") rfl (by decide) (t.shown d.naming.ofVariable ++ ";")
  rw [tokens_terminated] at hreturn
  show SpellsAll (tokens (leadOf t .result ++ (t.shown d.naming.ofVariable ++ ";"))) _
  rw [hlead]
  exact hreturn ▸ (Spells.result (hd.reads_shown hplain hvars)).all

theorem isWritten_result (h : t.Pure vs) (hvs : ∀ v ∈ vs, v.ty.deref.isVoid = false) :
    t.IsWritten desk μ vs true scope := by
  have hty : t.ty.isVoid = false := by
    cases h with
    | simple h =>
      cases h with
      | var hv => exact hvs _ hv
      | number _ => rfl
    | operation _ hty _ _ => exact hty
  have hnode : t.isOmitted false = false ∧ t.piece.2.branches = none ∧
      ∀ c a b ty, t.node ≠ .conditional c a b ty := by
    cases h with
    | simple h => cases h <;> exact ⟨rfl, by rw [Tree.piece_mk]; rfl, nofun⟩
    | operation _ _ _ _ => exact ⟨rfl, by rw [Tree.piece_mk]; rfl, nofun⟩
  have hstructured : t.Structured vs true scope := .result h
  refine isWritten_of_statement hstructured.labelTarget? hnode.1 hnode.2.1
    (fun ν frame => by rw [h.lowering_eq]; rfl) hnode.2.2 fun d hd isFirst isLast => ?_
  have hresult := statement_result h.plain h.vars_subset hty hd desk isFirst isLast
  unfold Lowers
  rw [(h.labels_eq d.flow.frame).2]
  refine hresult.mono fun ν ts hts => ?_
  rw [h.lowering_eq]
  exact hts

/-! ## Conditionals -/

section Conditional

variable {c a b : Tree} {ty : Ty}

/-- The test on the line of an `if` or a `while`. -/
theorem test_apply (hd : d.Ready μ vs scope) (desk : Desk) (hc : c.Pure vs) :
    ∃ t passages, c.piece.test desk d =
      .ok (t, { d with page := d.page.write (c.shown d.naming.ofVariable), passages }) := by
  obtain ⟨t, ht⟩ := hc.inline hd desk
  have hvalue : c.piece.value = c.piece.inline := if_pos hc.plain.isExpression
  obtain ⟨o, passages, hmark⟩ := mark_apply .test d.page desk
    { d with page := d.page.write (c.shown d.naming.ofVariable) }
  unfold Piece.test
  simp only [bind_apply, page_apply, hvalue, ht, hmark]
  cases o with
  | none | some point => exact ⟨_, passages, rfl⟩

theorem test_line (hd : d.Ready μ vs scope) (desk : Desk) (hc : c.Pure vs) (lead : String) {α : Type}
    (f : Tree → Writing α) :
    ∃ t passages, (do putLine lead; let t ← c.piece.test; put ")"; f t) desk d =
      f t desk { d with page := d.page.writeLine (lead ++ (c.shown d.naming.ofVariable ++ ")")), passages } := by
  obtain ⟨t, passages, ht⟩ := test_apply (hd.onPage (d.page.writeLine lead) d.passages) desk hc
  refine ⟨t, passages, ?_⟩
  have hwrite : ((d.page.writeLine lead).write (c.shown d.naming.ofVariable)).write ")" =
      d.page.writeLine (lead ++ (c.shown d.naming.ofVariable ++ ")")) := by
    unfold Text.Page.writeLine
    rw [Text.Page.write_write, Text.Page.write_write]
  unfold putLine put onPage
  simp only [bind_apply, modify_apply, ht, hwrite]

/-- A conditional that is no expression is written as an `if`, behind the tokens `pre`. -/
theorem ifStatement_writes (hd : d.Ready μ vs scope) {lead : String} (pre : List Token)
    (hlead : ∀ s, tokens (lead ++ s) = pre ++ tokens ("if (" ++ s)) (hty : returns = true → ty.isVoid = false)
    (hc : c.Pure vs) (ha : a.Structured vs returns scope) (iha : a.IsWritten desk μ vs returns scope)
    (ihb : b.IsWritten desk μ vs returns scope) :
    Writes (ifStatement lead c.piece a.piece b.piece ty (tailOf returns)) desk d
      ((Tree.mk (.conditional c a b ty)).gotos d.flow.frame) fun ν ts => ∃ us, ts = pre ++ us ∧
        Spells us (((Tree.mk (.conditional c a b ty)).lowering ν μ).otherwise returns d.flow.frame) := by
  have hif : ifStatement lead c.piece a.piece b.piece ty (tailOf returns) = (do
      putLine lead; let t ← c.piece.test; put ")"
      let a' ← a.piece.bracedBody (tailOf returns)
      let b' ← elseBranch b.piece (tailOf returns)
      return Tree.mk (.conditional t a' b' ty)) := by
    unfold ifStatement
    rw [tailOf_atType hty]
  obtain ⟨t, passages, hline⟩ := test_line hd desk hc lead fun t => do
    let a' ← a.piece.bracedBody (tailOf returns)
    let b' ← elseBranch b.piece (tailOf returns)
    return Tree.mk (.conditional t a' b' ty)
  have hready (page : Text.Page) := hd.onPage page passages
  have hadds := d.adds_page (d.page.tokens_writeLine (lead ++ (c.shown d.naming.ofVariable ++ ")"))) passages
  have hbody := bracedBody_writes
    (d := { d with page := d.page.writeLine (lead ++ (c.shown d.naming.ofVariable ++ ")")), passages })
    fun page => iha.body ha.labelTarget? _ (hready page)
  -- the body in braces first, and then the `else` in whatever form it has
  have hparts := hbody.bind
    (Q := fun ν ws => SpellsElse ws ((b.lowering ν μ).otherwise returns d.flow.frame))
    (R := fun ν us => ∃ vs ws, us = vs ++ ws ∧ Spells vs (.block ((a.lowering ν μ).list returns d.flow.frame)) ∧
      SpellsElse ws ((b.lowering ν μ).otherwise returns d.flow.frame))
    (fun a' e ts hadds' => by
      have helse := ihb.otherwise e ((hready _).adds hadds')
      rw [hadds'.frame] at helse
      exact helse.map fun b' => Tree.mk (.conditional t a' b' ty))
    fun ν vs ws hvs hws => ⟨vs, ws, rfl, hvs, hws⟩
  rw [hif, Tree.gotos_conditional, (hc.labels_eq d.flow.frame).2, List.nil_append]
  refine Writes.after hadds hline hparts fun ν us hus => ?_
  obtain ⟨vs', ws, rfl, hvs, hws⟩ := hus
  have hreads := hd.reads_shown hc.plain hc.vars_subset
  rw [hlead, tokens_test (w := "if") (by decide) (by decide), Tree.otherwise_conditional]
  refine ⟨_, List.append_assoc _ _ _, ?_⟩
  simp only [List.cons_append, List.append_assoc, List.nil_append]
  rcases hws with ⟨rfl, hempty⟩ | ⟨us, rfl, hus⟩
  · rw [hempty, List.append_nil]
    exact .branch hreads hvs
  · exact .branchElse hreads hvs hus

theorem isWritten_conditional (hvoid : ty.isVoid = !returns) (hc : c.Pure vs) (ha : a.Structured vs returns scope)
    (hb : b.Structured vs returns scope) (iha : a.IsWritten desk μ vs returns scope)
    (ihb : b.IsWritten desk μ vs returns scope) :
    (Tree.mk (.conditional c a b ty)).IsWritten desk μ vs returns scope := by
  have hty : returns = true → ty.isVoid = false := fun hreturns => by rw [hvoid, hreturns]; rfl
  have hexpr : (Tree.mk (.conditional c a b ty)).isExpression = (returns && a.isExpression && b.isExpression) := by
    rw [Tree.isExpression_conditional, hvoid, Bool.not_not]
  refine ⟨fun d hd isFirst isLast => ?_, fun d hd => ?_, fun h d hd => ?_⟩
  · unfold Lowers
    -- as an expression it is the value of a `return`, and else it is an `if`
    cases hwhole : (Tree.mk (.conditional c a b ty)).isExpression with
    | true =>
      have hreturns : returns = true := by simp_all
      subst hreturns
      have helementary := (Tree.Structured.conditional hvoid hc ha hb).elementary rfl hwhole
      have hresult := statement_result helementary.plain helementary.vars_subset (hty rfl) hd desk isFirst isLast
      rw [helementary.gotos_eq d.flow.frame]
      refine hresult.mono fun ν ts hts => ?_
      rw [Tree.list_conditional, if_pos (hexpr ▸ hwhole)]
      exact hts
    | false =>
      have hwrite : (Tree.mk (.conditional c a b ty)).piece.write (tailOf returns) =
          ifStatement "if (" c.piece a.piece b.piece ty (tailOf returns) := by
        rw [Tree.piece_mk]
        refine if_neg ?_
        rw [Tree.isExpression_conditional] at hwhole
        exact Bool.eq_false_iff.mp hwhole
      refine Tree.isCompound.writes rfl hwhole (fun page => ?_) isFirst isLast
      have hif := ifStatement_writes (hd.onPage page d.passages) [] (fun s => rfl) hty hc ha iha ihb
      rw [hwrite]
      refine hif.mono fun ν ts hts => ?_
      obtain ⟨us, rfl, hus⟩ := hts
      rw [Tree.list_conditional, if_neg (by rw [← hexpr, hwhole]; decide)]
      exact hus.all
  · have hlead (s : String) : tokens ("else if (" ++ s) = [keyword "else"] ++ tokens ("if (" ++ s) := by
      have hword := tokens_lead "else " (w := "else") rfl (by decide) ("if (" ++ s)
      rw [← String.append_assoc] at hword
      exact hword
    have helse : elseBranch (Tree.mk (.conditional c a b ty)).piece (tailOf returns) =
        ifStatement "else if (" c.piece a.piece b.piece ty (tailOf returns) := by
      rw [Tree.piece_mk]
      rfl
    rw [helse]
    exact (ifStatement_writes hd _ hlead hty hc ha iha ihb).mono fun ν ts ⟨us, hts, hus⟩ => Or.inr ⟨us, hts, hus⟩
  · cases h
    exact iha.body ha.labelTarget? d hd

end Conditional

/-! ## Loops -/

section Loop

variable {body : Tree} {exit again : Option Label} {ls used : List Ident}

/-- The draft inside a loop. -/
def Draft.inLoop (d : Draft) (exit again : Option Label) : Draft :=
  { d with flow := { d.flow with scopes := .loop exit again false false :: d.flow.scopes } }

theorem Draft.Ready.inLoop (hd : d.Ready μ vs scope) (hlabels : ∀ l ∈ exit.toList ++ again.toList, l.name = none)
    (howns : (Tree.mk (.loop body exit again)).Owns ls scope) :
    (d.inLoop exit again).Ready μ vs (exit.toList ++ again.toList ++ scope) := by
  have hnodup := howns.nodup
  rw [Tree.labels_loop, List.nodup_append] at hnodup
  refine ⟨hd.undeclared, hd.faults, hd.takers, ⟨fun s hs => ?_, ?_, ?_⟩, fun l hl => ?_, hd.numbered, hd.knows,
    hd.reads⟩
  · rcases List.mem_cons.mp hs with rfl | hs
    · nofun
    · exact hd.within.loops s hs
  · show (exit.toList ++ again.toList) ++ d.flow.scopes.flatMap (·.labels) = _
    rw [hd.within.labels]
  · rw [List.map_append, List.nodup_append]
    refine ⟨hnodup.1, hd.within.nodup, fun i hi j hj heq => ?_⟩
    obtain ⟨l, hl, rfl⟩ := List.mem_map.mp hj
    refine howns.outside l hl ?_
    rw [Tree.labels_loop, ← heq]
    exact List.mem_append_left _ hi
  · exact (List.mem_append.mp hl).elim (hlabels l) (hd.nameless l)

/-- Writes a label, if it is among those that jumps need. -/
def putLanding (used : List Ident) : Option Label → Writing Unit
  | some l => if l.id ∈ used then putLabel l else pure ()
  | none => pure ()

theorem putLanding_writes (hd : d.Ready μ vs scope) (desk : Desk) (used : List Ident) {o : Option Label}
    (ho : ∀ l ∈ o.toList, l.name = none) :
    Writes (putLanding used o) desk d [] fun ν ts => SpellsAll ts (landing ν used o) := by
  cases o with
  | none => exact writes_pure () fun ν => .nil
  | some l =>
    unfold putLanding landing
    by_cases hused : l.id ∈ used
    · simp only [if_pos hused]
      exact putLabel_writes hd (ho l List.mem_cons_self)
    · simp only [if_neg hused]
      exact writes_pure () fun ν => .nil

/-- The label for the next round is written where jumps need it. -/
theorem putAgainLabel_eq {x : Bool} {outer : List JumpScope}
    (h : d.flow.scopes = .loop exit again x (again.any (used.contains ·.id)) :: outer) :
    putAgainLabel desk d = putLanding used again desk d := by
  unfold putAgainLabel putLanding
  simp only [bind_apply, get_apply, h]
  cases again with
  | none => rfl
  | some l => by_cases hused : l.id ∈ used <;> simp [hused]

/-- Behind the loop its label is written where jumps need it. -/
theorem leaveLoop_eq {y : Bool} {outer : List JumpScope}
    (h : d.flow.scopes = .loop exit again (exit.any (used.contains ·.id)) y :: outer) :
    leaveLoop desk d = putLanding used exit desk { d with flow := { d.flow with scopes := outer } } := by
  unfold leaveLoop putLanding leaveScope onFlow
  simp only [bind_apply, get_apply, modify_apply, h, List.drop_one, List.tail_cons]
  cases exit with
  | none => rfl
  | some l => by_cases hused : l.id ∈ used <;> simp [hused]

/-- The statements of a round, with the label for the next round behind them. -/
theorem round_writes (hready : (d.inLoop exit again).Ready μ vs scope) (hlabels : ∀ l ∈ again.toList, l.name = none)
    (h : ∀ d : Draft, d.Ready μ vs scope → Lowers (t.piece.body .discard) desk μ t false d) (page : Text.Page)
    (passages : List Passage) :
    Writes (do openBrace; let a ← (do let a ← t.piece.body .discard; putAgainLabel; return a); closeBrace; return a)
      desk { d.inLoop exit again with page, passages } (t.gotos (.ofLoop exit again)) fun ν ts =>
        Spells ts (.block ((t.lowering ν μ).list false (.ofLoop exit again) ++
          landing ν (t.gotos (.ofLoop exit again)) again)) := by
  refine Writes.braced (P := fun ν ts => SpellsAll ts ((t.lowering ν μ).list false (.ofLoop exit again) ++
    landing ν (t.gotos (.ofLoop exit again)) again)) (fun page => ?_) fun ν ts hts => hts.block
  refine Writes.bind_quiet (h _ (hready.onPage page passages))
    (Q := fun ν ts => SpellsAll ts (landing ν (t.gotos (.ofLoop exit again)) again)) (fun a e ts hadds => ?_)
    fun ν ts us hts hus => hts.append hus
  have hscopes : e.flow.scopes =
      .loop exit again (exit.any ((t.gotos (.ofLoop exit again)).contains ·.id))
        (again.any ((t.gotos (.ofLoop exit again)).contains ·.id)) ::
          (d.flow.marked (t.gotos (.ofLoop exit again))).scopes := by
    rw [hadds.flow]
    rfl
  have he : e.Ready μ vs scope := (hready.onPage page passages).adds hadds
  exact ((putLanding_writes he desk _ hlabels).congr (putAgainLabel_eq hscopes)).map fun _ => a

/-- Leaving a loop keeps what was added inside it. -/
theorem Draft.Adds.leaveLoop {e : Draft} {ts : List Token} (h : (d.inLoop exit again).Adds e used ts) :
    d.Adds { e with flow := { e.flow with scopes := (d.flow.marked used).scopes } } used ts where
  tokens := h.tokens
  flow := by
    rw [h.flow]
    rfl
  naming := h.naming
  rest := by
    rw [h.rest]
    rfl

/-- The part of a loop between entering and leaving it. -/
def loopPart (p : Piece) (exit : Option Label) : Writing Tree :=
  match p.tree.node, p.2.branches with
  | .conditional _ _ ifFalse bodyTy, some branches =>
    if ifFalse.leavesLoop exit then whileLoop branches ifFalse bodyTy .void .discard else endlessLoop p
  | _, _ => endlessLoop p

theorem loop_apply (p : Piece) (hexit : ∀ l ∈ exit.toList, l.ty = .void) (tail : Tail) :
    loop p exit again tail desk d =
      (do let t ← loopPart p exit; leaveLoop; return Tree.mk (.loop t exit again)) desk (d.inLoop exit again) := by
  have hty : (exit.map (·.ty)).getD .void = .void := by
    cases exit with
    | none => rfl
    | some l => exact hexit l List.mem_cons_self
  unfold loop loopPart
  rw [hty]
  have hentered (f : Writing Tree) : (match exit with
      | some target => do addTaker target (tail.atType .void); enterScope (.loop exit again false false); f
      | none => do enterScope (.loop exit again false false); f) desk d = f desk (d.inLoop exit again) := by
    cases exit <;> rfl
  refine (hentered _).trans ?_
  generalize p.tree.node = n
  generalize p.2.branches = o
  cases n with
  | conditional c a b ty =>
    cases o with
    | none => rfl
    | some branches =>
      dsimp only
      split <;> rfl
  | _ => rfl

/-- A loop without a test goes on until it is left. -/
theorem endlessLoop_writes (hready : (d.inLoop exit again).Ready μ vs scope)
    (hlabels : ∀ l ∈ again.toList, l.name = none) (hbody : body.Structured vs false scope)
    (ihbody : body.IsWritten desk μ vs false scope) (htest : body.testOf? exit = none) :
    Writes (endlessLoop body.piece) desk (d.inLoop exit again) (body.gotos (.ofLoop exit again)) fun ν ts =>
      Spells ts (body.loopStmt ν μ exit again) := by
  have hendless : endlessLoop body.piece = (do
      putLine "while (true)"
      openBrace; let a ← (do let a ← body.piece.body .discard; putAgainLabel; return a); closeBrace; return a) := by
    unfold endlessLoop
    simp only [bind_assoc, pure_bind]
  have hline := (d.inLoop exit again).adds_page (d.page.tokens_writeLine "while (true)") d.passages
  have hround := round_writes hready hlabels (ihbody.body hbody.labelTarget?) (d.page.writeLine "while (true)")
    d.passages
  have htrue : Reads 0 [keyword "true"] (.truth true) := (Reads.atom (by decide +kernel)).loosen (by decide) (by decide)
  rw [hendless]
  refine Writes.after hline rfl hround fun ν us hus => ?_
  have hspells : Spells (keyword "while" :: .sign ['('] :: ([keyword "true"] ++ .sign [')'] :: us)) _ :=
    .loop htrue hus
  rw [Tree.loopStmt, Tree.round, htest]
  exact hspells

theorem whileLoop_writes {c a b : Tree} {ty : Ty} (hready : (d.inLoop exit again).Ready μ vs scope)
    (hlabels : ∀ l ∈ again.toList, l.name = none) (hc : c.Pure vs) (hb : b.Structured vs false scope)
    (ha : ∀ d : Draft, d.Ready μ vs scope → Lowers (a.piece.body .discard) desk μ a false d)
    (hleaves : b.leavesLoop exit = true) {branches : Branches} (htest : branches.test = c.piece.test)
    (hwhenTrue : branches.whenTrue = a.piece.body) :
    Writes (whileLoop branches b ty .void .discard) desk (d.inLoop exit again)
      ((Tree.mk (.conditional c a b ty)).gotos (.ofLoop exit again)) fun ν ts =>
        Spells ts ((Tree.mk (.conditional c a b ty)).loopStmt ν μ exit again) := by
  have hwhile : whileLoop branches b ty .void .discard = (do
      putLine "while ("; let t ← c.piece.test; put ")"
      let a' ← (do
        openBrace; let a' ← (do let a' ← a.piece.body .discard; putAgainLabel; return a'); closeBrace; return a')
      return Tree.mk (.conditional t a' b ty)) := by
    unfold whileLoop
    simp only [htest, hwhenTrue, Tail.lead?, bind_assoc, pure_bind]
  obtain ⟨t, passages, hline⟩ := test_line hready desk hc "while (" fun t => do
    let a' ← (do
      openBrace; let a' ← (do let a' ← a.piece.body .discard; putAgainLabel; return a'); closeBrace; return a')
    return Tree.mk (.conditional t a' b ty)
  have hadds := (d.inLoop exit again).adds_page
    (d.page.tokens_writeLine ("while (" ++ (c.shown d.naming.ofVariable ++ ")"))) passages
  -- the branch that leaves the loop is not written, and neither is its jump
  have hgotos : (Tree.mk (.conditional c a b ty)).gotos (.ofLoop exit again) = a.gotos (.ofLoop exit again) := by
    obtain ⟨kind, target, tj, l, rfl, hl, hid⟩ := hb.of_leavesLoop hleaves
    have hform : (Frame.ofLoop exit again).form target.id = .exit := if_pos (by rw [hl, ← hid]; rfl)
    rw [Tree.gotos_conditional, (hc.labels_eq _).2, Tree.gotos_jump, hform, if_neg (by decide), List.nil_append,
      List.append_nil]
  have hround := round_writes hready hlabels ha
    (d.page.writeLine ("while (" ++ (c.shown d.naming.ofVariable ++ ")"))) passages
  have hreads := hready.reads_shown hc.plain hc.vars_subset
  rw [hwhile, hgotos]
  refine Writes.after hadds hline (hround.map _) fun ν us hus => ?_
  rw [Tree.loopStmt, Tree.round, show (Tree.mk (.conditional c a b ty)).testOf? exit = some c from if_pos hleaves,
    Tree.whenTrue_conditional, hgotos, tokens_test (w := "while") (by decide) (by decide)]
  simp only [List.cons_append, List.append_assoc, List.nil_append]
  exact .loop hreads hus

theorem loopPart_writes (hready : (d.inLoop exit again).Ready μ vs scope) (hlabels : ∀ l ∈ again.toList, l.name = none)
    (hbody : body.Structured vs false scope) (ihbody : body.IsWritten desk μ vs false scope) :
    Writes (loopPart body.piece exit) desk (d.inLoop exit again) (body.gotos (.ofLoop exit again)) fun ν ts =>
      Spells ts (body.loopStmt ν μ exit again) := by
  have hendless (htest : body.testOf? exit = none) (hpart : loopPart body.piece exit = endlessLoop body.piece) :
      Writes (loopPart body.piece exit) desk (d.inLoop exit again) (body.gotos (.ofLoop exit again)) fun ν ts =>
        Spells ts (body.loopStmt ν μ exit again) := by
    rw [hpart]
    exact endlessLoop_writes hready hlabels hbody ihbody htest
  cases hbody with
  | @conditional _ _ c a b ty _ hc ha hb =>
    by_cases hleaves : b.leavesLoop exit = true
    · have hpart : loopPart (Tree.mk (.conditional c a b ty)).piece exit =
          whileLoop { test := c.piece.test, whenTrue := a.piece.body,
                      elseIf := ifStatement "else if (" c.piece a.piece b.piece ty } b ty .void .discard := by
        rw [Tree.piece_mk]
        exact if_pos hleaves
      rw [hpart]
      exact whileLoop_writes hready hlabels hc hb (ihbody.whenTrue rfl) hleaves rfl rfl
    · refine hendless (if_neg hleaves) ?_
      rw [Tree.piece_mk]
      exact if_neg hleaves
  | _ =>
    refine hendless rfl ?_
    rw [Tree.piece_mk]
    rfl

variable (hlabels : ∀ l ∈ exit.toList ++ again.toList, l.name = none ∧ l.ty = .void)
  (howns : (Tree.mk (.loop body exit again)).Owns ls scope)
  (hbody : body.Structured vs false (exit.toList ++ again.toList ++ scope))
  (ihbody : body.IsWritten desk μ vs false (exit.toList ++ again.toList ++ scope))

include hlabels howns hbody ihbody

/-- A loop is written as its statement, with the label behind it where jumps need it. -/
theorem loop_writes (hd : d.Ready μ vs scope) (tail : Tail) :
    Writes (loop body.piece exit again tail) desk d (body.gotos (.ofLoop exit again)) fun ν ts =>
      SpellsAll ts (body.loopStmt ν μ exit again :: landing ν (body.gotos (.ofLoop exit again)) exit) := by
  have hexit : ∀ l ∈ exit.toList, l.name = none ∧ l.ty = .void := fun l hl => hlabels l (List.mem_append_left _ hl)
  have hagain : ∀ l ∈ again.toList, l.name = none := fun l hl => (hlabels l (List.mem_append_right _ hl)).1
  have hready := hd.inLoop (fun l hl => (hlabels l hl).1) howns
  obtain ⟨t, e, ts, hrun, hadds, hspells⟩ := loopPart_writes hready hagain hbody ihbody
  have hscopes : e.flow.scopes = .loop exit again (exit.any ((body.gotos (.ofLoop exit again)).contains ·.id))
      (again.any ((body.gotos (.ofLoop exit again)).contains ·.id)) ::
        (d.flow.marked (body.gotos (.ofLoop exit again))).scopes := by
    rw [hadds.flow]
    rfl
  -- The label is written where the loop is no longer around.
  have hleft := hadds.leaveLoop
  obtain ⟨u, f, us, hlabel, hadds', hlanding⟩ := putLanding_writes (hd.adds hleft) desk
    (body.gotos (.ofLoop exit again)) fun l hl => (hexit l hl).1
  have hboth := hleft.trans hadds'
  rw [List.append_nil] at hboth
  refine ⟨.mk (.loop t exit again), f, ts ++ us, ?_, hboth, fun ν hν => ?_⟩
  · rw [loop_apply _ fun l hl => (hexit l hl).2, bind_apply, hrun]
    simp only [bind_apply, leaveLoop_eq hscopes, hlabel]
    rfl
  · exact (hspells ν (hadds'.calls hν)).all.append (hlanding ν hν)

theorem isWritten_loop : (Tree.mk (.loop body exit again)).IsWritten desk μ vs false scope := by
  have hexpr : (Tree.mk (.loop body exit again)).isExpression = false := by
    rw [Tree.isExpression, Tree.fold_mk]
    rfl
  have hwrite : (Tree.mk (.loop body exit again)).piece.write = loop body.piece exit again := by
    rw [Tree.piece_mk]
    rfl
  refine isWritten_of_statement rfl rfl (by rw [Tree.piece_mk]; rfl)
    (fun ν frame => by rw [Tree.lowering_loop]; rfl) (by rintro _ _ _ _ ⟨⟩) fun d hd isFirst isLast => ?_
  refine Tree.isCompound.writes rfl hexpr (fun page => ?_) isFirst isLast
  rw [hwrite, Tree.gotos_loop]
  refine (loop_writes hlabels howns hbody ihbody (hd.onPage page d.passages) _).mono fun ν ts hts => ?_
  rw [Tree.lowering_loop]
  exact hts

end Loop

/-! ## Blocks -/

theorem block_apply (ts : List Tree) {ty : Ty} (hty : tail.atType ty = tail)
    (hlabel : (ts.map Tree.piece).getLast?.bind (·.tree.node.labelTarget?) = none) :
    (Tree.mk (.block [] ts ty)).piece.write tail = do
      let us ← statementsFrom tail true (ts.map Tree.piece)
      return Tree.mk (.block [] us ty) := by
  rw [Tree.piece_mk]
  show Writing.block [] (ts.map Tree.piece) ty tail = _
  unfold Writing.block statements
  rw [hty, hlabel]
  rfl

/-- The statements of a list are written one after the other. -/
theorem statementsFrom_writes {ts : List Tree} (hts : ∀ s ∈ ts, s.IsWritten desk μ vs false scope)
    (ht : t.IsWritten desk μ vs returns scope) (hd : d.Ready μ vs scope) (isFirst : Bool) :
    Writes (statementsFrom (tailOf returns) isFirst ((ts ++ [t]).map Tree.piece)) desk d
      ((ts ++ [t]).flatMap (·.gotos d.flow.frame)) fun ν us =>
        SpellsAll us ((ts.flatMap fun s => (s.lowering ν μ).list false d.flow.frame) ++
          (t.lowering ν μ).list returns d.flow.frame) := by
  induction ts generalizing d isFirst with
  | nil =>
    have hlast := (ht.statement d hd isFirst true).map fun here => here ++ []
    simp only [List.nil_append, List.flatMap_cons, List.flatMap_nil, List.append_nil]
    exact hlast
  | cons s ts ih =>
    have hne : ((ts ++ [t]).map Tree.piece).isEmpty = false := by simp
    have hcons : statementsFrom (tailOf returns) isFirst ((s :: ts ++ [t]).map Tree.piece) = do
        let here ← statement s.piece (tailOf false) isFirst false
        let after ← statementsFrom (tailOf returns) false ((ts ++ [t]).map Tree.piece)
        return here ++ after := by
      rw [List.cons_append, List.map_cons, statementsFrom, hne]
      rfl
    rw [hcons, List.cons_append, List.flatMap_cons]
    refine Writes.bind ((hts s List.mem_cons_self).statement d hd isFirst false)
      (Q := fun ν us => SpellsAll us ((ts.flatMap fun s => (s.lowering ν μ).list false d.flow.frame) ++
        (t.lowering ν μ).list returns d.flow.frame)) (fun here e us hadds => ?_) fun ν us ws hus hws => ?_
    · have hrest := ih (fun r hr => hts r (List.mem_cons_of_mem s hr)) (hd.adds hadds) false
      rw [hadds.frame] at hrest
      exact hrest.map fun after => here ++ after
    · rw [List.flatMap_cons, List.append_assoc]
      exact hus.append hws

theorem isWritten_empty {ty : Ty} : (Tree.mk (.block [] [] ty)).IsWritten desk μ vs false scope := by
  have hexpr : (Tree.mk (.block [] [] ty)).isExpression = false := by
    rw [Tree.isExpression, Tree.fold_mk]
    rfl
  refine isWritten_of_statement rfl rfl (by rw [Tree.piece_mk]; rfl)
    (fun ν frame => by rw [Tree.lowering_block]; rfl) (by rintro _ _ _ _ ⟨⟩) fun d hd isFirst isLast => ?_
  refine Tree.isCompound.writes rfl hexpr (fun page => ?_) isFirst isLast
  have htail : (tailOf false).atType ty = tailOf false := tailOf_atType (by simp)
  rw [block_apply [] htail rfl, Tree.gotos_block]
  refine (writes_pure [] fun ν => ?_).map _
  rw [Tree.lowering_block]
  exact SpellsAll.nil

theorem isWritten_block {ts : List Tree} {ty : Ty} (hty : returns = true → ty.isVoid = false)
    (ht : t.Structured vs returns scope) (ihs : ∀ s ∈ ts, s.IsWritten desk μ vs false scope)
    (iht : t.IsWritten desk μ vs returns scope) :
    (Tree.mk (.block [] (ts ++ [t]) ty)).IsWritten desk μ vs returns scope := by
  have hexpr : (Tree.mk (.block [] (ts ++ [t]) ty)).isExpression = false := by
    rw [Tree.isExpression, Tree.fold_mk]
    rfl
  have hlabel : ((ts ++ [t]).map Tree.piece).getLast?.bind (·.tree.node.labelTarget?) = none := by
    rw [List.map_append, List.map_singleton, List.getLast?_append, List.getLast?_singleton, Option.some_or]
    exact ht.labelTarget?
  refine isWritten_of_statement rfl rfl (by rw [Tree.piece_mk]; rfl)
    (fun ν frame => by rw [Tree.lowering_block]; rfl) (by rintro _ _ _ _ ⟨⟩) fun d hd isFirst isLast => ?_
  refine Tree.isCompound.writes rfl hexpr (fun page => ?_) isFirst isLast
  rw [block_apply (ts ++ [t]) (tailOf_atType hty) hlabel, Tree.gotos_block]
  refine ((statementsFrom_writes ihs iht (hd.onPage page d.passages) true).map _).mono fun ν us hus => ?_
  rw [Tree.lowering_block]
  simp only [Lowering.ofList, List.map_append, List.map_cons, List.map_nil, Tree.inRow_append, List.flatMap_map]
  exact hus

/-! ## All structured trees -/

/-- **A structured tree is written as its statements.** -/
theorem Tree.Structured.isWritten (h : t.Structured vs returns scope) {ls : List Ident}
    (howns : t.Owns ls scope) (hvs : ∀ v ∈ vs, v.ty.deref.isVoid = false) : t.IsWritten desk μ vs returns scope := by
  induction h with
  | skip => exact isWritten_skip
  | assign hv he => exact isWritten_assign hv he
  | jump hkind htarget => exact isWritten_jump hkind htarget
  | loop hlabels hbody ih => exact isWritten_loop hlabels howns hbody (ih howns.inLoop)
  | result h => exact isWritten_result h hvs
  | @conditional returns scope c a b ty hty hc ha hb iha ihb =>
    have hlabels := Tree.labels_conditional c a b ty
    refine isWritten_conditional hty hc ha hb (iha (howns.of_sublist ?_)) (ihb (howns.of_sublist ?_))
    · rw [hlabels]
      exact (List.sublist_append_left _ _).trans (List.sublist_append_right _ _)
    · rw [hlabels]
      exact (List.sublist_append_right _ _).trans (List.sublist_append_right _ _)
  | empty => exact isWritten_empty
  | @block returns scope ts t ty hty hts ht ihs iht =>
    have hlabels := Tree.labels_block (ts ++ [t]) ty
    have howned {s : Tree} (hs : s ∈ ts ++ [t]) : s.Owns ls scope := by
      obtain ⟨before, behind, hsplit⟩ := List.append_of_mem hs
      refine howns.of_sublist ?_
      rw [hlabels, hsplit, List.flatMap_append, List.flatMap_cons]
      exact (List.sublist_append_left _ _).trans (List.sublist_append_right _ _)
    refine isWritten_block hty ht (fun s hs => ihs s hs (howned (List.mem_append_left _ hs))) (iht (howned ?_))
    exact List.mem_append_right _ List.mem_cons_self

end Constructs

end Scribe
