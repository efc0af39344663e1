import Scribe.Proofs.Flow.Added
import Scribe.Proofs.Operator.Elementary

/-!
# Statements on one line

What is put on the line for pure trees, assignments, labels and jumps, and how such lines are read.
-/

namespace Scribe

open Reading Writing

variable {w : String} {t : Tree}

/-! ## Lines -/

namespace Reading

theorem tokens_terminated (s : String) : tokens (s ++ ";") = tokens s ++ [.sign [';']] := by
  unfold tokens
  rw [String.toList_append]
  exact lex_delimiter (by decide) _ []

theorem tokens_of_isWord (h : isWord w.toList = true) : tokens w = [.word w.toList] :=
  lex_of_isWord h

theorem tokens_word (h : isWord w.toList = true) (s : String) :
    tokens (w ++ (" " ++ s)) = .word w.toList :: tokens s := by
  unfold tokens
  rw [String.toList_append, String.toList_append]
  show lex (w.toList ++ ' ' :: s.toList) = _
  rw [lex_blank rfl, lex_of_isWord h]
  rfl

theorem tokens_lead (lead : String) (hlead : lead = w ++ " ") (h : isWord w.toList = true) (s : String) :
    tokens (lead ++ s) = keyword w :: tokens s := by
  rw [hlead, String.append_assoc, tokens_word h]
  rfl

theorem tokens_test {lead : String} (hlead : lead = w ++ (" " ++ "(")) (h : isWord w.toList = true) (s : String) :
    tokens (lead ++ (s ++ ")")) = .word w.toList :: .sign ['('] :: (tokens s ++ [.sign [')']]) := by
  rw [hlead, String.append_assoc, String.append_assoc, tokens_word h, tokens_grouped]

theorem tokens_label (h : isWord w.toList = true) :
    tokens (w ++ ":;") = [.word w.toList, .sign [':'], .sign [';']] := by
  have happart : Apart (pending w.toList) [':', ';'] := by
    intro c hc
    cases hc
    rw [pending_of_isWord h]
    exact Or.inr rfl
  have hcut : tokens (w ++ ":;") = tokens w ++ tokens ":;" := tokens_append happart
  have hend : tokens ":;" = [.sign [':'], .sign [';']] := by decide
  rw [hcut, hend, tokens_of_isWord h]
  rfl

end Reading

section Lines

variable {desk : Desk} {d : Draft}

theorem mark_apply (form : Passage.Form) (start : Text.Page) (desk : Desk) (d : Draft) :
    ∃ o passages, mark form start desk d = .ok (o, { d with passages }) := by
  unfold mark
  simp only [bind_apply, read_apply]
  cases desk.wrapper.document with
  | none => exact ⟨none, d.passages, rfl⟩
  | some name => exact ⟨_, _, rfl⟩

/-- An expression that is written as `s` becomes a line. -/
theorem lineOf_apply {p : Piece} {tail : Tail} {a : Tree} {s : String} {naming : Naming} {flow : Flow}
    (h : p.inline desk { d with page := d.page.writeLine (leadOf p.tree tail) } =
      .ok (a, { d with page := (d.page.writeLine (leadOf p.tree tail)).write s, naming, flow })) :
    ∃ ts passages, lineOf p tail desk d =
      .ok (ts, { d with page := d.page.writeLine (leadOf p.tree tail ++ (s ++ ";")), naming, flow, passages }) := by
  have hwrite : ((d.page.writeLine (leadOf p.tree tail)).write s).write ";" =
      d.page.writeLine (leadOf p.tree tail ++ (s ++ ";")) := by
    unfold Text.Page.writeLine
    rw [Text.Page.write_write, Text.Page.write_write]
  obtain ⟨o, passages, hmark⟩ := mark_apply (.statement (leadOf p.tree tail)) d.page.newline desk
    { d with page := d.page.writeLine (leadOf p.tree tail ++ (s ++ ";")), naming, flow }
  refine ⟨o.toList ++ [a], passages, ?_⟩
  unfold lineOf newline put onPage
  simp only [bind_apply, modify_apply, page_apply]
  have hinline : p.inline desk { d with page := d.page.newline.write (leadOf p.tree tail) } = _ := h
  rw [hinline]
  simp only [hwrite, hmark, pure_apply]

end Lines

/-! ## Expressions -/

section Expressions

variable {desk : Desk} {d : Draft} {μ : Ident → String} {vs : List Variable} {scope : List Label}

/-- A plain tree is put on the line as it is shown, when its variables have names. -/
theorem Draft.Ready.inline (hd : d.Ready μ vs scope) (desk : Desk) (h : t.Plain) (hvars : ∀ v ∈ t.vars, v ∈ vs) :
    ∃ a, t.piece.inline desk d = .ok (a, { d with page := d.page.write (t.shown d.naming.ofVariable) }) := by
  have hknown : d.naming.nameAll t.vars = d.naming :=
    Naming.nameAll_of_knows fun v hv => hd.knows v (hvars v hv)
  have hput : Puts t.piece.inline desk d (t.shown (d.naming.nameAll t.vars).ofVariable) (d.naming.nameAll t.vars) :=
    h.isPut d hd.undeclared
  rw [hknown] at hput
  exact hput

/-- The text of a plain tree is read as the tree. -/
theorem Draft.Ready.reads_shown (hd : d.Ready μ vs scope) (h : t.Plain) (hvars : ∀ v ∈ t.vars, v ∈ vs) :
    Reads 0 (tokens (t.shown d.naming.ofVariable)) (t.reading μ) :=
  (h.reads fun v hv => hd.reads v (hvars v hv)).loosen (Nat.zero_le _) (Tree.levelOf_le _)

theorem Tree.Pure.inline (h : t.Pure vs) (hd : d.Ready μ vs scope) (desk : Desk) :
    ∃ a, t.piece.inline desk d = .ok (a, { d with page := d.page.write (t.shown d.naming.ofVariable) }) :=
  hd.inline desk h.plain h.vars_subset

/-- Nothing that is assigned is put in parentheses. -/
theorem Kind.groups_assign {p : Nat} (h : 2 ≤ p) (isRight : Bool) : (Kind.binary .assign).groups p isRight = false := by
  have hassign : (Kind.binary .assign).precedence = 1 := rfl
  unfold Kind.groups
  rw [hassign, if_neg (by omega)]
  simpa using by omega

theorem inline_assign (hd : d.Ready μ vs scope) (desk : Desk) {v : Variable} (hv : v ∈ vs) {e : Tree}
    (he : Tree.Pure vs e) (ty : Ty) :
    ∃ a, (Tree.mk (.binary .assign (.mk (.var v)) e ty)).piece.inline desk d =
      .ok (a, { d with
        page := d.page.write (d.naming.ofVariable v.id ++ (" = " ++ e.shown d.naming.ofVariable)) }) := by
  have hplain := he.plain
  have hput : Puts (Tree.mk (.binary .assign (.mk (.var v)) e ty)).piece.inline desk d
      (d.naming.ofVariable v.id ++ (" = " ++ e.shown d.naming.ofVariable)) d.naming := by
    have hinline : (Tree.mk (.binary .assign (.mk (.var v)) e ty)).piece.inline = do
        let sides ← (do
          let a ← (Tree.mk (.var v)).piece.operand (.binary .assign)
          put " = "
          let b ← e.piece.operand (.binary .assign) true
          return (a, b))
        return .mk (.binary .assign sides.1 sides.2 ty) := by
      rw [Tree.piece_mk]
      rfl
    have hknown : d.naming.nameAll e.vars = d.naming :=
      Naming.nameAll_of_knows fun w hw => hd.knows w (he.vars_subset w hw)
    have hname : d.naming.nameAll [v] = d.naming :=
      Naming.nameAll_of_knows fun w hw => hd.knows w (List.mem_singleton.mp hw ▸ hv)
    have hputVar : (Tree.mk (.var v)).IsPut desk := (Tree.Plain.var v).isPut
    have hputValue : e.IsPut desk := hplain.isPut
    have hleft := hputVar.operand (Tree.Plain.var v).shows hd.undeclared (.binary .assign) false fun _ _ => rfl
    have hright := hputValue.operand (d := { d with page := (d.page.write (d.naming.ofVariable v.id)).write " = " })
      hplain.shows hd.undeclared (.binary .assign) true fun _ _ => rfl
    rw [Tree.vars_var, hname, Tree.shown_var, Tree.shownUnder,
      Kind.groups_assign (Tree.Plain.var v).two_le_precedence, if_neg Bool.false_ne_true] at hleft
    rw [Tree.shownUnder, Kind.groups_assign hplain.two_le_precedence, if_neg Bool.false_ne_true] at hright
    simp only [hknown] at hright
    rw [hinline]
    refine Puts.map ?_ _
    exact hleft.bind fun a => (puts_put " = ").bind fun _ => hright.map _
  exact hput

end Expressions

/-! ## Labels and jumps -/

section Jumps

variable {desk : Desk} {d : Draft} {μ : Ident → String} {vs : List Variable} {scope : List Label} {l : Label}

theorem Draft.Ready.label_read (hd : d.Ready μ vs scope) (hl : l.name = none) :
    isWord (d.naming.nameLabel l).1.toList = true ∧
      identifier? (d.naming.nameLabel l).1.toList = some (d.naming.nameLabel l).1 := by
  have hnumbered := hd.numbered.nameLabel hl
  obtain ⟨k, -, hk⟩ := hnumbered.numbered l.id _ (d.naming.label?_self l)
  obtain ⟨hplain, hfree⟩ := isPlainName_numbered (s := "label") (by decide) k
  rw [hk]
  refine ⟨(isPlainName_iff.mp hplain).1, ?_⟩
  rw [identifier?, (atom?_of_plain hplain hfree).2]

/-- The label of a loop is followed by an empty statement. -/
theorem putLabel_writes (hd : d.Ready μ vs scope) (hl : l.name = none) :
    Writes (putLabel l) desk d [] fun ν ts => SpellsAll ts [.label (ν l.id), .empty] := by
  obtain ⟨hword, hread⟩ := hd.label_read hl
  have hnameless : ∀ m ∈ [l], m.name = none := fun m hm => List.mem_singleton.mp hm ▸ hl
  have hadds := d.adds_line ((d.naming.nameLabel l).1 ++ ":;") hnameless [] d.passages
  refine ⟨(), _, _, ?_, hadds, fun ν hν => ?_⟩
  · rw [Flow.marked_nil]
    rfl
  · have hname : ν l.id = (d.naming.nameLabel l).1 := hν l.id _ (d.naming.label?_self l)
    show SpellsAll _ [.label (ν l.id), .empty]
    rw [tokens_label hword, hname]
    exact (Spells.label hread).all.append Spells.empty.all

/-- What a jump puts on the line is the jump, as the innermost loop says. -/
theorem jump_apply (hd : d.Ready μ vs scope) (desk : Desk) (hl : l ∈ scope) {kind : JumpKind}
    (hkind : kind ≠ .returnTo) :
    ∃ a s ls, jump kind l none desk d =
        .ok (a, { d with
          page := d.page.write s
          naming := d.naming.nameLabels ls
          flow := d.flow.marked (if d.flow.frame.form l.id = .goto then [l.id] else []) }) ∧
      (∀ m ∈ ls, m.name = none) ∧
      ∀ ν, (d.naming.nameLabels ls).Calls ν →
        Spells (tokens (s ++ ";")) ((d.flow.frame.form l.id).stmt (ν l.id)) := by
  have hjump : jump kind l none desk d = (do putJump l; return Tree.jump kind l none) desk d := by
    unfold jump
    simp only [bind_apply, get_apply, hd.takers, List.lookup_nil]
    cases kind with
    | returnTo => exact absurd rfl hkind
    | _ =>
      simp only [effectOf, clearFaults, Flow.flagsLeft, bind_apply, pure_apply, get_apply, hd.faults]
      rfl
  have hresolve := hd.within.resolve l.id
  rw [hjump]
  unfold putJump
  simp only [bind_apply, get_apply, hresolve]
  -- the innermost loop says how the jump is written
  cases hform : d.flow.frame.form l.id with
  | exit =>
    refine ⟨.jump kind l none, "break", [], ?_, nofun, fun ν _ => ?_⟩
    · simp only [reduceCtorEq, if_false, Flow.marked_nil]
      rfl
    · have htokens : tokens ("break" ++ ";") = [keyword "break", .sign [';']] := by decide +kernel
      rw [htokens]
      exact .exit
  | again =>
    refine ⟨.jump kind l none, "continue", [], ?_, nofun, fun ν _ => ?_⟩
    · simp only [reduceCtorEq, if_false, Flow.marked_nil]
      rfl
    · have htokens : tokens ("continue" ++ ";") = [keyword "continue", .sign [';']] := by decide +kernel
      rw [htokens]
      exact .again
  | goto =>
    obtain ⟨hword, hread⟩ := hd.label_read (hd.nameless l hl)
    refine ⟨.jump kind l none, "goto " ++ (d.naming.nameLabel l).1, [l], ?_,
      fun m hm => hd.nameless m (List.mem_singleton.mp hm ▸ hl), fun ν hν => ?_⟩
    · simp only [if_true]
      rfl
    · have hname : ν l.id = (d.naming.nameLabel l).1 := hν l.id _ (d.naming.label?_self l)
      have htokens : tokens ("goto " ++ (d.naming.nameLabel l).1) =
          [keyword "goto", .word (d.naming.nameLabel l).1.toList] := by
        rw [tokens_lead "goto " (w := "goto") rfl (by decide), tokens_of_isWord hword]
      rw [tokens_terminated, htokens, hname]
      exact .goto hread

end Jumps

end Scribe
