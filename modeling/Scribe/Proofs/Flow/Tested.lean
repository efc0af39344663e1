import Mathlib.Logic.Function.Basic
import Scribe.Proofs.Flow.Guards
import Scribe.Proofs.Meaning.Tested
import Scribe.Proofs.Writing.Labels

/-!
# Writing a loop with a test

A loop whose body is a conditional that leaves the loop when its test fails is written as a `while` with that test, and
what it hands on when the test fails is written behind it. `TestedLoop.PartsOf` says what the parts of the text are, and
`loop_written` that the text is made of them.

`Tree.tested_loop_compares` compares this with the plain form, a `while (true)` around an `if` with the jump in its
`else`. The two do the same unless a `break` in the body ends the loop. Behind such a `break` the written loop still
hands on the default value, so that a value that was stored in front of the `break` is lost
(`Tree.stored_value_is_overwritten`).
-/

namespace Scribe

open Writing
open Text (Page)
open Draft (LeadsTo)
open Outline (Sense Do printAll)

/-! ## Pages -/

namespace Text.Page

variable {p : Page} {s : String}

theorem closeBrace_text (hp : p.text ≠ "") :
    p.closeBrace.text = p.text ++ ("\n" ++ (blanks (p.level - 1) ++ "\x7d")) := by
  show (p.dedent.writeLine "\x7d").text = _
  exact writeLine_text_of_ne hp (by decide)

theorem append_ne {t : String} (h : s ≠ "") : s ++ t ≠ "" := by
  simp [h]

/-- A line with a label, when there is one. -/
def labelled (p : Page) : Option String → Page
  | none => p
  | some name => p.writeLine (name ++ ":;")

@[simp] theorem labelled_level (p : Page) (name : Option String) : (p.labelled name).level = p.level := by
  cases name with
  | none => rfl
  | some name => exact p.writeLine_level _

theorem labelled_text (hp : p.text ≠ "") (name : Option String) :
    (p.labelled name).text = p.text ++ printAll p.level (name.toList.map .label) := by
  cases name with
  | none => exact String.append_empty.symm
  | some name =>
    rw [labelled, writeLine_text_of_ne hp (by simp)]
    simp [printAll, Outline.print, margin]

end Text.Page

/-! ## The steps of a loop -/

/-- The draft inside a loop that hands on its value by `tail`. -/
def Draft.insideLoop (d : Draft) (exit : Label) (again : Option Label) (tail : Tail) : Draft :=
  { d with
    flow := { d.flow with
      takers := if tail = .discard then d.flow.takers else (exit.id, tail) :: d.flow.takers
      scopes := .loop (some exit) again false false :: d.flow.scopes } }

/-- The text of the default value of a type. -/
def Draft.defaultText (d : Draft) (ty : Ty) : String := "default(" ++ ((Lexicon.spell ty).run d.lexicon).1 ++ ")"

namespace Writing

variable {α : Type} {desk : Desk} {d : Draft}

theorem putDefault_bind (ty : Ty) (f : Unit → Writing α) :
    (putDefault ty >>= f) desk d = f () desk { d with
      page := d.page.write (d.defaultText ty)
      lexicon := ((Lexicon.spell ty).run d.lexicon).2 } := by
  rfl

theorem enter_bind (exit : Label) (again : Option Label) (tail : Tail) (f : Unit → Writing α) :
    (do addTaker exit tail; enterScope (.loop (some exit) again false false) >>= f) desk d =
      f () desk (d.insideLoop exit again tail) := by
  by_cases htail : tail = .discard
  · subst htail
    rfl
  · unfold addTaker Draft.insideLoop
    rw [if_pos htail, if_neg htail]
    rfl

theorem putLabel_apply (target : Label) : putLabel target desk d = .ok ((), { d with
    naming := (d.naming.nameLabel target).2
    page := d.page.labelled (some (d.naming.nameLabel target).1) }) := by
  rfl

/-- The label behind the body is that of the loop, and keeps its name. -/
theorem putAgainLabel_apply (desk : Desk) {exit again : Option Label} {x y : Bool} {outer : List JumpScope}
    (hscopes : d.flow.scopes = .loop exit again x y :: outer) :
    ∃ name naming, putAgainLabel desk d = .ok ((), { d with naming, page := d.page.labelled name }) ∧
      ∀ s ∈ name, ∃ target ∈ again, naming.label? target.id = some s := by
  unfold putAgainLabel
  rw [bind_apply, get_apply]
  simp only [hscopes]
  cases again with
  | none => exact ⟨none, d.naming, rfl, nofun⟩
  | some target =>
    cases y with
    | false => exact ⟨none, d.naming, rfl, nofun⟩
    | true =>
      refine ⟨some _, _, putLabel_apply target, ?_⟩
      rintro s ⟨⟩
      exact ⟨target, rfl, d.naming.label?_self target⟩

/-- The label behind the loop is that of the loop. -/
theorem leaveLoop_apply (desk : Desk) {exit again : Option Label} {x y : Bool} {outer : List JumpScope}
    (hscopes : d.flow.scopes = .loop exit again x y :: outer) :
    ∃ name naming flow, leaveLoop desk d = .ok ((), { d with naming, flow, page := d.page.labelled name }) ∧
      (∀ s ∈ name, ∃ target ∈ exit, naming.label? target.id = some s) ∧
      ∀ i s, d.naming.label? i = some s → naming.label? i = some s := by
  unfold leaveLoop
  rw [bind_apply, get_apply]
  simp only [hscopes]
  cases exit with
  | none => exact ⟨none, d.naming, _, rfl, nofun, fun _ _ => id⟩
  | some target =>
    cases x with
    | false => exact ⟨none, d.naming, _, rfl, nofun, fun _ _ => id⟩
    | true =>
      refine ⟨some _, _, _, rfl, ?_, fun i s h => Naming.label?_nameLabel h target⟩
      rintro s ⟨⟩
      exact ⟨target, rfl, d.naming.label?_self target⟩

/-- Hands on the default value of a type behind a loop. -/
def putHandsOn (tail : Tail) (ty : Ty) : Writing Unit :=
  match tail.lead? with
  | some lead => do
    putLine lead
    putDefault ty
    put ";"
  | none => pure ()

theorem whileLoop_eq (branches : Branches) (ifFalse : Tree) (ty loopTy : Ty) (tail : Tail) :
    whileLoop branches ifFalse ty loopTy tail = (do
      putLine "while ("
      let t ← branches.test
      put ")"
      openBrace
      let a ← branches.whenTrue .discard
      putAgainLabel
      closeBrace
      putHandsOn tail loopTy
      return .mk (.conditional t a ifFalse ty)) := by
  unfold whileLoop putHandsOn
  cases tail.lead? <;> simp

end Writing

/-- The page behind what hands on a value. -/
def Text.Page.handedOn (p : Page) (l : TestedLoop) : Page :=
  match l.tail.lead? with
  | some lead => p.writeLine (lead ++ (l.fallback ++ ";"))
  | none => p

theorem Text.Page.handedOn_text {p : Page} (hp : p.text ≠ "") (l : TestedLoop) :
    (p.handedOn l).text = p.text ++ printAll p.level l.handsOn := by
  unfold handedOn TestedLoop.handsOn
  cases l.tail with
  | discard => exact String.append_empty.symm
  | result | assign name =>
    simp only [Tail.lead?]
    rw [writeLine_text_of_ne hp (by simp)]
    simp [printAll, Outline.print, margin, String.append_assoc]

theorem Text.Page.handedOn_level (p : Page) (l : TestedLoop) : (p.handedOn l).level = p.level := by
  unfold handedOn
  cases l.tail.lead? with
  | none => rfl
  | some lead => exact p.writeLine_level _

theorem Writing.putHandsOn_apply {desk : Desk} {d : Draft} {ty : Ty} {l : TestedLoop}
    (hfallback : l.fallback = d.defaultText ty) :
    ∃ lexicon, putHandsOn l.tail ty desk d = .ok ((), { d with lexicon, page := d.page.handedOn l }) := by
  unfold putHandsOn Text.Page.handedOn
  cases l.tail.lead? with
  | none => exact ⟨d.lexicon, rfl⟩
  | some lead =>
    refine ⟨((Lexicon.spell ty).run d.lexicon).2, ?_⟩
    have hline : (((d.page.writeLine lead).write (d.defaultText ty)).write ";") =
        d.page.writeLine (lead ++ (l.fallback ++ ";")) := by
      unfold Page.writeLine
      rw [Page.write_write, Page.write_write, hfallback]
    simp only [putLine_bind, putDefault_bind]
    rw [← hline]
    rfl

/-! ## The loop -/

/-- The parts of a loop are what is written for them: the test behind the `while`, up to the draft `m`, and the body in
its braces, up to `m'`. -/
structure TestedLoop.PartsOf (l : TestedLoop) (desk : Desk) (c a : Tree) (exit : Label) (again : Option Label)
    (d m m' e : Draft) : Prop where
  test : ∃ u, c.piece.test desk { d.insideLoop exit again l.tail with page := d.page.writeLine "while (" } = .ok (u, m)
  testText : m.page.settle.text = (d.page.writeLine "while (").text ++ l.test
  body : ∃ u, a.piece.body .discard desk { m with page := (m.page.write ")").openBrace false } = .ok (u, m')
  bodyText : m'.page.text = ((m.page.write ")").openBrace false).text ++ l.body
  fallback : l.fallback = m'.defaultText exit.ty
  againNamed : ∀ name ∈ l.again, ∃ target ∈ again, e.naming.label? target.id = some name
  exitNamed : ∀ name ∈ l.exit, e.naming.label? exit.id = some name

/-- From `d` to `e`, the statements are written on lines of their own. -/
def Draft.PrintsAll (d : Draft) (os : List Outline) (e : Draft) : Prop :=
  ∃ text, printAll d.page.level os = "\n" ++ text ∧ e.page.text = d.page.newline.text ++ text

theorem Outline.printAll_append (level : Nat) (os os' : List Outline) :
    printAll level (os ++ os') = printAll level os ++ printAll level os' := by
  induction os with
  | nil => exact String.empty_append.symm
  | cons o os ih => rw [List.cons_append, printAll, printAll, ih, String.append_assoc]

/-- The page behind the loop, when `q` is the page behind its test and `p'` the page behind its body. -/
theorem TestedLoop.written_text (l : TestedLoop) {p q p' : Page}
    (hq : q.settle.text = (p.writeLine "while (").text ++ l.test) (hqlevel : q.level = p.level)
    (hp' : p'.text = ((q.write ")").openBrace false).text ++ l.body) (hplevel : p'.level = p.level + 1) :
    ∃ text, printAll p.level l.written = "\n" ++ text ∧
      (((p'.labelled l.again).closeBrace.handedOn l).labelled l.exit).text = p.newline.text ++ text := by
  have htest : (q.write ")").text = p.newline.text ++ (p.margin ++ ("while (" ++ l.test ++ ")")) := by
    rw [Page.write_text (by decide), hq, Page.writeLine_text (by decide)]
    simp only [String.append_assoc]
  have hbody : p'.text = (q.write ")").text ++ ("\n" ++ (p.margin ++ "\x7b") ++ l.body) := by
    have hmargin : (q.write ")").margin = p.margin := Page.margin_congr ((q.write_level _).trans hqlevel)
    rw [hp', Page.openBrace_text (Page.write_text_ne (by decide) q), hmargin]
    simp only [String.append_assoc]
  have hne : p'.text ≠ "" := by
    rw [hbody]
    exact Page.append_ne (Page.write_text_ne (by decide) q)
  have hagain := Page.labelled_text hne l.again
  have hclosed : (p'.labelled l.again).closeBrace.text =
      (p'.labelled l.again).text ++ ("\n" ++ (p.margin ++ "\x7d")) := by
    rw [Page.closeBrace_text (hagain ▸ Page.append_ne hne), Page.labelled_level, hplevel]
    rfl
  have hlevel : (p'.labelled l.again).closeBrace.level = p.level := by
    show ((p'.labelled l.again).dedent.writeLine "\x7d").level = _
    rw [Page.writeLine_level, Page.dedent, Page.labelled_level, hplevel]
    rfl
  have hclosedNe : (p'.labelled l.again).closeBrace.text ≠ "" := Page.write_text_ne (by decide) _
  have hhanded := Page.handedOn_text hclosedNe l
  have hexit := Page.labelled_text (hhanded ▸ Page.append_ne hclosedNe) l.exit
  refine ⟨p.margin ++ ("while (" ++ l.test ++ ")") ++ ("\n" ++ (p.margin ++ "\x7b") ++
    (l.body ++ printAll (p.level + 1) (l.again.toList.map .label)) ++ ("\n" ++ (p.margin ++ "\x7d"))) ++
    (printAll p.level l.handsOn ++ printAll p.level (l.exit.toList.map .label)), ?_, ?_⟩
  · rw [written, printAll, Outline.printAll_append, tested, Outline.print, inside, printAll, Outline.print]
    simp only [String.append_assoc]
    rfl
  · rw [hexit, Page.handedOn_level, hhanded, hlevel, hclosed, hagain, hplevel, hbody, htest]
    simp only [String.append_assoc]

theorem Flow.LearnTo.loop {exit again : Option Label} {x y : Bool} {outer scopes : List JumpScope}
    (h : Flow.LearnTo (.loop exit again x y :: outer) scopes) :
    ∃ x y outer, scopes = .loop exit again x y :: outer := by
  cases h with
  | cons hhead _ =>
    cases hhead
    exact ⟨_, _, _, rfl⟩

section Loop

variable {desk : Desk} {c a u : Tree} {kind : JumpKind} {exit : Label} {again : Option Label} {ty bodyTy : Ty}
  {tail : Tail} {d e : Draft}

theorem loop_of_leaving : Writing.loop (Tree.mk (.conditional c a (.mk (.jump kind exit none ty)) bodyTy)).piece
    (some exit) again tail = (do
      addTaker exit (tail.atType exit.ty)
      enterScope (.loop (some exit) again false false)
      let t ← whileLoop ⟨c.piece.test, a.piece.body, ifStatement "else if (" c.piece a.piece
        (Tree.mk (.jump kind exit none ty)).piece bodyTy⟩ (.mk (.jump kind exit none ty)) bodyTy exit.ty
        (tail.atType exit.ty)
      leaveLoop
      return .mk (.loop t (some exit) again)) := by
  have hleaves : (Tree.mk (.jump kind exit none ty)).leavesLoop (some exit) = true := by
    simp [Tree.leavesLoop, Tree.node]
  rw [loop_forms, Tree.piece_mk]
  simp only [tested?, Node.map, Node.rendition, conditional, Tree.node, hleaves, if_true, enterLoop, bind_assoc]
  rfl

/-- A loop that its body leaves when a test fails is written as the loop with that test. -/
theorem loop_written (h : Writing.loop (Tree.mk (.conditional c a (.mk (.jump kind exit none ty)) bodyTy)).piece
      (some exit) again tail desk d = .ok (u, e)) :
    ∃ (l : TestedLoop) (m m' : Draft), l.tail = tail.atType exit.ty ∧ l.PartsOf desk c a exit again d m m' e ∧
      d.PrintsAll l.written e := by
  let start : Draft := { d.insideLoop exit again (tail.atType exit.ty) with page := d.page.writeLine "while (" }
  rw [loop_of_leaving, enter_bind] at h
  obtain ⟨t, x, hwhile, hleave⟩ := bind_eq_ok.mp h
  rw [whileLoop_eq, putLine_bind] at hwhile
  -- the test
  obtain ⟨test, m, htest, hwhile⟩ := bind_eq_ok.mp hwhile
  have hstart : start.page.owesIndent = false := Page.write_owesIndent (by decide) _
  have hm : LeadsTo desk start m := Piece.test_takes c.steps (Draft.stable_leadsTo desk start) start test m
    ⟨.refl start, hstart⟩ htest
  rw [put_bind] at hwhile
  obtain ⟨_, _, hopen, hwhile⟩ := bind_eq_ok.mp hwhile
  cases hopen
  -- the body
  obtain ⟨body, m', hbody, hwhile⟩ := bind_eq_ok.mp hwhile
  have hm' : LeadsTo desk _ m' := Piece.body_stepwise a.steps .discard _ body m' hbody
  obtain ⟨x, y, outer, hscopes⟩ : ∃ x y outer, m'.flow.scopes = .loop (some exit) again x y :: outer := by
    have hlearn : Flow.LearnTo (.loop (some exit) again false false :: d.flow.scopes) m'.flow.scopes :=
      hm.scopes.trans hm'.scopes
    exact hlearn.loop
  obtain ⟨again', naming, hagain, hagainNamed⟩ := putAgainLabel_apply desk hscopes
  rw [bind_apply, hagain] at hwhile
  obtain ⟨_, _, hclose, hwhile⟩ := bind_eq_ok.mp hwhile
  cases hclose
  obtain ⟨testText, htestText⟩ : ∃ s, m.page.settle.text = (d.page.writeLine "while (").text ++ s := by
    obtain ⟨s, hs⟩ := hm.text
    rw [Page.settle_text, hs, String.append_assoc]
    exact ⟨_, rfl⟩
  obtain ⟨bodyText, hbodyText⟩ := hm'.text
  -- what hands on the value, and the end of the loop
  let l : TestedLoop := ⟨testText, bodyText, again', none, tail.atType exit.ty, m'.defaultText exit.ty⟩
  let closed : Draft := { m' with naming, page := (m'.page.labelled again').closeBrace }
  obtain ⟨lexicon, hhands⟩ : ∃ lexicon, putHandsOn (tail.atType exit.ty) exit.ty desk closed =
      .ok ((), { closed with lexicon, page := closed.page.handedOn l }) :=
    putHandsOn_apply (d := closed) (l := l) rfl
  rw [bind_apply, hhands] at hwhile
  cases hwhile
  let handed : Draft := { closed with lexicon, page := closed.page.handedOn l }
  obtain ⟨exit', naming', flow, hend, hexitNamed, hkeeps⟩ := leaveLoop_apply desk (d := handed) hscopes
  rw [bind_apply, hend] at hleave
  cases hleave
  have hlevel : m.page.level = d.page.level := hm.level.trans (d.page.writeLine_level _)
  have hlevel' : m'.page.level = d.page.level + 1 := by
    rw [hm'.level, ← hlevel]
    show ((m.page.write ")").writeLine "\x7b").level + 1 = _
    rw [Page.writeLine_level, Page.write_level]
  refine ⟨{ l with exit := exit' }, m, m', rfl, ⟨⟨test, htest⟩, htestText, ⟨body, hbody⟩, hbodyText, rfl, ?_, ?_⟩, ?_⟩
  · intro name hname
    obtain ⟨target, htarget, hlabel⟩ := hagainNamed name hname
    exact ⟨target, htarget, hkeeps _ _ hlabel⟩
  · intro name hname
    obtain ⟨target, ⟨⟩, hlabel⟩ := hexitNamed name hname
    exact hlabel
  · exact TestedLoop.written_text { l with exit := exit' } htestText hlevel hbodyText hlevel'

end Loop

/-! ## The jump out of the loop -/

/-- In this draft, a jump to the label without a value leaves the innermost loop, and hands on a default value by
`tail`. -/
def Draft.Leaves (x : Draft) (kind : JumpKind) (exit : Label) : Tail → Prop
  | .discard => x.flow.takers.lookup exit.id = none ∧ kind ≠ .returnTo ∧ x.flow.flagsLeft (some exit.id) = [] ∧
      x.flow.formOf exit = .exit
  | .result => x.flow.takers.lookup exit.id = some .result ∧ x.flow.flagsLeft none = []
  | .assign name => x.flow.takers.lookup exit.id = some (.assign name) ∧ x.flow.flagsLeft (some exit.id) = [] ∧
      x.flow.formOf exit = .exit

namespace Writing

variable {α : Type} {desk : Desk} {x : Draft} {kind : JumpKind} {exit : Label} {l : TestedLoop}

theorem valueOrDefault_none_bind (ty : Ty) (f : Tree → Writing α) :
    (valueOrDefault none ty >>= f) desk x = f (.defaultOf ty) desk { x with
      page := x.page.write (x.defaultText ty)
      lexicon := ((Lexicon.spell ty).run x.lexicon).2 } := by
  rfl

theorem depart_exit (desk : Desk) (hflags : x.flow.flagsLeft (some exit.id) = []) (hform : x.flow.formOf exit = .exit)
    (u : Tree) :
    ∃ naming flow, depart exit u desk x = .ok (u, { x with page := x.page.write "break", naming, flow }) := by
  obtain ⟨naming, flow, hjump⟩ := putJump_apply exit desk x
  refine ⟨naming, flow, ?_⟩
  rw [hform] at hjump
  rw [depart, clearFaults_bind, Option.map_some, hflags, Page.cleared, bind_apply, hjump]
  rfl

/-- A jump whose value nobody takes over. -/
theorem jump_breaks (desk : Desk) (hlookup : x.flow.takers.lookup exit.id = none) (hkind : kind ≠ .returnTo)
    (hflags : x.flow.flagsLeft (some exit.id) = []) (hform : x.flow.formOf exit = .exit) :
    ∃ u f, jump kind exit none desk x = .ok (u, f) ∧ f.page.text = x.page.settle.text ++ "break" := by
  obtain ⟨naming, flow, hdepart⟩ := depart_exit desk hflags hform (.jump kind exit none)
  have hresult : x.flow.takers.lookup exit.id ≠ some .result := by simp [hlookup]
  have hassign : ∀ name, x.flow.takers.lookup exit.id ≠ some (.assign name) := by simp [hlookup]
  exact ⟨_, _, (jump_of_untaken hresult hassign hkind).trans hdepart, Page.write_text (by decide) _⟩

/-- A jump whose value is the result. -/
theorem jump_returns_default (desk : Desk) (hlookup : x.flow.takers.lookup exit.id = some .result)
    (hflags : x.flow.flagsLeft none = []) :
    ∃ u f, jump kind exit none desk x = .ok (u, f) ∧
      f.page.text = x.page.settle.text ++ ("return " ++ x.defaultText exit.ty) := by
  have hrun : jump kind exit none desk x = _ := jump_of_result hlookup
  rw [clearFaults_bind, Option.map_none, hflags, put_bind, valueOrDefault_none_bind] at hrun
  refine ⟨_, _, hrun, ?_⟩
  show (((x.page.cleared []).write "return ").write (x.defaultText exit.ty)).text = _
  rw [Page.cleared, Page.write_write, Page.write_text (by simp)]

/-- A jump whose value is assigned. -/
theorem jump_assigns_default (desk : Desk) {name : String}
    (hlookup : x.flow.takers.lookup exit.id = some (.assign name)) (hflags : x.flow.flagsLeft (some exit.id) = [])
    (hform : x.flow.formOf exit = .exit) :
    ∃ u f, jump kind exit none desk x = .ok (u, f) ∧
      f.page.text = x.page.settle.text ++ (name ++ " = " ++ x.defaultText exit.ty ++ x.page.lineEnd ++ "break") := by
  let y : Draft := { x with
    page := (((x.page.write (name ++ " = ")).write (x.defaultText exit.ty)).write ";").newline
    lexicon := ((Lexicon.spell exit.ty).run x.lexicon).2 }
  obtain ⟨naming, flow, hdepart⟩ := depart_exit (x := y) desk hflags hform (.jump kind exit (some (.defaultOf exit.ty)))
  have hrun : jump kind exit none desk x = _ := jump_of_assign hlookup
  rw [put_bind, valueOrDefault_none_bind, put_bind] at hrun
  refine ⟨_, _, hrun.trans hdepart, ?_⟩
  show ((((x.page.write (name ++ " = ")).write (x.defaultText exit.ty)).write ";").newline.write "break").text = _
  have hmargin : ((x.page.write (name ++ " = ")).write (x.defaultText exit.ty)).margin = x.page.margin :=
    Page.margin_congr ((Page.write_level _ _).trans (Page.write_level _ _))
  rw [Page.write_text (by decide), Page.settle_endLine_text (by decide), Page.settle_write_text, Page.settle_write_text,
    hmargin, Page.lineEnd]
  simp only [String.append_assoc]
  rfl

/-- The jump is written as the statements that leave the loop, without the last semicolon. -/
theorem jump_leaves (desk : Desk) (hleaves : x.Leaves kind exit l.tail)
    (hfallback : l.fallback = x.defaultText exit.ty) :
    ∃ u f j, jump kind exit none desk x = .ok (u, f) ∧ f.page.text = x.page.settle.text ++ j ∧
      printAll x.page.level l.leaving = "\n" ++ (x.page.margin ++ (j ++ ";")) := by
  unfold TestedLoop.leaving
  cases htail : l.tail with
  | discard =>
    rw [htail] at hleaves
    obtain ⟨hlookup, hkind, hflags, hform⟩ := hleaves
    obtain ⟨u, f, hrun, htext⟩ := jump_breaks desk hlookup hkind hflags hform
    refine ⟨u, f, _, hrun, htext, ?_⟩
    simp [printAll, Outline.print, Page.margin]
  | result =>
    rw [htail] at hleaves
    obtain ⟨hlookup, hflags⟩ := hleaves
    obtain ⟨u, f, hrun, htext⟩ := jump_returns_default desk hlookup hflags
    refine ⟨u, f, _, hrun, htext, ?_⟩
    simp [printAll, Outline.print, Page.margin, hfallback, String.append_assoc]
  | assign name =>
    rw [htail] at hleaves
    obtain ⟨hlookup, hflags, hform⟩ := hleaves
    obtain ⟨u, f, hrun, htext⟩ := jump_assigns_default desk hlookup hflags hform
    refine ⟨u, f, _, hrun, htext, ?_⟩
    have hend : x.page.lineEnd = ";" ++ ("\n" ++ Page.blanks x.page.level) := by
      rw [← String.append_assoc]
      rfl
    simp [printAll, Outline.print, Page.margin, hend, hfallback, String.append_assoc]

end Writing

/-! ## Loops in a tree -/

section Site

variable {s : Site} {d m : Draft} {body : Tree} {kind : JumpKind} {exit : Label} {again : Option Label} {tail : Tail}

/-- A loop leaves none of the bodies around it by its own label. -/
theorem Site.Around.flagsLeft_exit (h : s.Around (.mk (.loop body (some exit) again))) : s.flagsLeft exit.id = [] := by
  unfold Site.flagsLeft
  rw [List.filter_eq_nil_iff.mpr, List.map_nil]
  intro g hg hleft
  have hloop : exit.id ∈ (Node.loop body (some exit) again).defines := by simp [Node.defines]
  exact of_decide_eq_true hleft _ (h.mem_subtrees g hg) hloop

/-- Inside the loop, a jump to its label without a value leaves it. -/
theorem Site.Known.leaves (h : s.Known d) (haround : s.Around (.mk (.loop body (some exit) again)))
    (htail : s.Admits tail) (hdiscard : tail = .discard → d.flow.takers.lookup exit.id = none ∧ kind ≠ .returnTo) :
    Draft.Leaves { m with flow := (d.insideLoop exit again tail).flow } kind exit tail := by
  have hflags : d.flow.flagsLeft (some exit.id) = [] := (h.flagsLeft_some haround _).trans haround.flagsLeft_exit
  have hform : (d.insideLoop exit again tail).flow.formOf exit = .exit := by
    simp [Flow.formOf, Draft.insideLoop, Flow.resolve]
  cases tail with
  | discard =>
    obtain ⟨hlookup, hkind⟩ := hdiscard rfl
    exact ⟨hlookup, hkind, hflags, hform⟩
  | result =>
    have hguards : s.flags = [] := by rw [Site.flags, htail rfl, List.map_nil]
    exact ⟨List.lookup_cons_self, h.flagsLeft_none.trans hguards⟩
  | assign name => exact ⟨List.lookup_cons_self, hflags, hform⟩

end Site

/-- What is checked of a loop whose body is a conditional that leaves the loop when its test fails.

It is written as the loop with that test, and the `else` of its plain form is what is written for the jump; only a
return whose value nobody takes over would be written otherwise. Where the value of the loop is the result, jumps to its
label are returns and no `break`. Whatever the parts of the loop mean, what it does compares with its plain form. -/
def comparesTested (desk : Desk) : Check := fun _ n tail d e =>
  ∀ c a kind exit again ty bodyTy,
    n = .loop (.mk (.conditional c a (.mk (.jump kind exit none ty)) bodyTy)) (some exit) again →
    ∃ (l : TestedLoop) (m m' : Draft),
      l.tail = tail.atType exit.ty ∧ l.PartsOf desk c a exit again d m m' e ∧ d.PrintsAll l.written e ∧
      ((l.tail = .discard → d.flow.takers.lookup exit.id = none ∧ kind ≠ .returnTo) →
        ∃ u f j, (Tree.mk (.jump kind exit none ty)).piece.write .discard desk
            { m' with flow := (d.insideLoop exit again l.tail).flow } = .ok (u, f) ∧
          f.page.text = m'.page.settle.text ++ j ∧
          printAll m'.page.level l.leaving = "\n" ++ (m'.page.margin ++ (j ++ ";"))) ∧
      (l.tail = .result → ∀ kind, (d.insideLoop exit again l.tail).flow.Returns kind exit) ∧
      ∀ {σ V X : Type} (I : Sense σ V X), l.Compares I

/-- **A loop that is written with its test does what its plain form does, unless a `break` in its body ends it.** -/
theorem Tree.tested_loop_compares (t : Tree) (desk : Desk) : t.Upholds desk (comparesTested desk) := by
  refine t.upholds (Site.Known.invariant desk) ?_ (.start _)
  rintro s n tail d u e haround htail h hrun c a kind exit again ty bodyTy rfl
  rw [Tree.piece_mk] at hrun
  obtain ⟨l, m, m', hltail, hparts, hprints⟩ := loop_written hrun
  refine ⟨l, m, m', hltail, hparts, hprints, fun hdiscard => ?_, fun hresult kind => .inl ?_, fun I => l.compares I⟩
  · have hadmits : s.Admits l.tail := hltail ▸ Tail.atType_mem (Site.admits_discard s) htail exit.ty
    have hleaves := Site.Known.leaves (m := m') h haround hadmits hdiscard
    rw [Tree.piece_mk]
    exact jump_leaves desk hleaves hparts.fallback
  · rw [hresult]
    exact List.lookup_cons_self

/-- A loop whose body stores a value and leaves the loop: `result1 = default(int);` is written behind the loop. In the
plain form the value is still in the variable in the end, and here it never is. -/
theorem Tree.stored_value_is_overwritten :
    let x : Variable := { id := .given "x", ty := .bool, name := "x" }
    let label : Label := { id := .given "l", ty := .int }
    let stores : Tree := .jump .breakTo label (some (.mk (.constant (.int 5) .int)))
    let leaves : Tree := .jump .breakTo label none
    let t : Tree := .mk (.loop (.mk (.conditional (.mk (.var x)) stores leaves .void)) (some label) none)
    let l : TestedLoop :=
      { test := "x", body := "\n    result1 = 5;\n    break;", again := none, exit := none
        tail := .assign "result1", fallback := "default(int)" }
    let I : Sense (String → Int) Int Empty :=
      { test := fun _ a r b => r = .ok true ∧ b = a
        value := fun _ a r b => r = .ok 0 ∧ b = a
        other := fun _ a s b => s = .exit ∧ b = Function.update a "result1" 5
        store := fun name v a => Function.update a name v }
    (t.piece.write (.assign "result1") ⟨{}, {}⟩ { page := {} }).toOption.map (·.2.page.text) =
        some (printAll 0 l.written) ∧
      (∃ b, Do I l.plain (fun _ => 1) .normal b ∧ b "result1" = 5) ∧
      ∀ s b, Do I l.written (fun _ => 1) s b → b "result1" = 0 := by
  intro x label stores leaves t l I
  refine ⟨by decide +kernel, ?_, ?_⟩
  · have hbreaks : l.Breaks I (fun _ => 1) (Function.update (fun _ => 1) "result1" 5) :=
      ⟨_, _, .refl, ⟨rfl, rfl⟩, rfl, rfl⟩
    exact ⟨_, ((l.compares I).broken _ _ hbreaks).1, Function.update_self ..⟩
  · intro s b hwritten
    obtain hends | ⟨c, -, hhands⟩ := TestedLoop.written_iff.mp hwritten
    · obtain ⟨-, ⟨htest, -⟩, -⟩ | ⟨-, ⟨htest, -⟩⟩ | ⟨-, -, ⟨hexit, -⟩, -, hother⟩ := hends
      · cases htest
      · cases htest
      · exact absurd hexit hother
    · obtain ⟨v, m, ⟨hv, -⟩, -, rfl⟩ | ⟨x, ⟨hx, -⟩, -⟩ := TestedLoop.do_assign.mp hhands
      · cases hv
        show Function.update m "result1" 0 "result1" = 0
        exact Function.update_self ..
      · cases hx

end Scribe
