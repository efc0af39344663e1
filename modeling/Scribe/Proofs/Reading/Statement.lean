import Scribe.Proofs.Reading.Reader

/-!
# Statements

The grammar of statements in the language of scripts, as far as it has no declarations: assignments, blocks,
`if`, `while`, jumps, labels and `return`. A label is read as an item of its own, in front of the statement
that it labels.

`Spells ts s` says that the tokens `ts` are the statement `s`. The body of an `if` is a block, so that an
`else` belongs to one `if` only. `statement` is a reader for this grammar, which looks one or two tokens
ahead; `Spells.read` says that it finds what is spelled.
-/

namespace Scribe.Reading

variable {es : List Token} {e : Expr} {s : Stmt}

/-- A statement as it is read. An `if` without `else` has an empty statement there. -/
inductive Stmt where
  | empty
  | assign (target : String) (e : Expr)
  | block (body : List Stmt)
  | branch (test : Expr) (ifTrue ifFalse : Stmt)
  | loop (test : Expr) (body : Stmt)
  | exit
  | again
  | goto (target : String)
  | label (name : String)
  | result (e : Option Expr)

/-- A keyword as a token. -/
def keyword (s : String) : Token := .word s.toList

/-- The name that a word is. -/
def identifier? (w : List Char) : Option String :=
  match atom? w with
  | some (.name s) => some s
  | _ => none

/-! ## The grammar -/

/-- The tokens are the statement. -/
inductive Spells : List Token → Stmt → Prop where
  | empty : Spells [.sign [';']] .empty
  | assign {w : List Char} {x : String} {es : List Token} {e : Expr} :
      identifier? w = some x → Reads 0 es e →
      Spells (.word w :: .sign ['='] :: (es ++ [.sign [';']])) (.assign x e)
  | block {parts : List (List Token × Stmt)} :
      (∀ p ∈ parts, Spells p.1 p.2) →
      Spells (.sign ['\x7b'] :: (parts.flatMap (·.1) ++ [.sign ['\x7d']])) (.block (parts.map (·.2)))
  | branch {es us : List Token} {e : Expr} {body : List Stmt} :
      Reads 0 es e → Spells us (.block body) →
      Spells (keyword "if" :: .sign ['('] :: (es ++ .sign [')'] :: us)) (.branch e (.block body) .empty)
  | branchElse {es us vs : List Token} {e : Expr} {body : List Stmt} {s : Stmt} :
      Reads 0 es e → Spells us (.block body) → Spells vs s →
      Spells (keyword "if" :: .sign ['('] :: (es ++ .sign [')'] :: (us ++ keyword "else" :: vs)))
        (.branch e (.block body) s)
  | loop {es us : List Token} {e : Expr} {s : Stmt} :
      Reads 0 es e → Spells us s →
      Spells (keyword "while" :: .sign ['('] :: (es ++ .sign [')'] :: us)) (.loop e s)
  | exit : Spells [keyword "break", .sign [';']] .exit
  | again : Spells [keyword "continue", .sign [';']] .again
  | goto {w : List Char} {x : String} :
      identifier? w = some x → Spells [keyword "goto", .word w, .sign [';']] (.goto x)
  | label {w : List Char} {x : String} :
      identifier? w = some x → Spells [.word w, .sign [':']] (.label x)
  | result {es : List Token} {e : Expr} :
      Reads 0 es e → Spells (keyword "return" :: (es ++ [.sign [';']])) (.result (some e))
  | leave : Spells [keyword "return", .sign [';']] (.result none)

/-- The tokens are the statements, one after the other. -/
def SpellsAll (ts : List Token) (ss : List Stmt) : Prop :=
  ∃ parts : List (List Token × Stmt), (∀ p ∈ parts, Spells p.1 p.2) ∧
    ts = parts.flatMap (·.1) ∧ ss = parts.map (·.2)

/-! ## The reader -/

/-- Takes a token off the front. -/
def expect (t : Token) : List Token → Option (List Token)
  | [] => none
  | u :: us => if u = t then some us else none

/-- Reads an expression from the start of the tokens. -/
def expression (ts : List Token) : Option (Expr × List Token) := parse (13 * ts.length + 13) 0 ts

/-- Reads an expression in parentheses. -/
def condition (ts : List Token) : Option (Expr × List Token) :=
  (expect (.sign ['(']) ts).bind fun us =>
    (expression us).bind fun (e, vs) => (expect (.sign [')']) vs).map (e, ·)

mutual

/-- Reads a statement from the start of the tokens, and gives the tokens behind it. -/
def statement : Nat → List Token → Option (Stmt × List Token)
  | 0, _ => none
  | _ + 1, [] => none
  | n + 1, .sign s :: us =>
    if s = [';'] then some (.empty, us)
    else if s = ['\x7b'] then
      (statements n us).bind fun (ss, vs) => (expect (.sign ['\x7d']) vs).map (.block ss, ·)
    else none
  | n + 1, .word w :: us =>
    if w = "if".toList then
      (condition us).bind fun (e, vs) =>
        (statement n vs).bind fun (a, rest) =>
          match expect (keyword "else") rest with
          | some ws => (statement n ws).map fun (b, rest) => (.branch e a b, rest)
          | none => some (.branch e a .empty, rest)
    else if w = "while".toList then
      (condition us).bind fun (e, vs) => (statement n vs).map fun (s, rest) => (.loop e s, rest)
    else if w = "break".toList then (expect (.sign [';']) us).map (.exit, ·)
    else if w = "continue".toList then (expect (.sign [';']) us).map (.again, ·)
    else if w = "goto".toList then
      match us with
      | .word v :: vs => (identifier? v).bind fun x => (expect (.sign [';']) vs).map (.goto x, ·)
      | _ => none
    else if w = "return".toList then
      match expect (.sign [';']) us with
      | some rest => some (.result none, rest)
      | none => (expression us).bind fun (e, vs) => (expect (.sign [';']) vs).map (.result (some e), ·)
    else
      (identifier? w).bind fun x =>
        match us with
        | .sign [':'] :: rest => some (.label x, rest)
        | .sign ['='] :: vs =>
          (expression vs).bind fun (e, ws) => (expect (.sign [';']) ws).map (.assign x e, ·)
        | _ => none

/-- Reads statements up to a closing brace or the end. -/
def statements : Nat → List Token → Option (List Stmt × List Token)
  | 0, _ => none
  | n + 1, ts =>
    if ts.head?.all (· = .sign ['\x7d']) then some ([], ts)
    else
      (statement n ts).bind fun (s, us) => (statements n us).map fun (ss, rest) => (s :: ss, rest)

end

/-! ## One step of the reader -/

section Steps

variable (n : Nat) (us : List Token)

theorem statement_if :
    statement (n + 1) (keyword "if" :: us) = (condition us).bind fun (e, vs) =>
      (statement n vs).bind fun (a, rest) =>
        match expect (keyword "else") rest with
        | some ws => (statement n ws).map fun (b, rest) => (.branch e a b, rest)
        | none => some (.branch e a .empty, rest) := by
  rw [keyword, statement.eq_def]
  rfl

theorem statement_while :
    statement (n + 1) (keyword "while" :: us) = (condition us).bind fun (e, vs) =>
      (statement n vs).map fun (s, rest) => (.loop e s, rest) := by
  rw [keyword, statement.eq_def]
  rfl

theorem statement_return :
    statement (n + 1) (keyword "return" :: us) =
      match expect (.sign [';']) us with
      | some rest => some (.result none, rest)
      | none => (expression us).bind fun (e, vs) =>
          (expect (.sign [';']) vs).map (.result (some e), ·) := by
  rw [keyword, statement.eq_def]
  rfl

theorem statement_goto (w : List Char) :
    statement (n + 1) (keyword "goto" :: .word w :: us) = (identifier? w).bind fun x =>
      (expect (.sign [';']) us).map (.goto x, ·) := by
  rw [keyword, statement.eq_def]
  rfl

theorem statement_block :
    statement (n + 1) (.sign ['\x7b'] :: us) = (statements n us).bind fun (ss, vs) =>
      (expect (.sign ['\x7d']) vs).map (.block ss, ·) := by
  rw [statement.eq_def]
  rfl

/-- No keyword of a statement is a name. -/
theorem identifier?_keyword :
    ∀ s ∈ ["if", "else", "while", "break", "continue", "goto", "return"], identifier? s.toList = none := by
  decide +kernel

theorem ne_keyword {w : List Char} {x s : String} (h : identifier? w = some x)
    (hs : s ∈ ["if", "else", "while", "break", "continue", "goto", "return"]) : w ≠ s.toList := by
  rintro rfl
  rw [identifier?_keyword s hs] at h
  cases h

theorem statement_name {w : List Char} {x : String} (h : identifier? w = some x) :
    statement (n + 1) (.word w :: us) =
      match us with
      | .sign [':'] :: rest => some (.label x, rest)
      | .sign ['='] :: vs =>
        (expression vs).bind fun (e, ws) => (expect (.sign [';']) ws).map (.assign x e, ·)
      | _ => none := by
  rw [statement.eq_def]
  simp only [if_neg (ne_keyword h (s := "if") (by decide)), if_neg (ne_keyword h (s := "while") (by decide)),
    if_neg (ne_keyword h (s := "break") (by decide)), if_neg (ne_keyword h (s := "continue") (by decide)),
    if_neg (ne_keyword h (s := "goto") (by decide)), if_neg (ne_keyword h (s := "return") (by decide)), h]
  rfl

end Steps

/-! ## What is spelled is read -/

theorem expect_cons (t : Token) (us : List Token) : expect t (t :: us) = some us := if_pos rfl

theorem follow_delimiter {c : Char} (hc : c ∈ delimiters) (us : List Token) : Follow 0 (.sign [c] :: us) := by
  have hsigns : (delimiters.all fun d => InfixOp.ofSign? [d] == none && d != '?') = true := by decide
  intro s vs heq
  cases heq
  obtain ⟨hnone, hne⟩ := (Bool.and_eq_true _ _).mp (List.all_eq_true.mp hsigns c hc)
  refine ⟨fun op hop => ?_, fun _ heq => bne_iff_ne.mp hne (List.singleton_inj.mp heq)⟩
  rw [beq_iff_eq.mp hnone] at hop
  cases hop

/-- An expression in front of a delimiter is read. -/
theorem expression_append (h : Reads 0 es e) {c : Char} (hc : c ∈ delimiters)
    (us : List Token) : expression (es ++ .sign [c] :: us) = some (e, .sign [c] :: us) :=
  h.found.parses (by decide) (follow_delimiter hc us) _ (by omega)

/-- An expression does not start with a semicolon. -/
theorem Reads.expect_semicolon {k : Nat} (h : Reads k es e) : ∀ us, expect (.sign [';']) (es ++ us) = none := by
  induction h with
  | atom _ | grouped _ _ =>
    intro us
    simp [expect]
  | prefixed op _ _ =>
    intro us
    cases op <;> simp [expect, PrefixOp.sign]
  | infixed op _ _ ihl _ =>
    intro us
    rw [List.append_assoc]
    exact ihl _
  | choice _ _ _ ihc _ _ =>
    intro us
    rw [List.append_assoc]
    exact ihc _
  | tighter _ _ ih => exact ih

theorem condition_append (h : Reads 0 es e) (us : List Token) :
    condition (.sign ['('] :: (es ++ .sign [')'] :: us)) = some (e, us) := by
  unfold condition
  rw [expect_cons, Option.bind_some, expression_append h (by decide), Option.bind_some]
  show (expect (.sign [')']) (.sign [')'] :: us)).map (e, ·) = _
  rw [expect_cons]
  rfl

/-- The first token of a statement: neither a closing brace nor an `else`. -/
theorem Spells.head {us : List Token} (h : Spells us s) :
    ∃ t vs, us = t :: vs ∧ t ≠ .sign ['\x7d'] ∧ t ≠ keyword "else" := by
  cases h with
  | assign hw _ | label hw =>
    refine ⟨_, _, rfl, by simp, fun heq => ne_keyword hw (s := "else") (by decide) ?_⟩
    exact Token.word.inj heq
  | _ => exact ⟨_, _, rfl, by decide, by decide⟩

theorem Spells.length_pos {us : List Token} (h : Spells us s) : 0 < us.length := by
  obtain ⟨t, vs, rfl, -⟩ := h.head
  simp

/-- The tokens do not go on with an `else`. -/
def NoElse (rest : List Token) : Prop := rest.head? ≠ some (keyword "else")

theorem NoElse.expect {rest : List Token} (h : NoElse rest) : expect (keyword "else") rest = none := by
  cases rest with
  | nil => rfl
  | cons t us =>
    refine if_neg fun heq => h ?_
    rw [heq]
    rfl

/-- Whether the statement is a block, which ends with its brace. -/
def Stmt.isBlock : Stmt → Bool
  | .block _ => true
  | _ => false

/-- The reader finds the statement at the start of the tokens. -/
def IsRead (us : List Token) (s : Stmt) : Prop :=
  ∀ rest n, (s.isBlock = false → NoElse rest) → 2 * us.length ≤ n → statement n (us ++ rest) = some (s, rest)

/-- A statement has tokens, so that there is fuel. -/
theorem IsRead.of_fuel {us : List Token} (hus : us ≠ []) (h : ∀ rest m, (s.isBlock = false → NoElse rest) →
    2 * us.length ≤ m + 1 → statement (m + 1) (us ++ rest) = some (s, rest)) : IsRead us s := by
  intro rest n hrest hn
  obtain _ | m := n
  · have hpos := List.length_pos_iff.mpr hus
    omega
  · exact h rest m hrest hn

/-- Behind the last statement of a list there is a closing brace or nothing. -/
def Closed (rest : List Token) : Prop := rest.head?.all (· = .sign ['\x7d']) = true

theorem Closed.noElse {rest : List Token} (h : Closed rest) : NoElse rest := by
  unfold Closed at h
  intro heq
  rw [heq] at h
  exact absurd h (by decide)

/-- Statements that are read one by one are read in a row. -/
theorem statements_read {parts : List (List Token × Stmt)} (hspells : ∀ p ∈ parts, Spells p.1 p.2)
    (hread : ∀ p ∈ parts, IsRead p.1 p.2) (rest : List Token) (hrest : Closed rest) :
    ∀ n, 2 * (parts.flatMap (·.1)).length + 1 ≤ n →
      statements n (parts.flatMap (·.1) ++ rest) = some (parts.map (·.2), rest) := by
  induction parts with
  | nil =>
    intro n hn
    obtain _ | m := n
    · omega
    rw [statements.eq_def]
    exact if_pos hrest
  | cons p parts ih =>
    intro n hn
    obtain _ | m := n
    · omega
    have hp := hspells p List.mem_cons_self
    have hparts : ∀ q ∈ parts, Spells q.1 q.2 := fun q hq => hspells q (List.mem_cons_of_mem p hq)
    have hpos := hp.length_pos
    rw [List.flatMap_cons, List.length_append] at hn
    -- The next part, or what follows the list, does not go on with an `else`.
    have hnext : NoElse (parts.flatMap (·.1) ++ rest) := by
      cases parts with
      | nil => exact hrest.noElse
      | cons q parts =>
        obtain ⟨t, vs, hq, -, hne⟩ := (hparts q List.mem_cons_self).head
        rw [List.flatMap_cons, hq]
        simpa [NoElse] using hne
    have hopen : ((p :: parts).flatMap (·.1) ++ rest).head?.all (· = .sign ['\x7d']) = false := by
      obtain ⟨t, vs, hq, hne, -⟩ := hp.head
      rw [List.flatMap_cons, hq]
      simpa using hne
    have hrec := ih hparts (fun q hq => hread q (List.mem_cons_of_mem p hq)) m (by omega)
    have hfirst := hread p List.mem_cons_self (parts.flatMap (·.1) ++ rest) m (fun _ => hnext) (by omega)
    rw [statements.eq_def]
    simp only [hopen]
    rw [List.flatMap_cons, List.append_assoc, hfirst]
    simp only [Bool.false_eq_true, if_false, Option.bind_some, hrec]
    rfl

/-- **What is spelled is read.** -/
theorem Spells.read {us : List Token} (h : Spells us s) : IsRead us s := by
  -- each case takes one unit of fuel, and what is spelled inside is shorter
  induction h with
  | empty =>
    refine .of_fuel (by simp) fun rest m _ _ => ?_
    rw [statement.eq_def]
    rfl
  | @assign w x es e hw he =>
    refine .of_fuel (by simp) fun rest m _ _ => ?_
    simp only [List.cons_append, List.append_assoc, List.nil_append]
    rw [statement_name _ _ hw]
    show ((expression (es ++ .sign [';'] :: rest)).bind fun (e, ws) => _) = _
    rw [expression_append he (by decide), Option.bind_some]
    show (expect (.sign [';']) (.sign [';'] :: rest)).map (Stmt.assign x e, ·) = _
    rw [expect_cons]
    rfl
  | @block parts hparts ih =>
    refine .of_fuel (by simp) fun rest m _ hn => ?_
    simp only [List.length_cons, List.length_append, List.length_nil] at hn
    have hbody := statements_read hparts ih (.sign ['\x7d'] :: rest) rfl m (by omega)
    simp only [List.cons_append, List.append_assoc, List.nil_append]
    rw [statement_block, hbody, Option.bind_some]
    show (expect (.sign ['\x7d']) (.sign ['\x7d'] :: rest)).map (Stmt.block (parts.map (·.2)), ·) = _
    rw [expect_cons]
    rfl
  | @branch es us e body he _ ih =>
    refine .of_fuel (by simp) fun rest m hrest hn => ?_
    simp only [List.length_cons, List.length_append] at hn
    simp only [List.cons_append, List.append_assoc]
    rw [statement_if, condition_append he, Option.bind_some]
    have hnone := (hrest rfl).expect
    simp only [ih rest m (fun _ => hrest rfl) (by omega), Option.bind_some, hnone]
  | @branchElse es us vs e body s he _ _ iha ihb =>
    refine .of_fuel (by simp) fun rest m hrest hn => ?_
    simp only [List.length_cons, List.length_append] at hn
    simp only [List.cons_append, List.append_assoc]
    rw [statement_if, condition_append he, Option.bind_some]
    -- the body in front of the `else` is a block, so that nothing is asked of what follows it
    have hbody := iha (keyword "else" :: (vs ++ rest)) m (fun hblock => by cases hblock) (by omega)
    simp only [hbody, Option.bind_some, expect_cons]
    rw [ihb rest m (fun _ => hrest rfl) (by omega)]
    rfl
  | @loop es us e s he _ ih =>
    refine .of_fuel (by simp) fun rest m hrest hn => ?_
    simp only [List.length_cons, List.length_append] at hn
    simp only [List.cons_append, List.append_assoc]
    rw [statement_while, condition_append he, Option.bind_some]
    simp only [ih rest m (fun _ => hrest rfl) (by omega)]
    rfl
  | @goto w x hw =>
    refine .of_fuel (by simp) fun rest m _ _ => ?_
    simp only [List.cons_append, List.nil_append]
    rw [statement_goto, hw, Option.bind_some, expect_cons]
    rfl
  | @label w x hw =>
    refine .of_fuel (by simp) fun rest m _ _ => ?_
    simp only [List.cons_append, List.nil_append]
    rw [statement_name _ _ hw]
    rfl
  | @result es e he =>
    refine .of_fuel (by simp) fun rest m _ _ => ?_
    simp only [List.cons_append, List.append_assoc, List.nil_append]
    have hnone : expect (.sign [';']) (es ++ .sign [';'] :: rest) = none := he.expect_semicolon _
    rw [statement_return, hnone]
    show ((expression (es ++ .sign [';'] :: rest)).bind fun (e, vs) => _) = _
    rw [expression_append he (by decide), Option.bind_some]
    show (expect (.sign [';']) (.sign [';'] :: rest)).map (Stmt.result (some e), ·) = _
    rw [expect_cons]
    rfl
  | _ =>
    refine .of_fuel (by simp) fun rest m _ _ => ?_
    rw [keyword, statement.eq_def]
    rfl

/-! ## Lists of statements -/

theorem SpellsAll.nil : SpellsAll [] [] := ⟨[], by simp, rfl, rfl⟩

theorem Spells.all {us : List Token} (h : Spells us s) : SpellsAll us [s] :=
  ⟨[(us, s)], by simpa using h, by simp, rfl⟩

theorem SpellsAll.append {us vs : List Token} {ss rs : List Stmt} (h : SpellsAll us ss)
    (h' : SpellsAll vs rs) : SpellsAll (us ++ vs) (ss ++ rs) := by
  obtain ⟨ps, hps, rfl, rfl⟩ := h
  obtain ⟨qs, hqs, rfl, rfl⟩ := h'
  refine ⟨ps ++ qs, fun p hp => ?_, by rw [List.flatMap_append], by rw [List.map_append]⟩
  rcases List.mem_append.mp hp with hp | hp
  · exact hps p hp
  · exact hqs p hp

theorem SpellsAll.block {us : List Token} {ss : List Stmt} (h : SpellsAll us ss) :
    Spells (.sign ['\x7b'] :: (us ++ [.sign ['\x7d']])) (.block ss) := by
  obtain ⟨parts, hparts, rfl, rfl⟩ := h
  exact .block hparts

end Scribe.Reading
