import Scribe.Proofs.Writing.Parallel.Expression
import Scribe.Writing.Jump
import Scribe.Writing.Switch
import Scribe.Writing.Try

/-!
# Statements, side by side

Marks are where positions leave the page: they go into the passages and, as sequence points, into the
tree. Everything else about statements is the same in both runs. Statements that write nothing are dropped, and the
values of labels and jumps are copied where nothing takes them over.
-/

namespace Scribe

open Writing Pairing
open Text (Page)

variable {w : Pairing} {slot : Slot} {p : Piece × Piece} {ps : List (Piece × Piece)}

namespace Pairing

/-! ## Marks -/

/-- When one mark more is trusted, so were the others, and its own range is as it should be. -/
theorem Trusts.of_append {d₁ d₂ : Draft} {g₁ g₂ : Passage} (hlength : d₁.passages.length = d₂.passages.length)
    (h : w.Trusts { d₁ with passages := d₁.passages ++ [g₁] } { d₂ with passages := d₂.passages ++ [g₂] }) :
    w.Trusts d₁ d₂ ∧ w.pt g₁.marker.span g₂.marker.span := by
  have hzip : (d₁.passages ++ [g₁]).zip (d₂.passages ++ [g₂])
      = d₁.passages.zip d₂.passages ++ [(g₁, g₂)] := List.zip_append hlength
  have hall := h.passages
  rw [show ({ d₁ with passages := d₁.passages ++ [g₁] } : Draft).passages.zip
    ({ d₂ with passages := d₂.passages ++ [g₂] } : Draft).passages = _ from hzip,
    List.forall_mem_append] at hall
  exact ⟨⟨h.early, h.document, hall.1⟩, hall.2 _ (List.mem_singleton_self _)⟩

/-- Marks do not make drafts less alike. -/
theorem alike_passages {d₁ d₂ : Draft} {gs₁ gs₂ : List Passage} (hd : Draft.Alike w d₁ d₂)
    (hlength : w.left.wrapper.document = w.right.wrapper.document → gs₁.length = gs₂.length)
    (hranges : w.left = w.right → gs₂ = gs₁)
    (hback : w.Trusts { d₁ with passages := gs₁ } { d₂ with passages := gs₂ } → w.Trusts d₁ d₂) :
    Draft.Alike w { d₁ with passages := gs₁ } { d₂ with passages := gs₂ } where
  page := hd.page
  lexicon := hd.lexicon
  rest := congrArg (fun d : Draft => { d with passages := gs₂ }) hd.rest
  passages := hlength
  ranges := hranges
  moved := hd.moved
  movedTo ht := hd.movedTo (hback ht)
  becomes ht := hd.becomes (hback ht)

/-- Sequence points in the same places. -/
structure MatchPoint (w : Pairing) (r r' : Option Tree) : Prop where
  respanned : Option.Rel w.Respanned r r'
  isPoint : ∀ q ∈ r, q.IsPoint

theorem mark_twin (form : Passage.Form) {start₁ start₂ : Page} (hstart : w.AlikePages start₁ start₂) :
    w.Twin w.MatchPoint (mark form start₁) (mark form start₂) := by
  refine .read_bind fun d₁ d₂ hd => Or.inr ?_
  have hdesk : w.left = w.right → w.left.wrapper.document = w.right.wrapper.document :=
    fun h => congrArg (·.wrapper.document) h
  -- the four cases differ in which of the runs has a document
  cases h₁ : w.left.wrapper.document with
  | none =>
    cases h₂ : w.right.wrapper.document with
    | none => exact ⟨none, d₁, none, d₂, rfl, rfl, trivial, hd, fun ht => ⟨ht, .none, nofun⟩⟩
    | some name₂ =>
      have hne : w.left.wrapper.document ≠ w.right.wrapper.document := by rw [h₁, h₂]; nofun
      exact ⟨none, d₁, _, _, rfl, rfl, trivial,
        alike_passages hd (fun h => absurd h hne) (fun h => absurd (hdesk h) hne)
          (fun ht => absurd ht.document hne),
        fun ht => absurd ht.document hne⟩
  | some name₁ =>
    cases h₂ : w.right.wrapper.document with
    | none =>
      have hne : w.left.wrapper.document ≠ w.right.wrapper.document := by rw [h₁, h₂]; nofun
      exact ⟨_, _, none, d₂, rfl, rfl, trivial,
        alike_passages hd (fun h => absurd h hne) (fun h => absurd (hdesk h) hne)
          (fun ht => absurd ht.document hne),
        fun ht => absurd ht.document hne⟩
    | some name₂ =>
      have hback := fun ht : w.Trusts
          { d₁ with passages := d₁.passages ++ [⟨form, start₁, d₁.page⟩] }
          { d₂ with passages := d₂.passages ++ [⟨form, start₂, d₂.page⟩] } =>
        ht.of_append (hd.passages ht.document)
      refine ⟨_, _, _, _, rfl, rfl, trivial, alike_passages hd ?_ ?_ fun ht => (hback ht).1,
        fun ht => ⟨(hback ht).1, .some ?_, ?_⟩⟩
      · intro hdoc
        rw [List.length_append, List.length_append, hd.passages hdoc]
        rfl
      · intro hsame
        rw [hd.ranges hsame, hstart.same hsame, hd.page.same hsame]
      · have hname : name₁ = name₂ := by
          have hdoc := ht.document
          rw [h₁, h₂] at hdoc
          exact Option.some.inj hdoc
        subst hname
        exact .point h₁ (hback ht).2
      · rintro _ ⟨⟩
        exact ⟨_, _, rfl⟩

/-! ## Lists of statements -/

/-- What stands for one statement corresponds. -/
structure MatchLine (w : Pairing) (s : Tree) (ts us : List Tree) : Prop where
  respanned : List.Forall₂ w.Respanned ts us
  becomes : ∀ whole ∈ w.whole, IsLine whole s ts

/-- What stands for a list of statements corresponds. -/
structure MatchLines (w : Pairing) (ss ts us : List Tree) : Prop where
  respanned : List.Forall₂ w.Respanned ts us
  becomes : ∀ whole ∈ w.whole, BecomeLines whole ss ts

section

variable {s t u : Tree} {ss ts us ts' us' : List Tree} {r r' : Option Tree}

/-- A statement behind its sequence point. -/
theorem MatchPoint.line (h : w.MatchPoint r r') (ht : w.Match s t u) :
    w.MatchLine s (r.toList ++ [t]) (r'.toList ++ [u]) where
  respanned := by
    cases h.respanned with
    | some hpoint => exact .cons hpoint (.cons ht.respanned .nil)
    | none => exact .cons ht.respanned .nil
  becomes whole hwhole := .some h.isPoint (ht.becomes whole hwhole)

theorem Match.line (h : w.Match s t u) : w.MatchLine s [t] [u] :=
  MatchPoint.line ⟨.none, nofun⟩ h

theorem MatchLine.none (h : s.isEmpty = true ∨ s.IsPoint) : w.MatchLine s [] [] := ⟨.nil, fun _ _ => .none h⟩

theorem MatchLines.nil : w.MatchLines [] [] [] := ⟨.nil, fun _ _ => .nil⟩

theorem MatchLines.cons (h : w.MatchLine s ts us) (hs : w.MatchLines ss ts' us') :
    w.MatchLines (s :: ss) (ts ++ ts') (us ++ us') where
  respanned := List.rel_append h.respanned hs.respanned
  becomes whole hwhole := .cons (h.becomes whole hwhole) (hs.becomes whole hwhole)

theorem MatchLines.ofStatements (h : w.MatchLines [s] ts us) (hempty : s.isEmpty = false) :
    w.Match s (Tree.ofStatements ts) (Tree.ofStatements us) where
  respanned := by
    have hblock := Tree.Respanned.block h.respanned
    match ts, us, h.respanned with
    | _, _, .nil => exact hblock
    | _, _, .cons hone .nil => exact hone
    | _, _, .cons _ (.cons _ _) => exact hblock
  becomes whole hwhole := (h.becomes whole hwhole).ofStatements hempty

end

theorem lineOf_twin (h : Twins w slot p) (tail : Tail) :
    w.Twin (w.MatchLine p.1.tree) (lineOf p.1 tail) (lineOf p.2 tail) := by
  have hlead : leadOf p.2.tree tail = leadOf p.1.tree tail := by
    unfold leadOf
    rw [h.trees.isThrow, h.trees.isJump, h.trees.ty]
  unfold lineOf
  rw [hlead]
  refine .bind_same newline_same fun _ => .page_bind fun start₁ start₂ hstart => ?_
  refine .put_bind <| .bind_twin (h.write _) fun _ _ => ?_
  refine .put_bind <| .bind_twin (mark_twin _ hstart) fun _ _ => ?_
  exact .give fun hpoint ht => hpoint.line ht

end Pairing

theorem Twins.test (h : Twins w slot p) : w.Mates p.1.tree p.1.test p.2.test := by
  refine .page_bind fun start₁ start₂ hstart => .bind_twin h.value fun t u => ?_
  refine .bind_twin (mark_twin .test hstart) fun r s => ?_
  cases r with
  | none =>
    cases s with
    | none => exact .give fun _ ht => ht
    | some point' => exact .give fun hpoint => by cases hpoint.respanned
  | some point =>
    cases s with
    | none => exact .give fun hpoint => by cases hpoint.respanned
    | some point' =>
      refine .give fun hpoint ht => ⟨.block (hpoint.line ht).respanned, fun whole hwhole => ?_⟩
      exact .marked (hpoint.isPoint point rfl) (ht.becomes whole hwhole)

namespace Pairing

theorem addTaker_same (target : Label) (tail : Tail) : w.Same (addTaker target tail) (addTaker target tail) :=
  .ite (onFlow_same _) (.pure rfl trivial)

theorem innerLabel_twin (target : Label) {value value' : Option Tree} (h : ¬w.late → value' = value)
    (hmem : ∀ whole ∈ w.whole, Tree.mk (.label target value) ∈ whole.subtrees) :
    w.Mates (.mk (.label target value)) (innerLabel target value) (innerLabel target value') := by
  refine .bind_same (naming_same _) fun _ => .putLine_bind ?_
  refine .pure_of_trust trivial fun hearly _ => ?_
  rw [h hearly]
  exact .same fun whole hwhole => .of_label (hmem whole hwhole)

theorem statement_twin (h : Twins w slot p) (tail : Tail) (isFirst isLast : Bool) :
    w.Twin (w.MatchLine p.1.tree) (statement p.1 tail isFirst isLast) (statement p.2 tail isFirst isLast) := by
  have hwrite (tail : Tail) : w.Twin (w.MatchLine p.1.tree) (do let t ← p.1.write tail; pure [t])
      (do let t ← p.2.write tail; pure [t]) :=
    .bind_twin (h.write tail) fun _ _ => .give Match.line
  have hrest : w.Twin (w.MatchLine p.1.tree)
      (if p.1.tree.isExpression then lineOf p.1 tail
        else do unless isFirst do newline
                let t ← p.1.write tail
                return [t])
      (if p.2.tree.isExpression then lineOf p.2 tail
        else do unless isFirst do newline
                let t ← p.2.write tail
                return [t]) := by
    rw [h.trees.isExpression]
    exact .ite (lineOf_twin h tail) (.ite (hwrite tail) (.bind_same newline_same fun _ => hwrite tail))
  unfold statement
  rw [h.trees.isEmpty]
  refine .ite_of (fun hempty => .give (.none (Or.inl hempty))) fun _ => ?_
  have htrees := h.trees
  obtain ⟨⟨t, _⟩, ⟨u, _⟩⟩ := p
  change t.LateBinds slot u at htrees
  -- sequence points and labels have lines of their own kind; all else is an expression or a body
  cases htrees with
  | layer z hz =>
    cases z
    case sequencePoint =>
      refine .read_bind ?_
      cases h₁ : w.left.wrapper.document <;> cases h₂ : w.right.wrapper.document <;>
        refine .pure_of_trust trivial fun _ hdoc => ?_
      · exact Match.line (.leaf rfl rfl)
      · rw [h₁, h₂] at hdoc
        cases hdoc
      · rw [h₁, h₂] at hdoc
        cases hdoc
      · exact .none (Or.inr ⟨_, _, rfl⟩)
    case label =>
      refine .ite (hwrite tail) (.bind_twin (innerLabel_twin _ (fun hearly => ?_) h.mem) fun _ _ => ?_)
      · injection h.early hearly with hnode
        injection hnode
      · exact .give Match.line
    all_goals exact hrest
  | operation ty htoken hbare hl hr => exact hrest

theorem statementsFrom_twin (tail : Tail) (isFirst : Bool) (h : ∀ p ∈ ps, Twins w slot p) :
    w.Twin (w.MatchLines (ps.map (·.1.tree))) (statementsFrom tail isFirst (ps.map Prod.fst))
      (statementsFrom tail isFirst (ps.map Prod.snd)) := by
  induction ps generalizing isFirst with
  | nil => exact .give .nil
  | cons p rest ih =>
    rw [List.forall_mem_cons] at h
    rw [List.map_cons, List.map_cons, List.map_cons, statementsFrom, statementsFrom, List.isEmpty_map, List.isEmpty_map]
    exact .bind_twin (statement_twin h.1 _ _ _) fun _ _ => .bind_twin (ih false h.2) fun _ _ =>
      .give fun hrest hfirst => .cons hfirst hrest

theorem statements_twin (h : ∀ p ∈ ps, Twins w slot p) (tail : Tail) :
    w.Twin (w.MatchLines (ps.map (·.1.tree))) (statements (ps.map Prod.fst) tail) (statements (ps.map Prod.snd) tail) := by
  have hrest := statementsFrom_twin tail true h
  have hlabel : (ps.map Prod.snd).getLast?.bind (·.tree.node.labelTarget?)
      = (ps.map Prod.fst).getLast?.bind (·.tree.node.labelTarget?) := by
    rw [List.getLast?_map, List.getLast?_map]
    cases hlast : ps.getLast? with
    | none => rfl
    | some p => exact (h p (List.mem_of_getLast? hlast)).trees.labelTarget?
  unfold statements
  rw [hlabel]
  cases (ps.map Prod.fst).getLast?.bind (·.tree.node.labelTarget?) with
  | some target => exact .bind_same (addTaker_same _ _) fun _ => hrest
  | none => exact hrest

theorem declare_giving (v : Variable) (inPlace : Bool) :
    w.Giving v.Written (declare v inPlace) (declare v inPlace) := by
  refine .ite (postpone_giving v) (.bind_same newline_same fun _ => ?_)
  exact .putType_bind <| .put_bind <| .bind_giving (putVariable_giving v) fun _ => .put_bind <| .pure rfl id

theorem block_twin (vars : List Variable) (h : ∀ p ∈ ps, Twins w .inspected p) (ty : Ty) (tail : Tail) :
    w.Mates (.mk (.block vars (ps.map (·.1.tree)) ty)) (block vars (ps.map Prod.fst) ty tail)
      (block vars (ps.map Prod.snd) ty tail) := by
  unfold block
  extract_lets tail inPlace inPlace'
  have hplace : inPlace' = inPlace := by
    funext v
    show declaredInPlace v.id _ ((ps.map Prod.snd).map _) = declaredInPlace v.id _ ((ps.map Prod.fst).map _)
    rw [List.map_map, List.map_map]
    exact Tree.LateBinds.declaredInPlace (fun p hp => (h p hp).trees) v.id _
  rw [hplace]
  refine .bind_giving (mapM_giving fun v _ => declare_giving v _) fun ws => ?_
  have hrest : w.Twin (fun c e => List.Forall₂ Variable.Written vars ws →
        w.Match (.mk (.block vars (ps.map (·.1.tree)) ty)) c e)
      (do let ts ← statements (ps.map Prod.fst) tail; pure (Tree.mk (.block ws ts ty)))
      (do let ts ← statements (ps.map Prod.snd) tail; pure (Tree.mk (.block ws ts ty))) := by
    refine .bind_twin (statements_twin h tail) fun _ _ => .give fun hlines hws => ?_
    exact ⟨.mkBlock ws ty hlines.respanned, fun whole hwhole => (hlines.becomes whole hwhole).block ty hws⟩
  exact .ite hrest (.bind_same newline_same fun _ => hrest)

end Pairing

namespace Twins

/-- A tree that is not written stays as it is. -/
theorem pure_tree (h : Twins w slot p) (hcopy : ∀ whole ∈ w.whole, whole.Becomes p.1.tree p.1.tree) :
    w.Mates p.1.tree (pure p.1.tree) (pure p.2.tree) :=
  .pure_of_trust trivial fun hearly _ => h.asIs hearly hcopy

theorem body (h : Twins w slot p) (tail : Tail) : w.Mates p.1.tree (p.1.body tail) (p.2.body tail) := by
  have hrest : w.Mates p.1.tree
      (if p.1.tree.isEmpty then pure p.1.tree else do let ts ← statements [p.1] tail; return Tree.ofStatements ts)
      (if p.2.tree.isEmpty then pure p.2.tree else do let ts ← statements [p.2] tail; return Tree.ofStatements ts) := by
    have hone : ∀ q ∈ [p], Twins w slot q := by simpa using h
    rw [h.trees.isEmpty]
    refine .ite_of (fun hempty => h.pure_tree fun _ _ => .of_isEmpty hempty) fun hempty => ?_
    refine .bind_twin (statements_twin hone tail) fun _ _ => .give fun hlines => ?_
    exact hlines.ofStatements (Bool.not_eq_true _ ▸ hempty)
  have hwrite := h.write tail
  have htrees := h.trees
  obtain ⟨⟨t, _⟩, ⟨u, _⟩⟩ := p
  change t.LateBinds slot u at htrees
  cases htrees with
  | layer z hz =>
    cases z
    case block vars body ty => exact hwrite
    all_goals exact hrest
  | operation ty htoken hbare hl hr => exact hrest

theorem bracedBody (h : Twins w slot p) (tail : Tail) : w.Mates p.1.tree (p.1.bracedBody tail) (p.2.bracedBody tail) :=
  .bind_same openBrace_same fun _ => .bind_twin (h.body tail) fun _ _ =>
    .bind_same closeBrace_same fun _ => .give id

end Twins

namespace Pairing

/-! ## Conditionals -/

variable {test ifTrue ifFalse : Piece × Piece} {value final fault : Option (Piece × Piece)}

theorem match_conditional {s t u a b c d e f : Tree} (ty : Ty) (ht : w.Match s t u) (ha : w.Match a b c)
    (hb : w.Match d e f) :
    w.Match (.mk (.conditional s a d ty)) (.mk (.conditional t b e ty)) (.mk (.conditional u c f ty)) :=
  .plain (.conditional (s, t, u) (a, b, c) (d, e, f) ty) rfl (by simp [Node.children, ht, ha, hb])

theorem ternary_twin (ht : Twins w (.operand (.shape .conditional) false) test)
    (ha : Twins w (.operand (.shape .conditional) false) ifTrue)
    (hb : Twins w (.operand (.shape .conditional) false) ifFalse) (ty : Ty) :
    w.Mates (.mk (.conditional test.1.tree ifTrue.1.tree ifFalse.1.tree ty))
      (ternary test.1 ifTrue.1 ifFalse.1 ty) (ternary test.2 ifTrue.2 ifFalse.2 ty) :=
  .bind_twin ht.operand fun _ _ => .put_bind <| .bind_twin ha.operand fun _ _ => .put_bind <|
    .bind_twin hb.operand fun _ _ =>
    .give fun hb ha ht => match_conditional ty ht ha hb

theorem elseBranch_twin (h : Twins w slot p) (tail : Tail) :
    w.Mates p.1.tree (elseBranch p.1 tail) (elseBranch p.2 tail) := by
  unfold elseBranch
  rw [h.trees.isOmitted]
  refine .ite_of (fun homitted => h.pure_tree fun _ _ => .of_isOmitted homitted) fun _ => ?_
  have hbranches := h.branches
  generalize p.1.2.branches = b, p.2.2.branches = b' at hbranches
  cases hbranches with
  | some hb => exact hb.elseIf tail
  | none => exact .putLine_bind <| h.bracedBody tail

theorem ifStatement_twin (lead : String) (ht : Twins w slot test) (ha : Twins w slot ifTrue) (hb : Twins w slot ifFalse)
    (ty : Ty) (tail : Tail) :
    w.Mates (.mk (.conditional test.1.tree ifTrue.1.tree ifFalse.1.tree ty))
      (ifStatement lead test.1 ifTrue.1 ifFalse.1 ty tail) (ifStatement lead test.2 ifTrue.2 ifFalse.2 ty tail) :=
  .putLine_bind <| .bind_twin ht.test fun _ _ => .put_bind <| .bind_twin (ha.bracedBody _) fun _ _ =>
    .bind_twin (elseBranch_twin hb _) fun _ _ =>
    .give fun hb ha ht => match_conditional ty ht ha hb

/-! ## Jumps -/

theorem clearFlags_same (flags : List String) : w.Same (clearFlags flags) (clearFlags flags) := by
  induction flags with
  | nil => exact .pure rfl trivial
  | cons flag flags ih =>
    exact .put_bind <| .bind_same newline_same fun _ => ih

theorem clearFaults_same (target : Option Label) : w.Same (clearFaults target) (clearFaults target) := by
  refine .get_bind fun d₁ d₂ hd => ?_
  rw [hd.flow]
  exact clearFlags_same _

theorem putJump_same (target : Label) : w.Same (putJump target) (putJump target) := by
  refine .get_bind fun d₁ d₂ hd => ?_
  rw [hd.flow]
  refine .bind_same (onFlow_same _) fun _ => ?_
  split
  · exact put_same _
  · exact put_same _
  · exact .bind_same (naming_same _) fun _ => put_same _

/-- What stands for a value that is asked for corresponds; where there is no value, it is a default value. -/
def MatchValue (w : Pairing) (value : Option Tree) (ty : Ty) (t u : Tree) : Prop :=
  (∃ s ∈ value, w.Match s t u) ∨ (value = none ∧ t = .defaultOf ty ∧ u = t)

theorem valueOrDefault_twin (h : ∀ p ∈ value, Twins w slot p) (ty : Ty) :
    w.Twin (w.MatchValue (value.map (·.1.tree)) ty) (valueOrDefault (value.map Prod.fst) ty)
      (valueOrDefault (value.map Prod.snd) ty) := by
  cases value with
  | some p => exact .weaken id (fun ht => Or.inl ⟨p.1.tree, rfl, ht⟩) (h p rfl).value
  | none => exact .bind_same (putDefault_same ty) fun _ => .give (Or.inr ⟨rfl, rfl, rfl⟩)

theorem match_jump (kind : JumpKind) (target : Label) (ty : Ty) {s t u : Option Tree} (h : TripledTree? w.Match s t u) :
    w.Match (.mk (.jump kind target s ty)) (.jump kind target t) (.jump kind target u) := by
  obtain ⟨c, rfl, rfl, rfl, hc⟩ := h
  exact .layer (.jump kind target c ty) hc

theorem MatchValue.jump (kind : JumpKind) (target : Label) {s : Option Tree} {valueTy ty : Ty} {t u : Tree}
    (h : w.MatchValue s valueTy t u) :
    w.Match (.mk (.jump kind target s ty)) (.jump kind target (some t)) (.jump kind target (some u)) := by
  rcases h with ⟨s, rfl, ht⟩ | ⟨rfl, rfl, rfl⟩
  · exact match_jump kind target ty (.some ht)
  · exact .same fun _ _ => .jumpDefault kind target ty valueTy

theorem effectOf_twin (h : ∀ p ∈ value, Twins w .inspected p)
    (hcopy : ∀ p ∈ value, p.1.tree.node.isEffect = false → ∀ whole ∈ w.whole, whole.Becomes p.1.tree p.1.tree) :
    w.Twin (TripledTree? w.Match (value.map (·.1.tree))) (effectOf (value.map Prod.fst))
      (effectOf (value.map Prod.snd)) := by
  cases value with
  | some p =>
    have hp := h p rfl
    unfold effectOf
    dsimp only [Option.map_some]
    rw [hp.trees.isEffect]
    refine .ite_of (fun _ => ?_) fun hpure => .pure_of_trust trivial fun hearly _ => .some (hp.asIs hearly ?_)
    · exact .bind_twin (hp.write _) fun _ _ => .put_bind <| .bind_same newline_same fun _ => .give .some
    · exact hcopy p rfl (Bool.not_eq_true _ ▸ hpure)
  | none => exact .give .none

theorem jump_twin (kind : JumpKind) (target : Label) (ty : Ty) (h : ∀ p ∈ value, Twins w .inspected p)
    (hmem : ∀ whole ∈ w.whole, Tree.mk (.jump kind target (value.map (·.1.tree)) ty) ∈ whole.subtrees) :
    w.Mates (.mk (.jump kind target (value.map (·.1.tree)) ty)) (jump kind target (value.map Prod.fst))
      (jump kind target (value.map Prod.snd)) := by
  have hvalue := valueOrDefault_twin h target.ty
  refine .get_bind fun d₁ d₂ hd => ?_
  rw [hd.flow]
  split
  · refine .bind_same (clearFaults_same _) fun _ => .put_bind ?_
    exact .bind_twin hvalue fun _ _ => .give (MatchValue.jump _ target)
  · refine .put_bind <| .bind_twin hvalue fun _ _ => ?_
    exact .put_bind <| .bind_same newline_same fun _ =>
      .bind_same (clearFaults_same _) fun _ => .bind_same (putJump_same _) fun _ =>
      .give (MatchValue.jump _ target)
  · refine .bind_same (clearFaults_same _) fun _ => .put_bind ?_
    cases value with
    | some p =>
      refine .put_bind <| .bind_twin (h p rfl).value fun _ _ => ?_
      exact .pure_bind (.give fun ht => match_jump _ target ty (.some ht))
    | none => exact .pure_bind (.give (match_jump _ target ty .none))
  · next hkind _ _ =>
    have hcopy : ∀ p ∈ value, p.1.tree.node.isEffect = false → ∀ whole ∈ w.whole, whole.Becomes p.1.tree p.1.tree := by
      rintro p rfl hpure whole hwhole
      refine .copied (hmem whole hwhole) ?_
      rw [Tree.node, Node.spares, if_neg hkind]
      exact List.mem_filter.mpr ⟨List.mem_singleton_self _, by rw [hpure]; rfl⟩
    refine .bind_twin (effectOf_twin h hcopy) fun _ _ => .bind_same (clearFaults_same _) fun _ => ?_
    exact .bind_same (putJump_same _) fun _ => .give (match_jump _ target ty)

/-! ## Labels and loops -/

theorem MatchValue.label (target : Label) {s : Option Tree} {valueTy : Ty} {t u : Tree}
    (h : w.MatchValue s valueTy t u) :
    w.Match (.mk (.label target s)) (.mk (.label target (some t))) (.mk (.label target (some u))) := by
  rcases h with ⟨s, rfl, ht⟩ | ⟨rfl, rfl, rfl⟩
  · exact .plain (.label target (some (s, t, u))) rfl (by simp [Node.children, ht])
  · exact .same fun _ _ => .labelDefault target valueTy

theorem finalLabel_twin (target : Label) (h : ∀ p ∈ value, Twins w slot p)
    (hmem : ∀ whole ∈ w.whole, Tree.mk (.label target (value.map (·.1.tree))) ∈ whole.subtrees) (tail : Tail) :
    w.Mates (.mk (.label target (value.map (·.1.tree)))) (finalLabel target (value.map Prod.fst) tail)
      (finalLabel target (value.map Prod.snd) tail) := by
  have hvalue := valueOrDefault_twin h target.ty
  refine .bind_same (naming_same _) fun name => ?_
  split
  · refine .putLine_bind <| .put_bind ?_
    refine .pure_of_trust trivial fun hearly _ => ?_
    cases value with
    | some p =>
      simp only [Option.map_some, (h p rfl).early hearly]
      exact .same fun whole hwhole => .of_label (hmem whole hwhole)
    | none => exact .leaf rfl rfl
  · exact .putLine_bind <| .putLine_bind <|
      .bind_twin hvalue fun _ _ => .put_bind <| .give (MatchValue.label target)
  · exact .putLine_bind <| .bind_twin hvalue fun _ _ =>
      .put_bind <| .putLine_bind <| .give (MatchValue.label target)

theorem putLabel_same (target : Label) : w.Same (putLabel target) (putLabel target) :=
  .bind_same (naming_same _) fun _ => putLine_same _

theorem putAgainLabel_same : w.Same putAgainLabel putAgainLabel := by
  refine .get_bind fun d₁ d₂ hd => ?_
  rw [hd.flow]
  split
  · exact putLabel_same _
  · exact .pure rfl trivial

theorem leaveLoop_same : w.Same leaveLoop leaveLoop := by
  refine .get_bind fun d₁ d₂ hd => ?_
  rw [hd.flow]
  refine .bind_same (onFlow_same _) fun _ => ?_
  split
  · exact putLabel_same _
  · exact .pure rfl trivial

theorem whileLoop_twin {b b' : Branches} {test ifTrue ifFalse ifFalse' : Tree} {ty : Ty}
    (h : b.Twins w (.mk (.conditional test ifTrue ifFalse ty)) b') (hearly : ¬w.late → ifFalse' = ifFalse)
    (hcopy : ∀ whole ∈ w.whole, whole.Becomes ifFalse ifFalse) (loopTy : Ty) (tail : Tail) :
    w.Mates (.mk (.conditional test ifTrue ifFalse ty)) (whileLoop b ifFalse ty loopTy tail)
      (whileLoop b' ifFalse' ty loopTy tail) := by
  refine .putLine_bind <| .bind_twin (h.test rfl) fun t u => ?_
  refine .put_bind <| .bind_same openBrace_same fun _ => ?_
  refine .bind_twin (h.whenTrue _ rfl) fun a b => .bind_same putAgainLabel_same fun _ => ?_
  refine .bind_same closeBrace_same fun _ => ?_
  have hwhole : w.Twin (fun c e => w.Match ifTrue a b → w.Match test t u →
        w.Match (.mk (.conditional test ifTrue ifFalse ty)) c e)
      (pure (.mk (.conditional t a ifFalse ty))) (pure (.mk (.conditional u b ifFalse' ty))) := by
    refine .pure_of_trust trivial fun hnot _ ha ht => match_conditional ty ht ha ?_
    rw [hearly hnot]
    exact .same hcopy
  split
  · exact .putLine_bind <| .bind_same (putDefault_same _) fun _ => .put_bind <| hwhole
  · exact hwhole

theorem endlessLoop_twin (h : Twins w slot p) : w.Mates p.1.tree (endlessLoop p.1) (endlessLoop p.2) :=
  .putLine_bind <| .bind_same openBrace_same fun _ =>
    .bind_twin (h.body _) fun _ _ => .bind_same putAgainLabel_same fun _ =>
    .bind_same closeBrace_same fun _ => .give id

theorem loop_twin (h : Twins w slot p) (exit again : Option Label) (tail : Tail) :
    w.Mates (.mk (.loop p.1.tree exit again)) (loop p.1 exit again tail) (loop p.2 exit again tail) := by
  unfold loop
  extract_lets ty tail after rest rest'
  have hafter : ∀ t u, w.Twin (fun c e => w.Match p.1.tree t u → w.Match (.mk (.loop p.1.tree exit again)) c e)
      (after t) (after u) :=
    fun t u => .bind_same leaveLoop_same fun _ => .give fun ht =>
      .plain (.loop (p.1.tree, t, u) exit again) rfl (by simp [Node.children, ht])
  have hrest : ∀ s, w.Mates (.mk (.loop p.1.tree exit again)) (rest s) (rest' s) := by
    refine fun s => .bind_same (onFlow_same _) fun _ => ?_
    have hendless := Alike.bind_twin (endlessLoop_twin h) hafter
    have htrees := h.trees
    have hbranches := h.branches
    obtain ⟨⟨t, rt⟩, ⟨u, ru⟩⟩ := p
    change t.LateBinds slot u at htrees
    change Option.Rel (Branches.Twins w t) rt.branches ru.branches at hbranches
    -- only a conditional that leaves the loop is written with its test
    cases htrees with
    | layer z hz =>
      cases z
      case conditional test ifTrue ifFalse bodyTy =>
        have hfalse := hz (.operand (.shape .conditional) false, ifFalse) (by simp [Node.slotted, inSlot])
        generalize rt.branches = b, ru.branches = b' at hbranches
        cases hbranches with
        | some hb =>
          dsimp only [Tree.node, Node.map]
          rw [hfalse.leavesLoop]
          refine .ite_of (fun hleaves => ?_) fun _ => hendless
          refine .bind_twin (whileLoop_twin hb (fun hearly => ?_) (fun _ _ => .of_leavesLoop hleaves) _ _) hafter
          injection h.early hearly with hnode
          injection hnode
        | none => exact hendless
      all_goals exact hendless
    | operation _ _ _ _ _ => exact hendless
  split
  · exact .bind_same (addTaker_same _ _) hrest
  · exact hrest ()

/-! ## Switches -/

theorem caseBody_twin (h : Twins w slot p) (tail : Tail) :
    w.Mates p.1.tree (caseBody p.1 tail) (caseBody p.2 tail) := by
  refine .bind_same indent_same fun _ => .bind_twin (h.body tail) fun t u => ?_
  have hrest : w.Twin (fun c e => w.Match p.1.tree t u → w.Match p.1.tree c e) (do dedent; pure t) (do dedent; pure u) :=
    .bind_same dedent_same fun _ => .give id
  exact .ite (.putLine_bind <| hrest) hrest

/-- Cases of the same form. -/
abbrev MatchCase (w : Pairing) : Case Tree → Case Tree → Case Tree → Prop :=
  Tripled w.Match Case.map fun c => c.tests ++ [c.body]

/-- Lists of cases, related one by one. -/
abbrev MatchCases (w : Pairing) : List (Case Tree) → List (Case Tree) → List (Case Tree) → Prop :=
  Tripled w.Match (fun f => List.map (Case.map f)) (List.flatMap fun c => c.tests ++ [c.body])

theorem switchCase_twin (tail : Tail) {c : Case (Piece × Piece)} (ht : ∀ p ∈ c.tests, Twins w slot p)
    (hb : Twins w slot c.body) :
    w.Twin (w.MatchCase (c.map (·.1.tree))) (switchCase tail (c.map Prod.fst)) (switchCase tail (c.map Prod.snd)) := by
  have htest : ∀ p ∈ c.tests, w.Mates p.1.tree (do putLine "case "; let t ← p.1.value; put ":"; pure t)
      (do putLine "case "; let t ← p.2.value; put ":"; pure t) := fun p hp =>
    .putLine_bind <| .bind_twin (ht p hp).value fun _ _ => .put_bind <| .give id
  refine .bind_twin (.weaken (fun _ => trivial) TripledTrees.of_forall₃
    (mapM_alike (h := fun p : Piece => do putLine "case "; let t ← p.value; put ":"; pure t) htest)) fun _ _ => ?_
  refine .bind_twin (caseBody_twin hb tail) fun t u => .give ?_
  rintro hbody ⟨ps, hsource, rfl, rfl, hps⟩
  refine ⟨⟨ps, (c.body.1.tree, t, u)⟩, ?_, rfl, rfl, ?_⟩
  · rw [Case.map, hsource]
    rfl
  · rw [List.forall_mem_append]
    exact ⟨hps, by simpa using hbody⟩

theorem switch_twin (hv : Twins w slot p) {cases : List (Case (Piece × Piece))}
    (hc : ∀ c ∈ cases, (∀ p ∈ c.tests, Twins w slot p) ∧ Twins w slot c.body)
    (hf : ∀ p ∈ value, Twins w slot p) (ty : Ty) (tail : Tail) :
    w.Mates (.mk (.switch p.1.tree (cases.map (Case.map (·.1.tree))) (value.map (·.1.tree)) ty))
      (switch p.1 (cases.map (Case.map Prod.fst)) (value.map Prod.fst) ty tail)
      (switch p.2 (cases.map (Case.map Prod.snd)) (value.map Prod.snd) ty tail) := by
  unfold switch
  refine .putLine_bind <| .bind_twin hv.value fun v v' => ?_
  refine .put_bind <| .bind_same openBrace_same fun _ => ?_
  refine .bind_same (onFlow_same _) fun _ => ?_
  refine .bind_twin (.weaken (fun _ => trivial) Tripled.of_forall₃
    (mapM_alike fun c hm => switchCase_twin _ (hc c hm).1 (hc c hm).2)) fun cs cs' => ?_
  extract_lets rest rest'
  have hrest : ∀ f f', w.Twin (fun c e => TripledTree? w.Match (value.map (·.1.tree)) f f' →
      w.MatchCases (cases.map (Case.map (·.1.tree))) cs cs' → w.Match p.1.tree v v' →
      w.Match (.mk (.switch p.1.tree (cases.map (Case.map (·.1.tree))) (value.map (·.1.tree)) ty)) c e)
      (rest f) (rest' f') := by
    refine fun f f' => .bind_same (onFlow_same _) fun _ => .bind_same closeBrace_same fun _ => ?_
    refine .give ?_
    rintro ⟨o, hvalue, rfl, rfl, ho⟩ ⟨ks, hcases, rfl, rfl, hks⟩ hv
    rw [← hvalue, ← hcases]
    refine .plain (.switch (p.1.tree, v, v') ks o ty) rfl ?_
    rw [Node.children, List.forall_mem_append, List.forall_mem_cons]
    exact ⟨⟨hv, hks⟩, ho⟩
  cases value with
  | some p =>
    refine .putLine_bind <| .bind_twin (caseBody_twin (hf p rfl) _) fun t u => ?_
    exact .pure_bind (.weaken id (fun h ht => h (.some ht)) (hrest (some t) (some u)))
  | none => exact .pure_bind (.weaken id (fun h => h .none) (hrest none none))

/-! ## Exceptions -/

/-- Handlers of the same form, with what stands for the variable of the first. -/
def MatchHandler (w : Pairing) (s k k' : Handler Tree) : Prop :=
  ∃ c c' : Handler Trees, c.map (·.1) = s ∧ c.Written c' ∧ c'.map (·.2.1) = k ∧ c'.map (·.2.2) = k' ∧
    ∀ p ∈ c.filter.toList ++ [c.body], w.Match p.1 p.2.1 p.2.2

theorem handler_twin (tail : Tail) {h : Handler (Piece × Piece)} (hf : ∀ p ∈ h.filter, Twins w slot p)
    (hb : Twins w slot h.body) :
    w.Twin (w.MatchHandler (h.map (·.1.tree))) (handler tail (h.map Prod.fst)) (handler tail (h.map Prod.snd)) := by
  obtain ⟨test, caught, filter, body⟩ := h
  have hwhole (caught' : Option Variable) (f f' : Option Tree) (t u : Tree)
      (ht : w.Match body.1.tree t u) (hf : TripledTree? w.Match (filter.map (·.1.tree)) f f')
      (hcaught : List.Forall₂ Variable.Written caught.toList caught'.toList) :
      w.MatchHandler (Handler.map (·.1.tree) ⟨test, caught, filter, body⟩) ⟨test, caught', f, t⟩
        ⟨test, caught', f', u⟩ := by
    obtain ⟨o, hfilter, rfl, rfl, ho⟩ := hf
    refine ⟨⟨test, caught, o, (body.1.tree, t, u)⟩, ⟨test, caught', o, (body.1.tree, t, u)⟩, ?_,
      ⟨rfl, hcaught, rfl, rfl⟩, rfl, rfl, ?_⟩
    · rw [Handler.map, hfilter]
      rfl
    · rw [List.forall_mem_append]
      exact ⟨ho, by simpa using ht⟩
  unfold handler
  refine .putLine_bind <| .putType_bind ?_
  extract_lets rest rest'
  have hrest : ∀ caught', w.Twin (fun c e => List.Forall₂ Variable.Written caught.toList caught'.toList →
      w.MatchHandler (Handler.map (·.1.tree) ⟨test, caught, filter, body⟩) c e) (rest caught') (rest' caught') := by
    refine fun caught' => .put_bind ?_
    cases filter with
    | some p =>
      refine .put_bind <| .bind_twin (hf p rfl).value fun _ _ => ?_
      refine .put_bind <| .pure_bind ?_
      refine .bind_twin (hb.bracedBody tail) fun _ _ => ?_
      exact .give fun ht hfilter => hwhole _ _ _ _ _ ht (.some hfilter)
    | none =>
      refine .pure_bind (.bind_twin (hb.bracedBody tail) fun _ _ => ?_)
      exact .give fun ht => hwhole _ _ _ _ _ ht .none
  -- what is caught gets its name while it is written, so that `hrest` leaves it open
  cases caught with
  | some v =>
    refine .put_bind <| .bind_giving (putVariable_giving v) fun x => .pure_bind ?_
    exact .weaken id (fun h hx => h (.cons hx .nil)) (hrest (some x))
  | none => exact .pure_bind (.weaken id (fun h => h .nil) (hrest none))

theorem flaggedBody_twin (h : Twins w slot p) (tail : Tail) (flag : String) :
    w.Mates p.1.tree (flaggedBody p.1 tail flag) (flaggedBody p.2 tail flag) := by
  unfold flaggedBody
  rw [h.trees.labels]
  exact .bind_same (onFlow_same _) fun _ => .bind_twin (h.body tail) fun _ _ =>
    .bind_same (onFlow_same _) fun _ => .putLine_bind <| .give id

theorem tryBody_twin (h : Twins w slot p) (tail : Tail) (flag : Option String) :
    w.Mates p.1.tree (tryBody p.1 tail flag) (tryBody p.2 tail flag) := by
  unfold tryBody
  refine .putLine_bind <| .bind_same openBrace_same fun _ => ?_
  split
  · exact .bind_twin (flaggedBody_twin h tail _) fun _ _ => .bind_same closeBrace_same fun _ => .give id
  · exact .bind_twin (h.body tail) fun _ _ => .bind_same closeBrace_same fun _ => .give id

/-- Two optional trees at once. -/
abbrev MatchParts (w : Pairing) (final fault : Option (Piece × Piece)) (a b : Option Tree × Option Tree) : Prop :=
  TripledTree? w.Match (final.map (·.1.tree)) a.1 b.1 ∧ TripledTree? w.Match (fault.map (·.1.tree)) a.2 b.2

theorem finallyPart_twin (hf : ∀ p ∈ final, Twins w slot p) (hu : ∀ p ∈ fault, Twins w slot p) (flag : String) :
    w.Twin (w.MatchParts final fault) (finallyPart (final.map Prod.fst) (fault.map Prod.fst) flag)
      (finallyPart (final.map Prod.snd) (fault.map Prod.snd) flag) := by
  unfold finallyPart
  rw [Option.isNone_map, Option.isNone_map, Option.isNone_map, Option.isNone_map]
  refine .ite_of (fun hnone => .give ?_) fun _ => ?_
  · rw [Bool.and_eq_true, Option.isNone_iff_eq_none, Option.isNone_iff_eq_none] at hnone
    rw [MatchParts, hnone.1, hnone.2]
    exact ⟨.none, .none⟩
  refine .putLine_bind <| .bind_same openBrace_same fun _ => ?_
  extract_lets rest rest'
  have hrest : ∀ t u, w.Twin (fun c e => TripledTree? w.Match (final.map (·.1.tree)) t u →
      w.MatchParts final fault c e) (rest t) (rest' u) := by
    intro t u
    dsimp only [rest, rest']
    cases fault with
    | some p =>
      refine .putLine_bind ?_
      refine .bind_twin ((hu p rfl).bracedBody _) fun _ _ => .pure_bind ?_
      exact .bind_same closeBrace_same fun _ => .give fun hfault ht => ⟨ht, .some hfault⟩
    | none => exact .pure_bind (.bind_same closeBrace_same fun _ => .give fun ht => ⟨ht, .none⟩)
  cases final with
  | some p =>
    refine .bind_twin ((hf p rfl).body _) fun t u => ?_
    exact .pure_bind (.weaken id (fun h ht => h (.some ht)) (hrest (some t) (some u)))
  | none => exact .pure_bind (.weaken id (fun h => h .none) (hrest none none))

section

variable {handlers : List (Handler (Piece × Piece))}

theorem match_tryCatch (ty : Ty) {s t u : Tree} {ks ks' : List (Handler Tree)} {f g g' v x x' : Option Tree}
    (ht : w.Match s t u) (hks : Forall₃ (fun h => w.MatchHandler (h.map (·.1.tree))) handlers ks ks')
    (hf : TripledTree? w.Match f g g') (hv : TripledTree? w.Match v x x') :
    w.Match (.mk (.tryCatch s (handlers.map (Handler.map (·.1.tree))) f v ty)) (.mk (.tryCatch t ks g x ty))
      (.mk (.tryCatch u ks' g' x' ty)) := by
  have hlists : ∃ cs cs' : List (Handler Trees),
      cs.map (Handler.map (·.1)) = handlers.map (Handler.map (·.1.tree)) ∧ List.Forall₂ Handler.Written cs cs' ∧
      cs'.map (Handler.map (·.2.1)) = ks ∧ cs'.map (Handler.map (·.2.2)) = ks' ∧
      ∀ p ∈ cs.flatMap (fun c => c.filter.toList ++ [c.body]), w.Match p.1 p.2.1 p.2.2 := by
    induction hks with
    | nil => exact ⟨[], [], rfl, .nil, rfl, rfl, nofun⟩
    | cons hk _ ih =>
      obtain ⟨c, c', hc, hcc', rfl, rfl, hall⟩ := hk
      obtain ⟨cs, cs', hcs, hccs', rfl, rfl, hall'⟩ := ih
      refine ⟨c :: cs, c' :: cs', ?_, .cons hcc' hccs', rfl, rfl, ?_⟩
      · rw [List.map_cons, List.map_cons, hc, hcs]
      · rw [List.flatMap_cons, List.forall_mem_append]
        exact ⟨hall, hall'⟩
  obtain ⟨cs, cs', hcs, hwritten, rfl, rfl, hall⟩ := hlists
  obtain ⟨o, rfl, rfl, rfl, ho⟩ := hf
  obtain ⟨o', rfl, rfl, rfl, ho'⟩ := hv
  rw [← hcs]
  refine .layer (.tryCatch (s, t, u) o o' ty hwritten) ?_
  rw [Node.children, List.forall_mem_append, List.forall_mem_append, List.forall_mem_cons]
  exact ⟨⟨⟨ht, hall⟩, ho⟩, ho'⟩

variable (hb : Twins w slot p)
  (hh : ∀ h ∈ handlers, (∀ p ∈ h.filter, Twins w slot p) ∧ Twins w slot h.body) (hf : ∀ p ∈ final, Twins w slot p)

include hb hh hf

theorem plainTry_twin (ty : Ty) (tail : Tail) :
    w.Mates (.mk (.tryCatch p.1.tree (handlers.map (Handler.map (·.1.tree))) (final.map (·.1.tree)) none ty))
      (plainTry p.1 (handlers.map (Handler.map Prod.fst)) (final.map Prod.fst) ty tail)
      (plainTry p.2 (handlers.map (Handler.map Prod.snd)) (final.map Prod.snd) ty tail) :=
  have hnone : ∀ q ∈ (none : Option (Piece × Piece)), Twins w slot q := nofun
  .bind_twin (tryBody_twin hb tail none) fun _ _ => .bind_twin (.weaken (fun _ => trivial) id
      (mapM_alike fun h hm => handler_twin tail (hh h hm).1 (hh h hm).2)) fun _ _ =>
    .bind_twin (finallyPart_twin hf hnone _) fun _ _ =>
    .give fun hparts hhs ht => match_tryCatch ty ht hhs hparts.1 .none

theorem faultTry_twin {handler : Piece × Piece} (hu : Twins w slot handler) (ty : Ty) (tail : Tail) (flag : String) :
    w.Mates (.mk (.tryCatch p.1.tree (handlers.map (Handler.map (·.1.tree))) (final.map (·.1.tree))
        (some handler.1.tree) ty))
      (faultTry p.1 (handlers.map (Handler.map Prod.fst)) (final.map Prod.fst) handler.1 ty tail flag)
      (faultTry p.2 (handlers.map (Handler.map Prod.snd)) (final.map Prod.snd) handler.2 ty tail flag) :=
  have hsome : ∀ q ∈ some handler, Twins w slot q := by simpa using hu
  .putLine_bind <| .bind_twin (tryBody_twin hb tail _) fun _ _ => .bind_twin (.weaken (fun _ => trivial) id
      (mapM_alike fun h hm => handler_twin tail (hh h hm).1 (hh h hm).2)) fun _ _ =>
    .bind_twin (finallyPart_twin hf hsome _) fun _ _ =>
    .give fun hparts hhs ht => match_tryCatch ty ht hhs hparts.1 hparts.2

theorem tryCatch_twin (hu : ∀ p ∈ fault, Twins w slot p) (ty : Ty) (tail : Tail) :
    w.Mates (.mk (.tryCatch p.1.tree (handlers.map (Handler.map (·.1.tree))) (final.map (·.1.tree))
        (fault.map (·.1.tree)) ty))
      (tryCatch p.1 (handlers.map (Handler.map Prod.fst)) (final.map Prod.fst) (fault.map Prod.fst) ty tail)
      (tryCatch p.2 (handlers.map (Handler.map Prod.snd)) (final.map Prod.snd) (fault.map Prod.snd) ty tail) := by
  cases fault with
  | none => exact plainTry_twin hb hh hf ty _
  | some fault =>
    have hfault := fun tail flag => faultTry_twin hb hh hf (hu fault rfl) ty tail flag
    refine .bind_same (naming_same _) fun flag => ?_
    split
    · refine .bind_same (naming_same _) fun kept => .bind_same newline_same fun _ => ?_
      refine .putType_bind <| .put_bind ?_
      exact .bind_twin (hfault _ _) fun _ _ => .putLine_bind <| .give id
    · exact hfault _ _

end

end Pairing

end Scribe
