import Scribe.Proofs.Writing.Parallel.Statement
import Scribe.Script.Basic

/-!
# Trees, side by side

Every tree is written alike at two desks, also when some of its operations are bound late at one of them. The
one place where the layout is read is the page of a moved lambda, and it is read for nothing but the cursor
of that page.
-/

namespace Scribe

open Writing Pairing
open Text (Page)

variable {w : Pairing} {slot : Slot} {body : Piece × Piece}

namespace Pairing

/-! ## What the desks have in common -/

theorem isStatic_eq (w : Pairing) : w.right.wrapper.isStatic = w.left.wrapper.isStatic := by
  rw [w.agree]

theorem entryName_eq (w : Pairing) : w.right.wrapper.entryName = w.left.wrapper.entryName := by
  rw [w.agree]
  rfl

theorem memberLevel_eq (w : Pairing) : w.right.wrapper.memberLevel = w.left.wrapper.memberLevel := by
  rw [w.agree]
  rfl

/-! ## Lambdas -/

theorem parameter_giving (v : Variable) : w.Giving v.Written (parameter v) (parameter v) := by
  have hrest : w.Giving v.Written (do putType v.ty; put " "; putVariable v) (do putType v.ty; put " "; putVariable v) :=
    .putType_bind <| .put_bind <| putVariable_giving v
  exact .ite (.put_bind <| hrest) hrest

/-- A lambda with new parameters and a new body. -/
theorem match_lambda {sig : Signature} {params : List Variable} {s t u : Tree} (id : Ident) (name : Option String)
    (h : w.Match s t u) (hparams : List.Forall₂ Variable.Written sig.params params) :
    w.Match (.mk (.lambda sig s)) (.mk (.lambda { id, name, params, result := sig.result } t))
      (.mk (.lambda { id, name, params, result := sig.result } u)) :=
  .layer (.lambda id name (s, t, u) hparams) (by simp [Node.children, h])

theorem method_twin (id : Ident) (access name : String) (sig : Signature) (h : Twins w slot body) :
    w.Mates (.mk (.lambda sig body.1.tree)) (method id access name sig body.1)
      (method id access name sig body.2) := by
  refine .putLine_bind <| .read_bind ?_
  rw [w.isStatic_eq]
  extract_lets rest rest'
  have hrest : ∀ s, w.Mates (.mk (.lambda sig body.1.tree)) (rest s) (rest' s) := fun s =>
    .putType_bind <| .put_bind <|
    .bind_giving (bracketed_giving _ _ fun v _ => parameter_giving v) fun params =>
    .bind_twin (h.bracedBody _) fun t u => .give (match_lambda id (some name))
  exact .ite (.bind_same (put_same _) hrest) (hrest ())

theorem entryMethod_twin (sig : Signature) (h : Twins w slot body) :
    w.Mates (.mk (.lambda sig body.1.tree)) (entryMethod sig body.1) (entryMethod sig body.2) := by
  refine .read_bind ?_
  rw [w.entryName_eq]
  exact method_twin _ _ _ sig h

theorem parameterNames_giving (vs : List Variable) :
    w.Giving (List.Forall₂ Variable.Written vs) (parameterNames vs) (parameterNames vs) := by
  unfold parameterNames
  split
  · exact .bind_giving (putVariable_giving _) fun _ => .pure rfl fun hw => .cons hw .nil
  · exact bracketed_giving _ _ fun v _ => putVariable_giving v

theorem arrow_twin (sig : Signature) (h : Twins w slot body) :
    w.Mates (.mk (.lambda sig body.1.tree)) (arrow sig body.1) (arrow sig body.2) := by
  unfold arrow
  rw [h.trees.isExpression]
  refine .bind_giving (parameterNames_giving _) fun params => .put_bind ?_
  extract_lets rest
  have hrest : ∀ t u, w.Twin (fun c e => w.Match body.1.tree t u → List.Forall₂ Variable.Written sig.params params →
      w.Match (.mk (.lambda sig body.1.tree)) c e) (rest t) (rest u) :=
    fun t u => .bind_same (.modifyGet fun _ _ _ _ _ => rfl) fun turn =>
      .give (match_lambda (.inlined sig.id turn) sig.name)
  refine .ite (.bind_twin (h.operand_loosest (.inr rfl) false) hrest) ?_
  refine .bind_same openBraceHere_same fun _ => ?_
  refine .bind_twin (inFunction_twin (h.body _)) fun t u => ?_
  exact .bind_same closeBrace_same fun _ => .pure_bind (hrest t u)

theorem delegateOf_twin (sig : Signature) (h : Twins w slot body) :
    w.Mates (.mk (.lambda sig body.1.tree)) (delegateOf sig body.1) (delegateOf sig body.2) :=
  .put_bind <| .putType_bind <| .put_bind <| .bind_twin (arrow_twin sig h) fun _ _ => .put_bind <| .give id

/-- The pages of a moved lambda are alike. -/
theorem alike_onMethodPage {d₁ d₂ : Draft} (hd : Draft.Alike w d₁ d₂) :
    Draft.Alike w (d₁.onMethodPage w.left) (d₂.onMethodPage w.right) where
  page := by
    refine ⟨⟨rfl, w.memberLevel_eq.symm, rfl, rfl⟩, fun hdesk => ?_⟩
    unfold Draft.onMethodPage
    rw [hd.methods, hdesk]
  lexicon := hd.lexicon
  rest := congrArg (fun d : Draft =>
    { d with methods := d.methods ++ [""], page := (d₂.onMethodPage w.right).page }) hd.rest
  passages := hd.passages
  ranges := hd.ranges
  moved := hd.moved
  movedTo ht := hd.movedTo ⟨ht.early, ht.document, ht.passages⟩
  becomes ht := hd.becomes ⟨ht.early, ht.document, ht.passages⟩

/-- Behind the pages of a moved lambda, the drafts are alike again. -/
theorem alike_promoted {d₁ d₂ e₁ e₂ : Draft} {t u : Tree} (hd : Draft.Alike w d₁ d₂)
    (he : Draft.Alike w e₁ e₂) (source : Ident) (ht : w.Trusts e₁ e₂ → w.Respanned t u)
    (hmoved : w.Trusts e₁ e₂ → ∀ whole ∈ w.whole, whole.Moved source t) :
    Draft.Alike w (d₁.endMethod e₁ source t) (d₂.endMethod e₂ source u) where
  page := hd.page
  lexicon := he.lexicon
  rest := by
    rw [Draft.endMethod, Draft.endMethod, hd.methods, ← he.page.alike.text]
    exact congrArg (fun e : Draft =>
      { e with
        methods := e.methods.set d₁.methods.length e₁.page.text
        page := d₂.page
        promoted := (source, u) :: e₂.promoted }) he.rest
  passages := he.passages
  ranges := he.ranges
  moved id := by
    cases hid : id == source with
    | true => simp only [Draft.endMethod, List.lookup_cons, hid, Option.isSome_some]
    | false => simpa only [Draft.endMethod, List.lookup_cons, hid] using he.moved id
  movedTo htrust id a b ha hb := by
    have htrust : w.Trusts e₁ e₂ := ⟨htrust.early, htrust.document, htrust.passages⟩
    cases hid : id == source with
    | true =>
      simp only [Draft.endMethod, List.lookup_cons, hid, Option.some.injEq] at ha hb
      subst ha hb
      exact ht htrust
    | false =>
      simp only [Draft.endMethod, List.lookup_cons, hid] at ha hb
      exact he.movedTo htrust id a b ha hb
  becomes htrust whole hwhole := by
    have htrust : w.Trusts e₁ e₂ := ⟨htrust.early, htrust.document, htrust.passages⟩
    exact List.forall_mem_cons.mpr ⟨hmoved htrust whole hwhole, he.becomes htrust whole hwhole⟩

section

variable (sig : Signature) (h : Twins w slot body)
  (hmem : ∀ whole ∈ w.whole, Tree.mk (.lambda sig body.1.tree) ∈ whole.subtrees)

include h hmem

theorem promote_twin (name : String) (hcaptures : sig.captures body.1.tree = false) :
    w.Mates (.mk (.lambda sig body.1.tree)) (promote name sig body.1) (promote name sig body.2) := by
  intro d₁ d₂ hd
  rw [promote_apply, promote_apply]
  have hmethod : w.Mates (.mk (.lambda sig body.1.tree)) _ _ :=
    inFunction_twin (.bind_same newline_same fun _ => method_twin (.promoted sig.id) "private " name sig h)
  rcases hmethod _ _ (alike_onMethodPage hd) with ⟨err, h₁, h₂⟩ | ⟨t, e₁, u, e₂, h₁, h₂, _, he, hback⟩
  · rw [h₁, h₂]
    exact Or.inl ⟨err, rfl, rfl⟩
  · rw [h₁, h₂]
    refine Or.inr ⟨t, _, u, _, rfl, rfl, trivial, alike_promoted hd he sig.id ?_ ?_, fun htrust => ?_⟩
    · exact fun htrust => (hback htrust).2.respanned
    · intro htrust whole hwhole
      exact ⟨sig, body.1.tree, rfl, hcaptures, hmem whole hwhole, (hback htrust).2.becomes whole hwhole⟩
    · have hend := hback ⟨htrust.early, htrust.document, htrust.passages⟩
      exact ⟨⟨hend.1.early, hend.1.document, hend.1.passages⟩, hend.2⟩

theorem nestedLambda_twin :
    w.Mates (.mk (.lambda sig body.1.tree)) (nestedLambda sig body.1) (nestedLambda sig body.2) := by
  unfold nestedLambda
  rw [h.trees.captures]
  refine .ite_of (fun _ => delegateOf_twin sig h) fun hcaptures => ?_
  have hcaptures : sig.captures body.1.tree = false := Bool.not_eq_true _ ▸ hcaptures
  refine .bind_same (naming_same _) fun name => .put_bind ?_
  intro d₁ d₂ hd
  have hmoved := hd.moved sig.id
  simp only [bind_apply, get_apply]
  cases h₁ : d₁.promoted.lookup sig.id with
  | none =>
    rw [h₁, Option.isSome_none, eq_comm, Option.isSome_eq_false_iff, Option.isNone_iff_eq_none] at hmoved
    rw [hmoved]
    exact promote_twin sig h hmem name hcaptures d₁ d₂ hd
  | some t =>
    rw [h₁, Option.isSome_some, eq_comm, Option.isSome_iff_exists] at hmoved
    obtain ⟨u, h₂⟩ := hmoved
    rw [h₂]
    refine Or.inr ⟨t, d₁, u, d₂, rfl, rfl, trivial, hd, fun ht => ⟨ht, ?_, fun whole hwhole => ?_⟩⟩
    · exact hd.movedTo ht sig.id t u h₁ h₂
    · -- the method stands for an equal lambda that was moved earlier
      obtain ⟨_, _, hpromoted, -⟩ := List.lookup_eq_some_iff.mp h₁
      have hmember : (sig.id, t) ∈ d₁.promoted := by simp [hpromoted]
      obtain ⟨sig', body', hid, hcaptures', hmem', hu⟩ := hd.becomes ht whole hwhole _ hmember
      exact .moved hcaptures hcaptures' hid hmem' hu

end

end Pairing

/-! ## Layers -/

theorem Rendition.Twins.of_expression {s : Tree} {x y : Writing Tree} (h : w.Mates s x y) :
    (ofExpression x).Twins w s (ofExpression y) :=
  ⟨fun _ => h, .none, .none⟩

/-- When the pieces of the children are twins in their slots, the layers are written alike. -/
theorem Node.twins (z : Node (Piece × Piece)) (h : ∀ q ∈ z.slotted, Twins w q.1 q.2)
    (hmem : ∀ whole ∈ w.whole, Tree.mk (z.map (·.1.tree)) ∈ whole.subtrees) :
    (z.map Prod.fst).rendition.Twins w (.mk (z.map (·.1.tree))) (z.map Prod.snd).rendition := by
  have hany : ∀ p ∈ z.children, Twins w .delimited p := by
    rw [← z.snd_slotted, List.forall_mem_map]
    exact fun q hq => (h q hq).delimited
  have hslot {slot : Slot} {cs : List (Piece × Piece)} :
      (∀ q ∈ inSlot slot cs, Twins w q.1 q.2) ↔ ∀ c ∈ cs, Twins w slot c :=
    forall_mem_inSlot (P := Twins w)
  -- operands are twins in the slots of their operators, all other children in any slot
  cases z <;>
    simp only [Node.children, List.forall_mem_cons, List.forall_mem_append, Option.mem_toList] at hany
  case binary op l r ty =>
    simp only [Node.slotted, List.forall_mem_cons] at h
    exact .of_expression (binaryOperation_twin h.1 h.2.1 ty)
  case unary op operand ty =>
    simp only [Node.slotted, hslot, Option.mem_toList] at h
    exact .of_expression (unaryOperation_twin h ty)
  case constant value ty =>
    exact .of_expression (.bind_same (putValue_same value) fun _ => .give (.leaf rfl rfl))
  case defaultOf ty =>
    exact .of_expression (.bind_same (putDefault_same ty) fun _ => .give (.leaf rfl rfl))
  case var v =>
    refine .of_expression (.bind_giving (putVariable_giving v) fun x => .give fun hx => ?_)
    exact .layer (.var hx) (by simp [Node.children])
  case lambda sig body => exact ⟨fun _ => nestedLambda_twin sig hany.1 hmem, .none, .some (arrow_twin sig hany.1)⟩
  case invoke target args ty =>
    simp only [Node.slotted, List.forall_mem_cons, hslot] at h
    exact .of_expression (invocation_twin h.1 h.2 ty)
  case call receiver m args =>
    refine .of_expression (call_twin (fun p hp => ?_) (fun hnone => ?_) hany.2)
    · subst hp
      exact h _ List.mem_cons_self
    · subst hnone
      exact h
  case new ty args =>
    refine .of_expression (.bind_twin (creation_twin ty hany) fun _ _ => .give ?_)
    rintro ⟨ps, hsource, rfl, rfl, hps⟩
    rw [Node.map, ← hsource]
    exact .plain (.new ty ps) rfl hps
  case newArray form ty items => exact .of_expression (arrayCreation_twin form ty hany)
  case member receiver m =>
    simp only [Node.slotted, hslot, Option.mem_toList] at h
    refine .of_expression (.bind_twin (memberAccess_twin h _ _) fun _ _ => .give ?_)
    rintro ⟨o, hsource, rfl, rfl, ho⟩
    rw [Node.map, ← hsource]
    exact .plain (.member o m) rfl ho
  case memberInit ty args bs => exact .of_expression (memberInit_twin ty hany.1 hany.2)
  case listInit ty args inits => exact .of_expression (listInit_twin ty hany.1 hany.2)
  case index receiver indexer args ty =>
    simp only [Node.slotted, List.forall_mem_cons, hslot] at h
    exact .of_expression (indexAccess_twin h.1 indexer h.2 ty)
  case conditional test ifTrue ifFalse ty =>
    simp only [Node.slotted, hslot, List.forall_mem_cons] at h
    obtain ⟨ht, ha, hb, -⟩ := h
    refine ⟨fun tail => ?_, .some ⟨?_, ?_, ifStatement_twin _ ht ha hb ty⟩, .none⟩
    · dsimp only [Node.map, Node.rendition, Writing.conditional]
      rw [ha.trees.isExpression, hb.trees.isExpression]
      exact .ite (ternary_twin ht ha hb ty) (ifStatement_twin _ ht ha hb ty tail)
    · rintro _ _ _ _ ⟨⟩
      exact ht.test
    · rintro _ _ _ _ tail ⟨⟩
      exact ha.body tail
  case block vars body ty =>
    simp only [Node.slotted, hslot] at h
    exact ⟨block_twin vars h ty, .none, .none⟩
  case loop body exit again => exact ⟨loop_twin hany.1 exit again, .none, .none⟩
  case jump kind target value ty =>
    simp only [Node.slotted, hslot, Option.mem_toList] at h
    exact .of_expression (jump_twin kind target ty h hmem)
  case label target value => exact ⟨finalLabel_twin target hany hmem, .none, .none⟩
  case switch value cases fallback ty =>
    refine ⟨switch_twin hany.1.1 (fun c hc => ?_) hany.2 ty, .none, .none⟩
    have hc' := fun p hp => hany.1.2 p (List.mem_flatMap.mpr ⟨c, hc, hp⟩)
    rw [List.forall_mem_append] at hc'
    exact ⟨hc'.1, hc'.2 _ (List.mem_singleton_self _)⟩
  case tryCatch body handlers final fault ty =>
    refine ⟨tryCatch_twin hany.1.1.1 (fun k hk => ?_) hany.1.2 hany.2 ty, .none, .none⟩
    have hk' := fun p hp => hany.1.1.2 p (List.mem_flatMap.mpr ⟨k, hk, hp⟩)
    rw [List.forall_mem_append] at hk'
    exact ⟨fun p hp => hk'.1 p (Option.mem_toList.mpr hp), hk'.2 _ (List.mem_singleton_self _)⟩
  case typeTest test operand ty =>
    simp only [Node.slotted, List.forall_mem_cons] at h
    exact .of_expression (typeTest_twin h.1 ty)
  case sequencePoint document span => exact .of_expression (.give (.leaf rfl rfl))
  case varSet set =>
    exact .of_expression (.bind_same (field_same _ _ _) fun _ => .put_bind <|
      .give (.same fun _ _ => .varSet set))
  case dynamic op args ty => exact .of_expression (dynamic_twin h hany hmem)
  case extension name ty => exact .of_expression (.throw _)

/-- Where it may be, an operation that is bound late is written like the operation. -/
theorem Writing.lateBound_twin {op : BinaryOp} {token : String} {l r : Piece × Piece} (hlate : w.late)
    (htoken : (Kind.binary op).token? = some token) (hl : Twins w (.operand (.binary op) false) l)
    (hr : Twins w (.operand (.binary op) true) r) (ty : Ty) :
    w.Mates (.mk (.binary op l.1.tree r.1.tree ty)) (binaryOperation op l.1 r.1 ty)
      (dynamic (.binaryOperation (.binary op)) [l.2, r.2] ty) := by
  rw [binaryOperation_infixed htoken]
  refine .markDynamic_bind hlate ?_
  show w.Twin _ _ (dynamicArguments (.binaryOperation (.binary op)) l.2 [r.2] >>= _)
  unfold dynamicArguments
  rw [bind_assoc]
  exact .bind_twin (infixed_twin hl hr) fun _ _ => .pure_of_trust trivial fun hearly _ => absurd hlate hearly

namespace Tree.LateBinds

variable {t u : Tree}

/-- The pieces of a tree and of the same tree with operations bound late are twins. -/
theorem twins (h : t.LateBinds slot u) (hearly : ¬w.late → u = t) (hmem : ∀ whole ∈ w.whole, t ∈ whole.subtrees) :
    Twins w slot (t.piece, u.piece) := by
  induction h with
  | @layer slot z hz ih =>
    have hchildren (hnot : ¬w.late) : ∀ p ∈ z.children, p.2 = p.1 := by
      have hnode : z.map Prod.snd = z.map Prod.fst := Tree.mk.inj (hearly hnot)
      have hlists := congrArg Node.children hnode
      rw [Node.children_map, Node.children_map] at hlists
      exact List.map_inj_left.mp hlists
    have hpairs : ∀ q ∈ (z.map (Prod.map piece piece)).slotted, Twins w q.1 q.2 := by
      rw [Node.slotted_map, List.forall_mem_map]
      intro q hq
      have hchild : q.2 ∈ z.children := by
        rw [← z.snd_slotted]
        exact List.mem_map_of_mem hq
      refine ih q hq (fun hnot => hchildren hnot q.2 hchild) fun whole hwhole => mem_subtrees_child (hmem whole hwhole) ?_
      rw [Node.children_map]
      exact List.mem_map_of_mem hchild
    have hsource : (z.map (Prod.map piece piece)).map (·.1.tree) = z.map Prod.fst := Node.map_map _ _ z
    have hlayer := Node.twins _ hpairs (by rw [hsource]; exact hmem)
    rw [hsource, Node.map_map, Node.map_map] at hlayer
    rw [piece_mk, piece_mk, Node.map_map, Node.map_map]
    exact ⟨hlayer, .layer z hz, hearly, hmem⟩
  | @operation slot op token l l' r r' ty htoken hbare hl hr ihl ihr =>
    have hlate : w.late := by
      by_contra hnot
      cases hearly hnot
    rw [piece_mk, piece_mk]
    have hchild {c : Tree} (hc : c ∈ (Node.binary op l r ty).children) : ∀ whole ∈ w.whole, c ∈ whole.subtrees :=
      fun whole hwhole => mem_subtrees_child (hmem whole hwhole) hc
    refine ⟨.of_expression ?_, .operation ty htoken hbare hl hr, hearly, hmem⟩
    exact lateBound_twin hlate htoken (ihl (absurd hlate) (hchild (by simp [Node.children])))
      (ihr (absurd hlate) (hchild (by simp [Node.children]))) ty

/-- **A tree is written alike at two desks**, and so is the same tree with operations bound late. -/
theorem writeRoot_twin (h : t.LateBinds slot u) (hearly : ¬w.late → u = t)
    (hmem : ∀ whole ∈ w.whole, t ∈ whole.subtrees) : w.Mates t t.writeRoot u.writeRoot := by
  have hinline : w.Mates t t.piece.inline u.piece.inline := (h.twins hearly hmem).write _
  cases h with
  | layer z hz =>
    cases z
    case lambda sig body =>
      have hbody : Twins w .delimited (body.1.piece, body.2.piece) := by
        refine (hz (.delimited, body) ?_).twins (fun hnot => ?_) fun whole hwhole => ?_
        · simp [Node.slotted, inSlot, Node.children]
        · injection hearly hnot with hnode
          injection hnode
        · exact mem_subtrees_child (hmem whole hwhole) (List.mem_singleton_self _)
      have hentry := entryMethod_twin sig hbody
      exact hentry
    all_goals exact hinline
  | operation ty htoken hbare hl hr => exact hinline

end Tree.LateBinds

/-! ## A run next to itself -/

/-- A run next to itself, for what becomes of the parts of a tree. -/
def Pairing.itself (desk : Desk) (whole : Tree) : Pairing where
  left := desk
  right := desk
  agree := desk.agrees
  pt _ _ := True
  late := False
  whole := some whole

theorem Pairing.alike_itself {desk : Desk} {whole : Tree} {d : Draft} (hd : ∀ m ∈ d.promoted, whole.Moved m.1 m.2) :
    Draft.Alike (.itself desk whole) d d where
  page := ⟨⟨rfl, rfl, rfl, rfl⟩, fun _ => rfl⟩
  lexicon := ⟨rfl, fun _ => rfl⟩
  rest := rfl
  passages _ := rfl
  ranges _ := rfl
  moved _ := rfl
  movedTo _ _ _ _ ht hu := by
    cases ht.symm.trans hu
    exact .refl _
  becomes _ := by
    rintro _ ⟨⟩
    exact hd

/-- A run that is alike with itself gives what the tree may become, and moves parts of `whole` only. -/
theorem Pairing.becomes_of_twin {desk : Desk} {whole s u : Tree} {x : Writing Tree} {d e : Draft}
    (h : (itself desk whole).Twin ((itself desk whole).Match s) x x) (hx : x desk d = .ok (u, e))
    (hd : ∀ m ∈ d.promoted, whole.Moved m.1 m.2) : whole.Becomes s u ∧ ∀ m ∈ e.promoted, whole.Moved m.1 m.2 := by
  rcases h d d (alike_itself hd) with ⟨err, herr, -⟩ | ⟨u₁, e₁, u₂, e₂, h₁, h₂, -, he, hback⟩
  · cases hx.symm.trans herr
  · cases hx.symm.trans h₁
    cases hx.symm.trans h₂
    have htrust : (itself desk whole).Trusts e e := ⟨id, rfl, fun _ _ => trivial⟩
    exact ⟨(hback htrust).2.becomes whole rfl, he.becomes htrust whole rfl⟩

/-- **A tree is written as what it may become.** -/
theorem Tree.becomes_of_writeRoot {desk : Desk} {t u : Tree} {d e : Draft} (h : t.writeRoot desk d = .ok (u, e))
    (hd : ∀ m ∈ d.promoted, t.Moved m.1 m.2) : t.Becomes t u ∧ ∀ m ∈ e.promoted, t.Moved m.1 m.2 := by
  refine becomes_of_twin ((LateBinds.refl .delimited t).writeRoot_twin (fun _ => rfl) ?_) h hd
  rintro _ ⟨⟩
  exact t.mem_subtrees_self

end Scribe
