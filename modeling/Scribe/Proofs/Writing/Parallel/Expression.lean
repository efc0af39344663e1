import Scribe.Proofs.Tree.LateBinding
import Scribe.Proofs.Writing.Parallel.Primitive
import Scribe.Writing.Access
import Scribe.Writing.Constant
import Scribe.Writing.LateBound

/-!
# Expressions, side by side

Two pieces are *twins* when they are written alike, and the tree on the right is that on the left with some operations
bound late. When the pieces of a node are twins in their slots, the node is written alike in both runs. What is written
is compared with the tree of the piece on the left.
-/

namespace Scribe

open Writing Pairing

variable {w : Pairing} {slot : Slot} {p l r : Piece × Piece} {args : List (Piece × Piece)} {parent : Kind}
  {receiver : Option (Piece × Piece)}

/-- The parts of two conditionals are written alike. -/
structure Branches.Twins (w : Pairing) (s : Tree) (b b' : Branches) : Prop where
  test {t a c : Tree} {ty : Ty} : s = .mk (.conditional t a c ty) → w.Mates t b.test b'.test
  whenTrue {t a c : Tree} {ty : Ty} (tail : Tail) : s = .mk (.conditional t a c ty) →
    w.Mates a (b.whenTrue tail) (b'.whenTrue tail)
  elseIf (tail : Tail) : w.Mates s (b.elseIf tail) (b'.elseIf tail)

/-- Two ways of writing the tree `s` are alike in everything. -/
structure Rendition.Twins (w : Pairing) (s : Tree) (r r' : Rendition) : Prop where
  write (tail : Tail) : w.Mates s (r.write tail) (r'.write tail)
  branches : Option.Rel (Branches.Twins w s) r.branches r'.branches
  quoted : Option.Rel (w.Mates s) r.quoted r'.quoted

/-- Two pieces are written alike, and their trees differ only where operations may be bound late. -/
structure Twins (w : Pairing) (slot : Slot) (p : Piece × Piece) : Prop extends p.1.2.Twins w p.1.tree p.2.2 where
  trees : p.1.tree.LateBinds slot p.2.tree
  early : ¬w.late → p.2.tree = p.1.tree
  mem : ∀ whole ∈ w.whole, p.1.tree ∈ whole.subtrees

namespace Twins

theorem delimited (h : Twins w slot p) : Twins w .delimited p :=
  { h with trees := h.trees.delimited }

/-- A tree that is not written corresponds to itself. -/
theorem asIs (h : Twins w slot p) (hearly : ¬w.late) (hcopy : ∀ whole ∈ w.whole, whole.Becomes p.1.tree p.1.tree) :
    w.Match p.1.tree p.1.tree p.2.tree := by
  rw [h.early hearly]
  exact .same hcopy

theorem allAsIs {ps : List (Piece × Piece)} (h : ∀ p ∈ ps, Twins w slot p) (hearly : ¬w.late)
    (hcopy : ∀ whole ∈ w.whole, ∀ t ∈ ps.map (·.1.tree), whole.Becomes t t) :
    TripledTrees w.Match (ps.map (·.1.tree)) ((ps.map Prod.fst).map (·.tree)) ((ps.map Prod.snd).map (·.tree)) := by
  induction ps with
  | nil => exact .nil
  | cons p ps ih =>
    rw [List.forall_mem_cons] at h
    refine .cons (h.1.asIs hearly fun whole hwhole => ?_) (ih h.2 fun whole hwhole t ht => ?_)
    · exact hcopy whole hwhole _ List.mem_cons_self
    · exact hcopy whole hwhole t (List.mem_cons_of_mem _ ht)

/-! ## Operands -/

theorem closure (h : Twins w slot p) : w.Mates p.1.tree p.1.closure p.2.closure := by
  unfold Piece.closure
  rw [h.trees.ty]
  exact .put_bind <| .putType_bind <| .put_bind <|
    .bind_same openBraceHere_same fun _ => .bind_twin (inFunction_twin (h.write _)) fun _ _ =>
    .bind_same closeBrace_same fun _ => .put_bind <| .give id

theorem value (h : Twins w slot p) : w.Mates p.1.tree p.1.value p.2.value := by
  unfold Piece.value
  rw [h.trees.isExpression]
  exact .ite (h.write _) h.closure

theorem inParens (h : Twins w slot p) : w.Mates p.1.tree p.1.inParens p.2.inParens :=
  .put_bind <| .bind_twin h.value fun _ _ => .put_bind <| .give id

/-- An operand is written alike in every slot in which both trees are grouped or none. -/
theorem operand_of_groups (h : Twins w slot p) {isRight : Bool}
    (hgroups : parent.groups p.2.tree.precedence isRight = parent.groups p.1.tree.precedence isRight) :
    w.Mates p.1.tree (p.1.operand parent isRight) (p.2.operand parent isRight) := by
  unfold Piece.operand
  rw [h.trees.isExpression, hgroups]
  exact .ite h.inParens h.value

theorem operand {isRight : Bool} (h : Twins w (.operand parent isRight) p) :
    w.Mates p.1.tree (p.1.operand parent isRight) (p.2.operand parent isRight) :=
  h.operand_of_groups h.trees.groups

/-- Behind an assignment and behind an arrow the slot does not matter. -/
theorem operand_loosest (hparent : parent = .binary .assign ∨ parent = .unary .quote) (h : Twins w slot p)
    (isRight : Bool) : w.Mates p.1.tree (p.1.operand parent isRight) (p.2.operand parent isRight) :=
  h.operand_of_groups ((Tree.groups_loosest hparent _ _).trans (Tree.groups_loosest hparent _ _).symm)

end Twins

namespace Pairing

theorem arguments_twin (left right : String) (h : ∀ p ∈ args, Twins w .delimited p) :
    w.Twin (TripledTrees w.Match (args.map (·.1.tree))) (arguments left right (args.map Prod.fst))
      (arguments left right (args.map Prod.snd)) := by
  unfold arguments
  rw [List.map_map, List.map_map]
  exact .weaken (fun _ => trivial) .of_forall₃ (bracketed_alike (forall₃_alike fun p hp => (h p hp).value) left right)

/-! ## Operators -/

/-- Two trees at once. -/
abbrev MatchBoth (w : Pairing) (l r : Piece × Piece) (a b : Tree × Tree) : Prop :=
  w.Match l.1.tree a.1 b.1 ∧ w.Match r.1.tree a.2 b.2

theorem tokenOf_same (kind : Kind) : w.Same (tokenOf kind) (tokenOf kind) := by
  unfold tokenOf
  split
  · exact .pure rfl trivial
  · exact .throw _

theorem infixed_twin {kind : Kind} (hl : Twins w (.operand kind false) l) (hr : Twins w (.operand kind true) r) :
    w.Twin (w.MatchBoth l r) (infixed kind l.1 r.1) (infixed kind l.2 r.2) :=
  .bind_same (tokenOf_same kind) fun _ => .bind_twin hl.operand fun _ _ =>
    .put_bind <| .bind_twin hr.operand fun _ _ => .give fun hr hl => ⟨hl, hr⟩

theorem powerCall_twin {left right : Slot} (hl : Twins w left l) (hr : Twins w right r) :
    w.Twin (w.MatchBoth l r) (powerCall l.1 r.1) (powerCall l.2 r.2) :=
  .putType_bind <| .put_bind <| .bind_twin hl.value fun _ _ => .put_bind <|
    .bind_twin hr.value fun _ _ => .put_bind <|
    .give fun hr hl => ⟨hl, hr⟩

theorem binaryOperation_twin {op : BinaryOp} (hl : Twins w op.slots.1 l) (hr : Twins w op.slots.2 r) (ty : Ty) :
    w.Mates (.mk (.binary op l.1.tree r.1.tree ty)) (binaryOperation op l.1 r.1 ty)
      (binaryOperation op l.2 r.2 ty) := by
  have hwhole : ∀ a b : Tree × Tree, w.MatchBoth l r a b →
      w.Match (.mk (.binary op l.1.tree r.1.tree ty)) (.mk (.binary op a.1 a.2 ty)) (.mk (.binary op b.1 b.2 ty)) :=
    fun a b h => .plain (.binary op (l.1.tree, a.1, b.1) (r.1.tree, a.2, b.2) ty) rfl
      (by simp [Node.children, h.1, h.2])
  cases op
  case arrayIndex =>
    refine .bind_twin hl.operand fun a a' => .put_bind ?_
    refine .bind_twin hr.value fun b b' => .put_bind <| .pure_bind ?_
    exact .give fun hb ha => hwhole (a, b) (a', b') ⟨ha, hb⟩
  case power => exact .bind_twin (powerCall_twin hl hr) fun a b => .give (hwhole a b)
  case powerAssign =>
    refine .bind_twin hl.operand fun _ _ => .put_bind ?_
    exact .bind_twin (powerCall_twin hl hr) fun a b => .give fun h _ => hwhole a b h
  all_goals exact .bind_twin (infixed_twin hl hr) fun a b => .give (hwhole a b)

theorem affixed_twin {kind : Kind} (h : Twins w (.operand kind false) p) :
    w.Mates p.1.tree (affixed kind p.1) (affixed kind p.2) := by
  unfold affixed
  rw [h.trees.ty]
  exact .put_bind <| .bind_twin h.operand fun _ _ => .put_bind <| .give id

theorem putOpening_same (op : UnaryOp) (ty : Ty) : w.Same (putOpening op ty) (putOpening op ty) := by
  have hcast : w.Same (do put "("; putType ty; put ")") (do put "("; putType ty; put ")") :=
    .put_bind <| .putType_bind <| put_same _
  unfold putOpening
  split
  · exact hcast
  · exact hcast
  · exact hcast
  · exact put_same _
  · exact .pure rfl trivial

theorem unaryOperation_twin {op : UnaryOp} {operand : Option (Piece × Piece)}
    (h : ∀ p ∈ operand, Twins w (.operand (.unary op) false) p) (ty : Ty) :
    w.Mates (.mk (.unary op (operand.map (·.1.tree)) ty)) (unaryOperation op (operand.map Prod.fst) ty)
      (unaryOperation op (operand.map Prod.snd) ty) := by
  cases operand with
  | none =>
    cases op with
    | throw => exact .put_bind <| .give (.leaf rfl rfl)
    | _ => exact .throw _
  | some p =>
    have hp := h p rfl
    have hwhole : ∀ t u, w.Match p.1.tree t u →
        w.Match (.mk (.unary op (some p.1.tree) ty)) (.mk (.unary op (some t) ty)) (.mk (.unary op (some u) ty)) :=
      fun t u h => .plain (.unary op (some (p.1.tree, t, u)) ty) rfl (by simp [Node.children, h])
    have hquoted : w.Mates p.1.tree (p.1.2.quoted.getD (affixed (.unary op) p.1))
        (p.2.2.quoted.getD (affixed (.unary op) p.2)) := by
      have hrel := hp.quoted
      generalize p.1.2.quoted = q, p.2.2.quoted = q' at hrel
      cases hrel with
      | some hq => exact hq
      | none => exact affixed_twin hp
    rw [Option.map_some, Option.map_some, Option.map_some, unaryOperation_some, unaryOperation_some]
    refine .bind_same (putOpening_same op ty) fun _ => ?_
    extract_lets rest
    have hrest : ∀ t u, w.Twin (fun c e => w.Match p.1.tree t u → w.Match (.mk (.unary op (some p.1.tree) ty)) c e)
        (rest t) (rest u) := by
      refine fun t u => .ite ?_ (.give (hwhole t u))
      exact .put_bind <| .putType_bind <| .give (hwhole t u)
    exact .ite (.bind_twin hquoted hrest) (.bind_twin (affixed_twin hp) hrest)

theorem typeTest_twin {test : TypeTest} (h : Twins w test.slot p) (ty : Ty) :
    w.Mates (.mk (.typeTest test p.1.tree ty)) (typeTest test p.1 ty) (typeTest test p.2 ty) := by
  have hwhole : ∀ t u, w.Match p.1.tree t u →
      w.Match (.mk (.typeTest test p.1.tree ty)) (.mk (.typeTest test t ty)) (.mk (.typeTest test u ty)) :=
    fun t u h => .plain (.typeTest test (p.1.tree, t, u) ty) rfl (by simp [Node.children, h])
  cases test with
  | is =>
    exact .bind_twin h.operand fun t u => .put_bind <| .putType_bind <| .pure_bind (.give (hwhole t u))
  | equal =>
    unfold typeTest
    rw [h.trees.ty]
    exact .bind_twin h.operand fun t u => .put_bind <| .putType_bind <| .put_bind <|
      .pure_bind (.give (hwhole t u))

/-! ## Constants -/

theorem text_same (v : Value) : w.Same v.text v.text := by
  unfold Value.text
  split
  case h_16 => exact .bind_same (spell_same _) fun _ => .pure rfl trivial
  case h_17 => exact .bind_same (spell_same _) fun _ => .pure rfl trivial
  case h_18 => exact field_same _ _ _
  all_goals exact .pure rfl trivial

theorem putValue_same (v : Value) : w.Same (putValue v) (putValue v) :=
  .bind_same (text_same v) fun text => put_same text

/-! ## Members and calls -/

theorem memberAccess_twin
    (h : ∀ p ∈ receiver, Twins w (.operand (.shape .memberAccess) false) p) (owner : Ty) (name : String) :
    w.Twin (TripledTree? w.Match (receiver.map (·.1.tree))) (memberAccess (receiver.map Prod.fst) owner name)
      (memberAccess (receiver.map Prod.snd) owner name) := by
  cases receiver with
  | none =>
    exact .putType_bind <| .pure_bind <| .put_bind <| .put_bind <| .give .none
  | some p =>
    exact .bind_twin (h p rfl).operand fun _ _ => .pure_bind <| .put_bind <| .put_bind <| .give .some

theorem indexAccess_twin (hp : Twins w (.operand (.shape .index) false) p) (indexer : Option Member)
    (h : ∀ p ∈ args, Twins w .delimited p) (ty : Ty) :
    w.Mates (.mk (.index p.1.tree indexer (args.map (·.1.tree)) ty))
      (indexAccess p.1 indexer (args.map Prod.fst) ty) (indexAccess p.2 indexer (args.map Prod.snd) ty) := by
  unfold indexAccess
  extract_lets rest rest'
  have hrest : ∀ t u, w.Twin (fun c e => w.Match p.1.tree t u →
      w.Match (.mk (.index p.1.tree indexer (args.map (·.1.tree)) ty)) c e) (rest t) (rest' u) := by
    refine fun t u => .bind_twin (arguments_twin _ _ h) fun _ _ => .give ?_
    rintro ⟨ps, hsource, rfl, rfl, hps⟩ ht
    rw [← hsource]
    exact .plain (.index (p.1.tree, t, u) indexer ps ty) rfl (List.forall_mem_cons.mpr ⟨ht, hps⟩)
  split
  · -- a named indexer and a bare one treat their receiver alike
    have hoperand : w.Mates p.1.tree (p.1.operand (.shape .memberAccess)) (p.2.operand (.shape .memberAccess)) :=
      hp.operand
    exact .bind_twin hoperand fun t u => .put_bind <| .put_bind <| .pure_bind (hrest t u)
  · exact .bind_twin hp.operand hrest

theorem invocation_twin (hp : Twins w (.operand (.shape .invoke) false) p) (h : ∀ p ∈ args, Twins w .delimited p)
    (ty : Ty) : w.Mates (.mk (.invoke p.1.tree (args.map (·.1.tree)) ty))
      (invocation p.1 (args.map Prod.fst) ty) (invocation p.2 (args.map Prod.snd) ty) := by
  unfold invocation
  extract_lets isMade rest isMade' rest'
  have hmade : isMade' = isMade := hp.trees.isMade
  have hrest : ∀ t u, w.Twin (fun c e => w.Match p.1.tree t u →
      w.Match (.mk (.invoke p.1.tree (args.map (·.1.tree)) ty)) c e) (rest t) (rest' u) := by
    refine fun t u => .bind_twin (arguments_twin _ _ h) fun _ _ => .give ?_
    rintro ⟨ps, hsource, rfl, rfl, hps⟩ ht
    rw [← hsource]
    exact .plain (.invoke (p.1.tree, t, u) ps ty) rfl (List.forall_mem_cons.mpr ⟨ht, hps⟩)
  rw [hmade]
  exact .ite (.bind_twin hp.inParens hrest) (.bind_twin hp.operand hrest)

theorem methodField_same (m : Method) : w.Same (methodField m) (methodField m) :=
  .ite (.throw _) (.ite (.throw _) (field_same _ _ _))

theorem putGenerics_same (tys : List Ty) : w.Same (putGenerics tys) (putGenerics tys) :=
  .ite (.pure rfl trivial) (.bind_giving (mapM_giving (P := fun _ _ => True) fun ty _ => spell_same ty)
    fun _ => .weaken id (fun _ _ => trivial) (put_same _))

/-- Two starts of a call leave twins to be written, and the same besides. -/
inductive SameStart (w : Pairing) : CallStart → CallStart → Prop where
  | intro {receiver receiver' : Option Tree} {first first' : List Tree} {args : List (Piece × Piece)}
    (params : List MethodParam) (unnamed : Bool) : (∀ p ∈ args, Twins w .delimited p) →
    SameStart w ⟨receiver, first, args.map Prod.fst, params, unnamed⟩
      ⟨receiver', first', args.map Prod.snd, params, unnamed⟩

/-- What two starts of a call have written corresponds: the receiver, and some of the first arguments. -/
structure MatchStart (w : Pairing) (receiver : Option Tree) (args : List Tree) (a b : CallStart) : Prop where
  receiver : TripledTree? w.Match receiver a.receiver b.receiver
  first : ∃ first, args = first ++ a.args.map (·.tree) ∧ TripledTrees w.Match first a.first b.first

theorem callStart_alike
    (hr : ∀ p ∈ receiver, Twins w (.operand (.shape .call) false) p) {m : Method}
    (hfirst : receiver = none → ∀ q ∈ ledFrom m.firstSlot args, Twins w q.1 q.2)
    (h : ∀ p ∈ args, Twins w .delimited p) :
    w.Alike w.SameStart (w.MatchStart (receiver.map (·.1.tree)) (args.map (·.1.tree)))
      (callStart (receiver.map Prod.fst) m (args.map Prod.fst))
      (callStart (receiver.map Prod.snd) m (args.map Prod.snd)) := by
  have hall (args : List (Piece × Piece)) : args.map (·.1.tree) = (args.map Prod.fst).map (·.tree) := List.map_map.symm
  -- the first operand of the call is the receiver, or the first argument of an extension
  cases receiver with
  | some p =>
    refine .bind_twin (hr p rfl).operand fun _ _ => ?_
    exact .pure (.intro m.params true h) fun ht => ⟨.some ht, [], hall args, .nil⟩
  | none =>
    unfold callStart
    by_cases hname : (!m.isNameable) = true
    · rw [if_pos hname, if_pos hname]
      refine .bind_same (methodField_same m) fun _ => .put_bind ?_
      exact .put_bind <| .pure (.intro m.params false h) ⟨.none, [], hall args, .nil⟩
    · rw [if_neg hname, if_neg hname]
      have htype {args : List (Piece × Piece)} (h : ∀ p ∈ args, Twins w .delimited p) :
          w.Alike w.SameStart (w.MatchStart none (args.map (·.1.tree)))
            (do putType m.owner; pure { args := args.map Prod.fst, params := m.params })
            (do putType m.owner; pure { args := args.map Prod.snd, params := m.params }) :=
        .putType_bind <| .pure (.intro m.params true h) ⟨.none, [], hall args, .nil⟩
      cases hext : m.isExtension with
      | false => exact htype h
      | true =>
        cases args with
        | nil => exact htype h
        | cons first rest =>
          have hslot : m.firstSlot = .operand (.shape .call) false := by
            simp only [Bool.not_eq_true', Bool.not_eq_false] at hname
            simp [Method.firstSlot, hname, hext]
          have hoperand : Twins w (.operand (.shape .call) false) first := hslot ▸ hfirst rfl _ List.mem_cons_self
          rw [List.forall_mem_cons] at h
          refine .bind_same (spell_same _) fun _ => .bind_twin hoperand.operand fun _ _ => ?_
          exact .pure (.intro (m.params.drop 1) true h.2) fun ht =>
            ⟨.none, [first.1.tree], congrArg (first.1.tree :: ·) (hall rest), .cons ht .nil⟩

theorem modifiedArguments_twin (params : List MethodParam) (h : ∀ p ∈ args, Twins w .delimited p) :
    Forall₃ (fun p => w.Mates p.1.tree) args (modifiedArguments (args.map Prod.fst) params)
      (modifiedArguments (args.map Prod.snd) params) := by
  induction args generalizing params with
  | nil => exact .nil
  | cons arg args ih =>
    rw [List.forall_mem_cons] at h
    cases params with
    | nil => exact .cons h.1.value (ih [] h.2)
    | cons p ps => exact .cons (.put_bind <| h.1.value) (ih ps h.2)

theorem match_call {a b : CallStart} {receiver : Option Tree} {ss ts us : List Tree} (m : Method)
    (hargs : a.args = args.map Prod.fst) (h : TripledTrees w.Match (args.map (·.1.tree)) ts us)
    (hs : w.MatchStart receiver ss a b) :
    w.Match (.mk (.call receiver m ss)) (.mk (.call a.receiver m (a.first ++ ts)))
      (.mk (.call b.receiver m (b.first ++ us))) := by
  obtain ⟨r, hr, hr₁, hr₂, hreceiver⟩ := hs.receiver
  obtain ⟨first, hfirst, hwritten⟩ := hs.first
  obtain ⟨ps, hp, hp₁, hp₂, hall⟩ := hwritten.append h
  rw [hargs, List.map_map] at hfirst
  have hsource : ss = ps.map (·.1) := hfirst.trans hp.symm
  rw [← hr, ← hr₁, ← hr₂, ← hp₁, ← hp₂, hsource]
  exact .plain (.call r m ps) rfl (List.forall_mem_append.mpr ⟨hreceiver, hall⟩)

theorem call_twin
    (hr : ∀ p ∈ receiver, Twins w (.operand (.shape .call) false) p) {m : Method}
    (hfirst : receiver = none → ∀ q ∈ ledFrom m.firstSlot args, Twins w q.1 q.2)
    (h : ∀ p ∈ args, Twins w .delimited p) :
    w.Mates (.mk (.call (receiver.map (·.1.tree)) m (args.map (·.1.tree))))
      (call (receiver.map Prod.fst) m (args.map Prod.fst)) (call (receiver.map Prod.snd) m (args.map Prod.snd)) := by
  refine .bind (callStart_alike hr hfirst h) fun a b hab => ?_
  cases hab with
  | @intro _ _ _ _ rest params unnamed hrest =>
    have hitems : w.Twin (TripledTrees w.Match (rest.map (·.1.tree))) _ _ :=
      .weaken (fun _ => trivial) .of_forall₃ (bracketed_alike (modifiedArguments_twin params hrest) "(" ")")
    refine .ite ?_ (.ite ?_ ?_)
    · exact .bind_twin (arguments_twin _ _ hrest) fun _ _ => .give (match_call m rfl)
    · refine .put_bind <| .put_bind <| .bind_same (putGenerics_same _) fun _ => ?_
      exact .bind_twin hitems fun _ _ => .give (match_call m rfl)
    · exact .bind_twin hitems fun _ _ => .give (match_call m rfl)

/-! ## New objects -/

theorem creation_twin (ty : Ty) (h : ∀ p ∈ args, Twins w .delimited p) :
    w.Twin (TripledTrees w.Match (args.map (·.1.tree))) (creation ty (args.map Prod.fst))
      (creation ty (args.map Prod.snd)) :=
  .put_bind <| .putType_bind <| arguments_twin _ _ h

theorem match_newArray (form : ArrayForm) (ty : Ty) {ss ts us : List Tree} (h : TripledTrees w.Match ss ts us) :
    w.Match (.mk (.newArray form ty ss)) (.mk (.newArray form ty ts)) (.mk (.newArray form ty us)) := by
  obtain ⟨ps, rfl, rfl, rfl, hps⟩ := h
  exact .plain (.newArray form ty ps) rfl hps

theorem arrayCreation_twin (form : ArrayForm) (ty : Ty) (h : ∀ p ∈ args, Twins w .delimited p) :
    w.Mates (.mk (.newArray form ty (args.map (·.1.tree)))) (arrayCreation form ty (args.map Prod.fst))
      (arrayCreation form ty (args.map Prod.snd)) := by
  unfold arrayCreation
  split
  · refine .put_bind ?_
    split
    exact .putType_bind <| .bind_twin (arguments_twin _ _ h) fun _ _ =>
      .put_bind <| .pure_bind (.give (match_newArray _ ty))
  · refine .put_bind <| .putType_bind ?_
    rw [List.map_map, List.map_map]
    exact .bind_twin (.weaken (fun _ => trivial) .of_forall₃
      (braced_alike (forall₃_alike fun p hp => (h p hp).value) 4)) fun _ _ => .give (match_newArray _ ty)

theorem element_twin (h : ∀ p ∈ args, Twins w .delimited p) :
    w.Twin (TripledTrees w.Match (args.map (·.1.tree))) (element (args.map Prod.fst)) (element (args.map Prod.snd)) := by
  have hargs := arguments_twin "\x7b" "\x7d" h
  match args with
  | [] => exact hargs
  | [arg] => exact .bind_twin (h arg (by simp)).value fun _ _ => .give fun ht => .cons ht .nil
  | _ :: _ :: _ => exact hargs

/-- Lists of arguments, related one by one. -/
abbrev MatchLists (w : Pairing) : List (List Tree) → List (List Tree) → List (List Tree) → Prop :=
  Tripled w.Match (fun f => List.map (List.map f)) (List.flatMap id)

theorem elements_twin {inits : List (List (Piece × Piece))} (h : ∀ p ∈ inits.flatten, Twins w .delimited p)
    (limit : Nat) :
    w.Twin (w.MatchLists (inits.map (List.map (·.1.tree)))) (braced limit ((inits.map (List.map Prod.fst)).map element))
      (braced limit ((inits.map (List.map Prod.snd)).map element)) := by
  have hitems : ∀ args ∈ inits, w.Twin (TripledTrees w.Match (args.map (·.1.tree))) (element (args.map Prod.fst))
      (element (args.map Prod.snd)) :=
    fun args hargs => element_twin fun p hp => h p (List.mem_flatten.mpr ⟨args, hargs, hp⟩)
  rw [List.map_map, List.map_map]
  exact .weaken (fun _ => trivial) .of_forall₃ (braced_alike (forall₃_alike hitems) limit)

/-- Bindings of the same form. -/
abbrev MatchBinding (w : Pairing) : Binding Tree → Binding Tree → Binding Tree → Prop :=
  Tripled w.Match Binding.map Binding.children

/-- Bindings of the same form, one by one. -/
abbrev MatchBindings (w : Pairing) : List (Binding Tree) → List (Binding Tree) → List (Binding Tree) → Prop :=
  Tripled w.Match Binding.mapAll Binding.childrenAll

theorem bracedBindings_twin {bs : List (Binding (Piece × Piece))} {xs ys : List (Writing (Binding Tree))}
    (h : Forall₃ (fun b => w.Twin (w.MatchBinding (b.map (·.1.tree)))) bs xs ys) (limit : Nat) :
    w.Twin (w.MatchBindings (Binding.mapAll (·.1.tree) bs)) (braced limit xs) (braced limit ys) := by
  refine .weaken (fun _ => trivial) (fun hbs => ?_) (braced_alike h limit)
  obtain ⟨cs, hsource, rfl, rfl, hcs⟩ := Tripled.of_forall₃ hbs
  refine ⟨cs, ?_, Binding.mapAll_eq _ cs, Binding.mapAll_eq _ cs, ?_⟩
  · rw [Binding.mapAll_eq, Binding.mapAll_eq]
    exact hsource
  · rw [Binding.childrenAll_eq]
    exact hcs

mutual

theorem binding_twin : ∀ b : Binding (Piece × Piece), (∀ p ∈ b.children, Twins w .delimited p) →
    w.Twin (w.MatchBinding (b.map (·.1.tree))) (binding (b.map Prod.fst)) (binding (b.map Prod.snd))
  | .assign m p, h => by
    rw [Binding.map, Binding.map, Binding.map, binding, binding]
    refine .put_bind <| .put_bind ?_
    refine .bind_twin (h p (by simp [Binding.children])).value fun t u => ?_
    exact .give fun ht => ⟨.assign m (p.1.tree, t, u), rfl, rfl, rfl, by simp [Binding.children, ht]⟩
  | .elements m inits, h => by
    rw [Binding.children] at h
    rw [Binding.map, Binding.map, Binding.map, binding, binding]
    refine .put_bind <| .put_bind ?_
    refine .bind_twin (elements_twin h 4) fun _ _ => .give ?_
    rintro ⟨c, hsource, rfl, rfl, hc⟩
    refine ⟨.elements m c, ?_, by rw [Binding.map], by rw [Binding.map], ?_⟩
    · rw [Binding.map, ← hsource]
    · rw [Binding.children, List.flatten_eq_flatMap]
      exact hc
  | .nested m bs, h => by
    rw [Binding.children] at h
    rw [Binding.map, Binding.map, Binding.map, binding, binding]
    refine .put_bind <| .put_bind ?_
    refine .bind_twin (bracedBindings_twin (bindings_twin bs h) 1) fun _ _ => .give ?_
    rintro ⟨c, hsource, rfl, rfl, hc⟩
    refine ⟨.nested m c, ?_, by rw [Binding.map], by rw [Binding.map], ?_⟩
    · rw [Binding.map, ← hsource]
    · rw [Binding.children]
      exact hc

theorem bindings_twin : ∀ bs : List (Binding (Piece × Piece)), (∀ p ∈ Binding.childrenAll bs, Twins w .delimited p) →
    Forall₃ (fun b => w.Twin (w.MatchBinding (b.map (·.1.tree)))) bs (bindings (Binding.mapAll Prod.fst bs))
      (bindings (Binding.mapAll Prod.snd bs))
  | [], _ => .nil
  | b :: bs, h => by
    rw [Binding.childrenAll, List.forall_mem_append] at h
    exact .cons (binding_twin b h.1) (bindings_twin bs h.2)

end

theorem memberInit_twin (ty : Ty) {bs : List (Binding (Piece × Piece))} (h : ∀ p ∈ args, Twins w .delimited p)
    (hb : ∀ p ∈ Binding.childrenAll bs, Twins w .delimited p) :
    w.Mates (.mk (.memberInit ty (args.map (·.1.tree)) (Binding.mapAll (·.1.tree) bs)))
      (memberInit ty (args.map Prod.fst) (Binding.mapAll Prod.fst bs))
      (memberInit ty (args.map Prod.snd) (Binding.mapAll Prod.snd bs)) := by
  refine .bind_twin (creation_twin ty h) fun _ _ => ?_
  refine .bind_twin (bracedBindings_twin (bindings_twin bs hb) 1) fun _ _ => .give ?_
  rintro ⟨cs, hbs, rfl, rfl, hcs⟩ ⟨ps, hargs, rfl, rfl, hps⟩
  rw [← hbs, ← hargs]
  exact .plain (.memberInit ty ps cs) rfl (List.forall_mem_append.mpr ⟨hps, hcs⟩)

theorem listInit_twin (ty : Ty) {inits : List (List (Piece × Piece))} (h : ∀ p ∈ args, Twins w .delimited p)
    (hi : ∀ p ∈ inits.flatten, Twins w .delimited p) :
    w.Mates (.mk (.listInit ty (args.map (·.1.tree)) (inits.map (List.map (·.1.tree)))))
      (listInit ty (args.map Prod.fst) (inits.map (List.map Prod.fst)))
      (listInit ty (args.map Prod.snd) (inits.map (List.map Prod.snd))) := by
  refine .bind_twin (creation_twin ty h) fun _ _ => ?_
  refine .bind_twin (elements_twin hi 4) fun _ _ => .give ?_
  rintro ⟨cs, hinits, rfl, rfl, hcs⟩ ⟨ps, hargs, rfl, rfl, hps⟩
  rw [← hinits, ← hargs]
  refine .plain (.listInit ty ps cs) rfl (List.forall_mem_append.mpr ⟨hps, ?_⟩)
  rw [List.flatten_eq_flatMap]
  exact hcs

/-! ## Late-bound operations -/

theorem dynamicArguments_twin {op : LateBound} {rest : List (Piece × Piece)} (hp : Twins w op.slots.1 p)
    (hnext : ∀ q ∈ ledFrom op.slots.2 rest, Twins w q.1 q.2) (h : ∀ p ∈ rest, Twins w .delimited p)
    (hcopy : ∀ whole ∈ w.whole, ∀ t ∈ op.unread (p.1.tree :: rest.map (·.1.tree)), whole.Becomes t t) :
    w.Twin (TripledTrees w.Match (p.1.tree :: rest.map (·.1.tree))) (dynamicArguments op p.1 (rest.map Prod.fst))
      (dynamicArguments op p.2 (rest.map Prod.snd)) := by
  -- the receiver was written, and the other arguments stay as they are
  have hfirst (hcopy : ∀ whole ∈ w.whole, ∀ t ∈ rest.map (·.1.tree), whole.Becomes t t) (t u : Tree) :
      w.Twin (fun c e => w.Match p.1.tree t u → TripledTrees w.Match (p.1.tree :: rest.map (·.1.tree)) c e)
        (pure (t :: (rest.map Prod.fst).map (·.tree))) (pure (u :: (rest.map Prod.snd).map (·.tree))) :=
    .pure_of_trust trivial fun hearly _ ht => .cons ht (Twins.allAsIs h hearly hcopy)
  have hwith : ∀ (t u : Tree) (ts us : List Tree), TripledTrees w.Match (rest.map (·.1.tree)) ts us →
      w.Match p.1.tree t u → TripledTrees w.Match (p.1.tree :: rest.map (·.1.tree)) (t :: ts) (u :: us) :=
    fun t u ts us hts ht => .cons ht hts
  have hassigned {q : Piece × Piece} (hq : Twins w .delimited q) :
      w.Mates q.1.tree (q.1.operand (.binary .assign) true) (q.2.operand (.binary .assign) true) :=
    hq.operand_loosest (.inl rfl) true
  unfold dynamicArguments
  cases op with
  | convert ty =>
    exact .put_bind <| .putType_bind <| .put_bind <| .bind_twin hp.operand (hfirst hcopy)
  | getMember name =>
    exact .bind_twin hp.operand fun t u => .put_bind <| hfirst hcopy t u
  | setMember name =>
    refine .bind_twin hp.operand fun _ _ => .put_bind ?_
    cases rest with
    | nil => exact .throw _
    | cons value unread =>
      rw [List.forall_mem_cons] at h
      refine .bind_twin (hassigned h.1) fun _ _ => ?_
      exact .pure_of_trust trivial fun hearly _ hv ht => .cons ht (.cons hv (Twins.allAsIs h.2 hearly hcopy))
  | deleteMember name =>
    exact .bind_twin hp.operand fun t u => .put_bind <| hfirst hcopy t u
  | getIndex =>
    exact .bind_twin hp.operand fun _ _ => .bind_twin (arguments_twin _ _ h) fun _ _ => .give (hwith _ _ _ _)
  | setIndex =>
    refine .bind_twin hp.operand fun _ _ => ?_
    rw [List.getLast?_map, List.getLast?_map, ← List.map_dropLast, ← List.map_dropLast]
    cases hlast : rest.getLast? with
    | none => exact .throw _
    | some value =>
      refine .bind_twin (arguments_twin _ _ fun p hp => h p (List.dropLast_subset _ hp)) fun _ _ => ?_
      refine .put_bind ?_
      refine .bind_twin (hassigned (h value (List.mem_of_getLast? hlast))) fun _ _ => ?_
      have hrest : rest = rest.dropLast ++ [value] := by
        obtain ⟨init, rfl⟩ := List.getLast?_eq_some_iff.mp hlast
        rw [List.dropLast_concat]
      refine .give fun hv hts ht => .cons ht ?_
      rw [hrest, List.map_append]
      exact hts.append (.cons hv .nil)
  | deleteIndex =>
    exact .bind_twin hp.operand fun _ _ => .bind_twin (arguments_twin _ _ h) fun _ _ =>
      .put_bind <| .give (hwith _ _ _ _)
  | invokeMember name =>
    exact .bind_twin hp.operand fun _ _ => .put_bind <|
      .bind_twin (arguments_twin _ _ h) fun _ _ => .give (hwith _ _ _ _)
  | invoke =>
    exact .bind_twin hp.operand fun _ _ => .bind_twin (arguments_twin _ _ h) fun _ _ => .give (hwith _ _ _ _)
  | createInstance =>
    exact .put_bind <| .bind_twin hp.operand fun _ _ =>
      .bind_twin (arguments_twin _ _ h) fun _ _ => .give (hwith _ _ _ _)
  | unaryOperation kind => exact .bind_twin (affixed_twin hp) (hfirst hcopy)
  | binaryOperation kind =>
    cases rest with
    | nil => exact .throw _
    | cons right unread =>
      rw [List.forall_mem_cons] at h
      refine .bind_twin (infixed_twin hp (hnext _ List.mem_cons_self)) fun _ _ => ?_
      exact .pure_of_trust trivial fun hearly _ hlr => .cons hlr.1 (.cons hlr.2 (Twins.allAsIs h.2 hearly hcopy))
  | custom name => exact .throw _

theorem dynamic_twin {op : LateBound} {ty : Ty} (h : ∀ q ∈ (Node.dynamic op args ty).slotted, Twins w q.1 q.2)
    (hargs : ∀ p ∈ args, Twins w .delimited p)
    (hmem : ∀ whole ∈ w.whole, Tree.mk (.dynamic op (args.map (·.1.tree)) ty) ∈ whole.subtrees) :
    w.Mates (.mk (.dynamic op (args.map (·.1.tree)) ty)) (dynamic op (args.map Prod.fst) ty)
      (dynamic op (args.map Prod.snd) ty) := by
  cases args with
  | nil => exact .throw _
  | cons receiver rest =>
    rw [Node.slotted, List.forall_mem_cons] at h
    rw [List.forall_mem_cons] at hargs
    have hcopy : ∀ whole ∈ w.whole, ∀ t ∈ op.unread (receiver.1.tree :: rest.map (·.1.tree)), whole.Becomes t t :=
      fun whole hwhole t ht => .copied (hmem whole hwhole) ht
    unfold dynamic
    rw [List.length_map, List.length_map]
    refine .ite (.throw _) (.bind_same markDynamic_same fun _ => ?_)
    refine .bind_twin (dynamicArguments_twin h.1 h.2 hargs.2 hcopy) fun _ _ => .give ?_
    rintro ⟨ps, hsource, rfl, rfl, hps⟩
    rw [List.map_cons, ← hsource]
    exact .plain (.dynamic op ps ty) rfl hps

end Pairing

end Scribe
