import Scribe.Operator.Token
import Scribe.Proofs.Tree.Rename
import Scribe.Proofs.Tree.Respanned
import Scribe.Writing.Jump

/-!
# Operations that are bound late

`Tree.LateBinds` relates a tree and another one in which some operations with two operands are bound at run time. A
late-bound operation never gets parentheses, whatever stands around it. So an operation may be replaced where it stands
without them; the *slot* of a child says what its parent does with it.
-/

namespace Scribe

variable {α β : Type}

/-! ## Slots -/

/-- What a node does with a child. -/
inductive Slot where
  /-- The child is an operand, which is put into parentheses when it needs them. -/
  | operand (parent : Kind) (isRight : Bool)
  /-- The child stands between brackets, commas or other signs, and needs no parentheses. -/
  | delimited
  /-- It matters what kind of node the child is. -/
  | inspected

/-- Whether a node of this kind stands in the slot without parentheses, and is not looked at. -/
def Slot.leavesBare : Slot → Kind → Bool
  | .operand parent isRight, kind => !parent.groups kind.precedence isRight
  | .delimited, _ => true
  | .inspected, _ => false

/-- The slots of the two operands. A power is written as a call; the target of its assignment is an operand too. -/
def BinaryOp.slots (op : BinaryOp) : Slot × Slot :=
  match op with
  | .power => (.delimited, .delimited)
  | .arrayIndex | .powerAssign => (.operand (.binary op) false, .delimited)
  | _ => (.operand (.binary op) false, .operand (.binary op) true)

/-- The slots of the receiver and of the argument that follows it. -/
def LateBound.slots : LateBound → Slot × Slot
  | .convert _ => (.operand (.unary .convert) false, .delimited)
  | .getMember _ | .setMember _ | .deleteMember _ | .invokeMember _ =>
    (.operand (.shape .memberAccess) false, .delimited)
  | .getIndex | .setIndex | .deleteIndex => (.operand (.shape .index) false, .delimited)
  | .invoke | .createInstance => (.operand (.shape .invoke) false, .delimited)
  | .unaryOperation kind => (.operand kind false, .delimited)
  | .binaryOperation kind => (.operand kind false, .operand kind true)
  | .custom _ => (.delimited, .delimited)

/-- The slot of a first argument, which stands in for the receiver of an extension method. -/
def Method.firstSlot (m : Method) : Slot :=
  if m.isNameable && m.isExtension then .operand (.shape .call) false else .delimited

/-- The slot of an operand whose type is tested. -/
def TypeTest.slot : TypeTest → Slot
  | .is => .operand (.shape .typeIs) false
  | .equal => .operand (.shape .memberAccess) false

/-- Children in one slot each. -/
def inSlot (slot : Slot) (cs : List α) : List (Slot × α) := cs.map (slot, ·)

/-- Children between signs, except that the first one has a slot of its own. -/
def ledFrom (slot : Slot) : List α → List (Slot × α)
  | [] => []
  | c :: cs => (slot, c) :: inSlot .delimited cs

/-- The children of a layer, each with its slot. -/
def Node.slotted : Node α → List (Slot × α)
  | .binary op l r _ => [(op.slots.1, l), (op.slots.2, r)]
  | .unary op e _ => inSlot (.operand (.unary op) false) e.toList
  | .invoke target args _ => (.operand (.shape .invoke) false, target) :: inSlot .delimited args
  | .call (some r) _ args => (.operand (.shape .call) false, r) :: inSlot .delimited args
  | .call none m args => ledFrom m.firstSlot args
  | .member r _ => inSlot (.operand (.shape .memberAccess) false) r.toList
  | .index r _ args _ => (.operand (.shape .index) false, r) :: inSlot .delimited args
  | .conditional test ifTrue ifFalse _ => inSlot (.operand (.shape .conditional) false) [test, ifTrue, ifFalse]
  | .typeTest test e _ => [(test.slot, e)]
  | .block _ body _ => inSlot .inspected body
  | .jump _ _ value _ => inSlot .inspected value.toList
  | .dynamic _ [] _ => []
  | .dynamic op (receiver :: rest) _ => (op.slots.1, receiver) :: ledFrom op.slots.2 rest
  | n => inSlot .delimited n.children

section Slotted

theorem snd_inSlot (slot : Slot) (cs : List α) : (inSlot slot cs).map Prod.snd = cs := by
  simp [inSlot, Function.comp_def]

theorem inSlot_map (f : α → β) (slot : Slot) (cs : List α) :
    inSlot slot (cs.map f) = (inSlot slot cs).map (Prod.map id f) := by
  simp [inSlot, Function.comp_def]

theorem snd_ledFrom (slot : Slot) (cs : List α) : (ledFrom slot cs).map Prod.snd = cs := by
  cases cs with
  | nil => rfl
  | cons c cs => rw [ledFrom, List.map_cons, snd_inSlot]

theorem ledFrom_map (f : α → β) (slot : Slot) (cs : List α) :
    ledFrom slot (cs.map f) = (ledFrom slot cs).map (Prod.map id f) := by
  cases cs with
  | nil => rfl
  | cons c cs =>
    rw [List.map_cons, ledFrom, ledFrom, inSlot_map]
    rfl

theorem forall_mem_inSlot {P : Slot → α → Prop} {slot : Slot} {cs : List α} :
    (∀ p ∈ inSlot slot cs, P p.1 p.2) ↔ ∀ c ∈ cs, P slot c := by
  simp [inSlot]

theorem Node.snd_slotted (n : Node α) : n.slotted.map Prod.snd = n.children := by
  unfold Node.slotted
  split <;> simp [Node.children, snd_inSlot, snd_ledFrom]

theorem Node.slotted_map (f : α → β) (n : Node α) : (n.map f).slotted = n.slotted.map (Prod.map id f) := by
  have hrest (n : Node α) :
      inSlot .delimited (n.map f).children = (inSlot .delimited n.children).map (Prod.map id f) := by
    rw [Node.children_map, inSlot_map]
  cases n
  case binary op l r ty => rfl
  case unary op e ty => simp only [Node.map, Node.slotted, Option.toList_map, inSlot_map]
  case invoke target args ty => simp [Node.map, Node.slotted, inSlot_map]
  case call receiver m args => cases receiver <;> simp [Node.map, Node.slotted, inSlot_map, ledFrom_map]
  case member receiver m => simp only [Node.map, Node.slotted, Option.toList_map, inSlot_map]
  case index receiver indexer args ty => simp [Node.map, Node.slotted, inSlot_map]
  case conditional test ifTrue ifFalse ty => rfl
  case typeTest test e ty => rfl
  case block vars body ty => simp only [Node.map, Node.slotted, inSlot_map]
  case jump kind target value ty => simp only [Node.map, Node.slotted, Option.toList_map, inSlot_map]
  case dynamic op args ty => cases args <;> simp [Node.map, Node.slotted, ledFrom_map]
  all_goals exact hrest _

end Slotted

/-! ## The relation -/

/-- The same tree, in which some operations are bound late: those that stand in their slots without parentheses. -/
inductive Tree.LateBinds : Slot → Tree → Tree → Prop where
  | layer {slot : Slot} (z : Node (Tree × Tree)) : (∀ p ∈ z.slotted, LateBinds p.1 p.2.1 p.2.2) →
      LateBinds slot (.mk (z.map Prod.fst)) (.mk (z.map Prod.snd))
  | operation {slot : Slot} {op : BinaryOp} {token : String} {l l' r r' : Tree} (ty : Ty) :
      (Kind.binary op).token? = some token → slot.leavesBare (.binary op) = true →
      LateBinds (.operand (.binary op) false) l l' → LateBinds (.operand (.binary op) true) r r' →
      LateBinds slot (.mk (.binary op l r ty)) (.mk (.dynamic (.binaryOperation (.binary op)) [l', r'] ty))

/-- A late-bound operation never needs parentheses. -/
theorem Kind.groups_primary (parent : Kind) (isRight : Bool) : parent.groups Kind.primary isRight = false := by
  cases parent with
  | binary op | unary op => cases op <;> cases isRight <;> rfl
  | shape s => cases s <;> cases isRight <;> rfl

/-- Neither an assignment nor the arrow of a lambda ever groups what is behind it. -/
theorem Tree.groups_loosest {parent : Kind} (hparent : parent = .binary .assign ∨ parent = .unary .quote) (t : Tree)
    (isRight : Bool) : parent.groups t.precedence isRight = false := by
  have hkind (kind : Kind) : 1 ≤ kind.precedence := by
    cases kind with
    | binary op | unary op => cases op <;> decide
    | shape s => cases s <;> decide
  have hpositive : 1 ≤ t.precedence := by
    show 1 ≤ t.node.precedence
    unfold Node.precedence
    split
    · split
      · decide
      · decide
    · exact hkind _
  rcases hparent with rfl | rfl
  all_goals
    unfold Kind.groups
    split
    · rfl
    · show decide (t.precedence < 1) = false
      simp only [decide_eq_false_iff_not]
      omega

namespace Tree.LateBinds

variable {slot : Slot} {t u : Tree}

/-- Nothing has to be bound late. -/
theorem refl (slot : Slot) (t : Tree) : LateBinds slot t t := by
  induction t using Tree.induction generalizing slot with
  | step n ih =>
    have hlayer : LateBinds slot (.mk ((n.map fun c => (c, c)).map Prod.fst))
        (.mk ((n.map fun c => (c, c)).map Prod.snd)) := by
      refine .layer _ fun p hp => ?_
      rw [Node.slotted_map] at hp
      obtain ⟨q, hq, rfl⟩ := List.mem_map.mp hp
      refine ih q.2 ?_ q.1
      rw [← n.snd_slotted]
      exact List.mem_map_of_mem hq
    rw [Node.map_map, Node.map_map] at hlayer
    change LateBinds slot (.mk (n.map id)) (.mk (n.map id)) at hlayer
    rwa [n.map_id] at hlayer

/-- Between signs an operation never needs parentheses. -/
theorem delimited (h : LateBinds slot t u) : LateBinds .delimited t u := by
  cases h with
  | layer z hz => exact .layer z hz
  | operation ty htoken _ hl hr => exact .operation ty htoken rfl hl hr

/-- Where it is looked at, an operation is not replaced. -/
theorem exists_layer (h : LateBinds .inspected t u) :
    ∃ z : Node (Tree × Tree), t = .mk (z.map Prod.fst) ∧ u = .mk (z.map Prod.snd) ∧
      ∀ p ∈ z.slotted, LateBinds p.1 p.2.1 p.2.2 := by
  cases h with
  | layer z hz => exact ⟨z, rfl, rfl, hz⟩
  | operation ty htoken hbare hl hr => cases hbare

/-! ### What the trees have in common -/

/-- **A fold that treats a late-bound operation like the operation gives the same for both trees.** -/
theorem fold_eq {f : Node (Tree × β) → β} (g : Node β → β) (hf : ∀ n, f n = g (n.map Prod.snd))
    (hg : ∀ op x y ty, g (.dynamic (.binaryOperation (.binary op)) [x, y] ty) = g (.binary op x y ty))
    (h : LateBinds slot t u) : u.fold f = t.fold f := by
  induction h with
  | layer z _ ih =>
    rw [fold_mk, fold_mk, hf, hf, Node.map_map, Node.map_map, Node.map_map, Node.map_map]
    refine congrArg g (Node.map_congr fun p hp => ?_)
    rw [← z.snd_slotted] at hp
    obtain ⟨q, hq, rfl⟩ := List.mem_map.mp hp
    exact ih q hq
  | operation ty _ _ _ _ ihl ihr =>
    rw [fold_mk, fold_mk, hf, hf]
    simp only [Node.map, withFold, List.map_cons, List.map_nil, hg, ihl, ihr]

/-- What is asked of a layer without a look at its children, and is the same for an operation and a late-bound one, is
the same for both trees. -/
theorem node_eq {γ : Type} {f : Node Tree → γ}
    (hmap : ∀ z : Node (Tree × Tree), f (z.map Prod.snd) = f (z.map Prod.fst))
    (hop : ∀ op l r l' r' ty, f (.dynamic (.binaryOperation (.binary op)) [l', r'] ty) = f (.binary op l r ty))
    (h : LateBinds slot t u) : f u.node = f t.node := by
  cases h with
  | layer z _ => exact hmap z
  | operation ty _ _ _ _ => exact hop _ _ _ _ _ ty

/-- Whether a layer is an expression, given whether its children are. -/
def expressionLayer : Node Bool → Bool
  | .block _ _ _ | .sequencePoint _ _ | .label _ _ | .loop _ _ _ | .switch _ _ _ _
  | .tryCatch _ _ _ _ _ => false
  | .conditional _ ifTrue ifFalse ty => !ty.isVoid && ifTrue && ifFalse
  | _ => true

/-- Whether a layer mentions a variable, given whether its children do. -/
def mentionLayer (v : Ident) : Node Bool → Bool
  | .var w => w.id == v
  | .varSet set => set.members.any (·.id == v)
  | n => n.children.any id

/-- The labels that a layer places itself. -/
def ownLabels : Node (List Ident) → List Ident
  | .label target _ => [target.id]
  | .loop _ exit again => (exit.toList ++ again.toList).map (·.id)
  | _ => []

/-- Whether a layer is a variable that an assignment to it introduces; `mentioned` says whether the value mentions it. -/
def targetLayer (v : Ident) (mentioned : Bool) : Node Tree → Bool
  | .var target => target.id == v && !mentioned
  | _ => false

section Common

variable (h : LateBinds slot t u)

include h

theorem isExpression : u.isExpression = t.isExpression := by
  unfold Tree.isExpression
  refine h.fold_eq expressionLayer (fun n => ?_) fun _ _ _ _ => rfl
  cases n <;> rfl

theorem mentions (v : Ident) : u.mentions v = t.mentions v := by
  unfold Tree.mentions
  refine h.fold_eq (mentionLayer v) (fun n => ?_) fun _ _ _ _ => rfl
  have hrest : n.children.any (·.2) = (n.map Prod.snd).children.any id := by
    rw [Node.children_map, List.any_map]
    rfl
  cases n
  case var w => rfl
  case varSet set => rfl
  all_goals exact hrest

theorem labels : u.labels = t.labels := by
  unfold Tree.labels
  refine h.fold_eq (fun n => ownLabels n ++ n.children.flatMap id) (fun n => ?_) fun _ _ _ _ => rfl
  have hrest : n.children.flatMap (·.2) = (n.map Prod.snd).children.flatMap id := by
    rw [Node.children_map, List.flatMap_map]
    rfl
  simp only [hrest]
  cases n <;> rfl

theorem usesUnbound : u.usesUnbound = t.usesUnbound := by
  unfold Tree.usesUnbound
  exact h.fold_eq (Node.usesUnbound id) (fun n => (n.usesUnbound_map Prod.snd id).symm) fun _ _ _ _ => rfl

theorem captures (sig : Signature) : sig.captures u = sig.captures t := by
  unfold Signature.captures
  rw [h.usesUnbound]

theorem ty : u.ty = t.ty :=
  h.node_eq (fun z => (z.ty_map _).trans (z.ty_map _).symm) fun _ _ _ _ _ _ => rfl

theorem isThrow : u.node.isThrow = t.node.isThrow :=
  h.node_eq (fun z => (z.isThrow_map _).trans (z.isThrow_map _).symm) fun _ _ _ _ _ _ => rfl

theorem isJump : u.node.isJump = t.node.isJump :=
  h.node_eq (fun z => (z.isJump_map _).trans (z.isJump_map _).symm) fun _ _ _ _ _ _ => rfl

theorem labelTarget? : u.node.labelTarget? = t.node.labelTarget? :=
  h.node_eq (fun z => (z.labelTarget?_map _).trans (z.labelTarget?_map _).symm) fun _ _ _ _ _ _ => rfl

theorem isEmpty : u.isEmpty = t.isEmpty := by
  refine h.node_eq (f := fun n => Tree.isEmpty (.mk n)) (fun z => ?_) fun _ _ _ _ _ _ => rfl
  cases z <;> rfl

/-- A delegate is made on the spot in both trees, or in none. -/
theorem isMade :
    (match u.node with
      | .lambda sig body => sig.captures body
      | .new _ _ => true
      | _ => false) =
    match t.node with
      | .lambda sig body => sig.captures body
      | .new _ _ => true
      | _ => false := by
  cases h with
  | layer z hz =>
    cases z
    case lambda sig body => exact (hz (.delimited, body) (by simp [Node.slotted, inSlot, Node.children])).captures sig
    all_goals rfl
  | operation ty _ _ _ _ => rfl

theorem leavesLoop (exit : Option Label) : u.leavesLoop exit = t.leavesLoop exit := by
  refine h.node_eq (f := fun n => Tree.leavesLoop (.mk n) exit) (fun z => ?_) fun _ _ _ _ _ _ => rfl
  cases z
  case jump kind target value ty => cases value <;> rfl
  all_goals rfl

theorem isOmitted (isDiscarded : Bool) : u.isOmitted isDiscarded = t.isOmitted isDiscarded := by
  refine h.node_eq (f := fun n => Tree.isOmitted (.mk n) isDiscarded) (fun z => ?_) fun _ _ _ _ _ _ => rfl
  cases z <;> rfl

end Common

theorem isEffect (h : LateBinds .inspected t u) : u.node.isEffect = t.node.isEffect := by
  obtain ⟨z, rfl, rfl, -⟩ := h.exists_layer
  exact (z.isEffect_map _).trans (z.isEffect_map _).symm

theorem assignsFirst (h : LateBinds .inspected t u) (v : Ident) : u.assignsFirst v = t.assignsFirst v := by
  obtain ⟨z, rfl, rfl, hz⟩ := h.exists_layer
  cases z
  case binary op l r ty =>
    rw [Node.slotted, List.forall_mem_cons, List.forall_mem_singleton] at hz
    cases op
    case assign =>
      show targetLayer v (r.2.mentions v) l.2.node = targetLayer v (r.1.mentions v) l.1.node
      rw [hz.2.mentions]
      refine hz.1.node_eq (fun z => ?_) fun _ _ _ _ _ _ => rfl
      cases z <;> rfl
    all_goals rfl
  all_goals rfl

/-- A variable is declared by its first assignment in both lists of statements, or in none. -/
theorem declaredInPlace {γ : Type} {f g : γ → Tree} {cs : List γ} (h : ∀ c ∈ cs, LateBinds .inspected (f c) (g c))
    (v : Ident) (handsOn : Bool) : declaredInPlace v handsOn (cs.map g) = declaredInPlace v handsOn (cs.map f) := by
  induction cs with
  | nil => rfl
  | cons c cs ih =>
    rw [List.forall_mem_cons] at h
    simp only [List.map_cons, Scribe.declaredInPlace, h.1.mentions, h.1.assignsFirst, ih h.2, List.isEmpty_map]

/-- Both trees are grouped as operands, or none is. -/
theorem groups {parent : Kind} {isRight : Bool} (h : LateBinds (.operand parent isRight) t u) :
    parent.groups u.precedence isRight = parent.groups t.precedence isRight := by
  cases h with
  | layer z _ =>
    show parent.groups (z.map Prod.snd).precedence isRight = parent.groups (z.map Prod.fst).precedence isRight
    rw [Node.precedence_map, Node.precedence_map]
  | @operation _ op _ _ _ _ _ ty _ hbare _ _ =>
    have hbinary : parent.groups (Kind.binary op).precedence isRight = false := by simpa [Slot.leavesBare] using hbare
    exact (parent.groups_primary isRight).trans hbinary.symm

end Tree.LateBinds

end Scribe
