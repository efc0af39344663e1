import Scribe.Proofs.Operator.Arithmetic
import Scribe.Proofs.Script.Layout

/-!
# Late-bound operations are written like the others

An operation whose operands are known only at run time is written like the operation itself, except that it never gets
parentheses. So where an operation stands without them, it does not matter to the script when it is bound: the script
says the same, needs the same fields and imports, and has its markers at the same places. Where an operation needs
parentheses, a late-bound one is written without them, and the text is that of another tree.
-/

namespace Scribe

variable {slot : Slot} {t u : Tree}

/-- The same desk twice, with operations that may be bound late on the right. -/
def Pairing.lateBinding (desk : Desk) : Pairing where
  left := desk
  right := desk
  agree := desk.agrees
  pt _ _ := True
  late := True

/-- As an operand, a late-bound operation is written as the operation is written between signs. -/
theorem Tree.lateBound_operand {op : BinaryOp} {token : String} (htoken : (Kind.binary op).token? = some token)
    (l r : Tree) (ty : Ty) (desk : Desk) (parent : Kind) (isRight : Bool) :
    (Pairing.lateBinding desk).Twin (fun _ _ => True) (Tree.mk (.binary op l r ty)).piece.value
      ((Tree.mk (.dynamic (.binaryOperation (.binary op)) [l, r] ty)).piece.operand parent isRight) := by
  have hbinds : LateBinds .delimited (.mk (.binary op l r ty))
      (.mk (.dynamic (.binaryOperation (.binary op)) [l, r] ty)) :=
    .operation ty htoken rfl (.refl _ l) (.refl _ r)
  have hvalue := (hbinds.twins (w := .lateBinding desk) (absurd trivial) nofun).value
  have hgroups : parent.groups (Tree.mk (.dynamic (.binaryOperation (.binary op)) [l, r] ty)).precedence isRight = false :=
    parent.groups_primary isRight
  unfold Piece.operand
  rw [show (Tree.piece _).tree = Tree.mk (.dynamic (.binaryOperation (.binary op)) [l, r] ty) from rfl, hgroups,
    Bool.and_false, if_neg Bool.false_ne_true]
  exact hvalue.weaken id fun _ => trivial

/-! ## Passes -/

/-- Putting a script together does not look at what is noted of late binding, and passes it on. -/
theorem Draft.assemble_face (d : Draft) {lexicon : Lexicon} (h : d.lexicon.face = lexicon.face) (w : Wrapper)
    (t u : Tree) (promoted : List (Ident × Tree)) :
    ∃ usesDynamic, ({ d with promoted, lexicon } : Draft).assemble w u =
      (d.assemble w t).map fun r => ({ r.1 with tree := u, usesDynamic }, r.2) := by
  obtain ⟨hbases, hface⟩ := Lexicon.FacesOnly.mapM Lexicon.facesOnly_spell w.orderedBases _ _ h
  obtain ⟨htypes, hface⟩ := Lexicon.FacesOnly.mapM (fun f : Field => Lexicon.facesOnly_spell f.ty) d.fields _ _ hface
  let d' : Draft := { d with promoted, lexicon }
  have hnamespaces : (d'.spelled w).2.2.namespaces = (d.spelled w).2.2.namespaces :=
    (congrArg Lexicon.namespaces hface).symm
  have hassemblies : (d'.spelled w).2.2.assemblies = (d.spelled w).2.2.assemblies :=
    (congrArg Lexicon.assemblies hface).symm
  have haliases : (d'.spelled w).2.2.aliases? = (d.spelled w).2.2.aliases? := (congrArg Lexicon.aliases? hface).symm
  have htext : d'.text? w = d.text? w := by
    unfold text?
    dsimp only
    rw [hnamespaces, haliases, show (d'.spelled w).1 = (d.spelled w).1 from hbases.symm,
      show (d'.spelled w).2.1 = (d.spelled w).2.1 from htypes.symm]
    rfl
  refine ⟨(d'.spelled w).2.2.usesDynamic, ?_⟩
  rw [assemble_eq, assemble_eq, htext]
  unfold scriptOf
  dsimp only
  rw [hnamespaces, hassemblies]
  cases d.text? w <;> rfl

/-- Passes over a tree and over the same tree with operations bound late agree in everything but the trees and what is
noted of late binding. -/
theorem Tree.LateBinds.passes (h : t.LateBinds slot u) (desk : Desk) :
    (∃ err, t.pass desk = .error err ∧ u.pass desk = .error err) ∨
    ∃ s s' layout, t.pass desk = .ok (s, layout) ∧ u.pass desk = .ok (s', layout) ∧
      s' = { s with tree := s'.tree, usesDynamic := s'.usesDynamic } := by
  rw [pass_eq, pass_eq]
  rcases h.draft_alike (.lateBinding desk) (absurd trivial) nofun with ⟨err, h₁, h₂⟩ | ⟨u₁, d₁, u₂, d₂, h₁, h₂, hd, -⟩
  · rw [show t.draft desk = .error err from h₁, show u.draft desk = .error err from h₂]
    exact Or.inl ⟨err, rfl, rfl⟩
  · rw [show t.draft desk = .ok (u₁, d₁) from h₁, show u.draft desk = .ok (u₂, d₂) from h₂]
    have hrest := hd.rest
    rw [hd.page.same rfl, hd.ranges rfl] at hrest
    obtain ⟨usesDynamic, hassemble⟩ := d₁.assemble_face hd.lexicon.face desk.wrapper u₁ u₂ d₂.promoted
    rw [← show d₂ = { d₁ with promoted := d₂.promoted, lexicon := d₂.lexicon } from hrest] at hassemble
    dsimp only
    rw [hassemble]
    cases d₁.assemble desk.wrapper u₁ with
    | error err => exact Or.inl ⟨err, rfl, rfl⟩
    | ok r => exact Or.inr ⟨r.1, _, r.2, rfl, rfl, rfl⟩

/-! ## Scripts -/

/-- **Operations may be bound late wherever they stand without parentheses.** The script fails with the same error, or
it differs from that of the ordinary tree in nothing but the tree and the note that something is bound late. -/
theorem Tree.toScript_lateBinds (h : t.LateBinds .delimited u) (w : Wrapper) :
    (∃ err, t.toScript w = .error err ∧ u.toScript w = .error err) ∨
    ∃ s s', t.toScript w = .ok s ∧ u.toScript w = .ok s' ∧
      s' = { s with tree := s'.tree, usesDynamic := s'.usesDynamic } := by
  unfold Tree.toScript
  rcases h.passes ⟨w, {}⟩ with ⟨err, h₁, h₂⟩ | ⟨s, s', layout, h₁, h₂, hs⟩
  · rw [h₁, h₂]
    exact Or.inl ⟨err, rfl, rfl⟩
  · rw [h₁, h₂]
    cases w.document with
    | none => exact Or.inr ⟨s, s', rfl, rfl, hs⟩
    | some name =>
      -- both first passes have measured the same layout
      rcases h.passes ⟨w, layout⟩ with ⟨err, h₁, h₂⟩ | ⟨s, s', _, h₁, h₂, hs⟩
      · refine Or.inl ⟨err, ?_, ?_⟩
        · simp only [bind, Except.bind, h₁]
        · simp only [bind, Except.bind, h₂]
      · refine Or.inr ⟨s, s', ?_, ?_, hs⟩
        · simp only [bind, Except.bind, h₁]
          rfl
        · simp only [bind, Except.bind, h₂]
          rfl

namespace Tree

/-- An operation on `a` and `b`, bound early or late, as the left operand of another one on `c`. -/
def asLeftOperand (parent op : BinaryOp) (isLate : Bool) : Tree :=
  let operation :=
    if isLate then mk (.dynamic (.binaryOperation (.binary op)) [number "a", number "b"] .int)
    else mk (.binary op (number "a") (number "b") .int)
  mk (.binary parent operation (number "c") .int)

theorem toScript_lateBinds_product :
    LateBinds .delimited (asLeftOperand .add .multiply false) (asLeftOperand .add .multiply true) ∧
    ((∃ err, (asLeftOperand .add .multiply false).toScript {} = .error err ∧
      (asLeftOperand .add .multiply true).toScript {} = .error err) ∨
    ∃ s s', (asLeftOperand .add .multiply false).toScript {} = .ok s ∧
      (asLeftOperand .add .multiply true).toScript {} = .ok s' ∧
      s' = { s with tree := s'.tree, usesDynamic := s'.usesDynamic }) := by
  have hproduct : LateBinds (.operand (.binary .add) false) (mk (.binary .multiply (number "a") (number "b") .int))
      (mk (.dynamic (.binaryOperation (.binary .multiply)) [number "a", number "b"] .int)) :=
    .operation .int rfl rfl (.refl _ _) (.refl _ _)
  have hbinds : LateBinds .delimited (asLeftOperand .add .multiply false) (asLeftOperand .add .multiply true) := by
    refine .layer (.binary .add (_, _) (number "c", number "c") .int) ?_
    rw [Node.slotted, List.forall_mem_cons, List.forall_mem_singleton]
    exact ⟨hproduct, .refl _ _⟩
  exact ⟨hbinds, toScript_lateBinds hbinds {}⟩

/-- **A late-bound sum loses its parentheses as a factor,** and the text is that of another tree. -/
theorem lateBound_sum_loses_parentheses :
    ((asLeftOperand .multiply .add false).toScript {}).toOption.map Script.text = some "(a + b) * c" ∧
    ((asLeftOperand .multiply .add true).toScript {}).toOption.map Script.text = some "a + b * c" := by
  constructor
  · decide +kernel
  · decide +kernel

end Tree

end Scribe
