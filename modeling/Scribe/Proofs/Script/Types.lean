import Scribe.Proofs.Script.Scope
import Scribe.Proofs.Tree.Rename
import Scribe.Proofs.Writing.Context

/-!
# The types of a rewritten tree

What stands in the script for a node has the type of the node, with one exception: what stands for a jump has
no value, whatever type the jump was given. This holds of the tree as a whole, of everything that a part of it
may become (`Tree.Becomes.ty_eq`), and of the results of visits (`Tree.visit_ty`).

Where two lambdas have the same identity, the method of the first one stands for both. So the types of
lambdas have to agree with their identities, as they do when an identity is that of an object.
-/

namespace Scribe

open Writing

/-- The signature of a lambda. -/
def Node.signature? {α : Type} : Node α → Option Signature
  | .lambda sig _ => some sig
  | _ => none

namespace Tree

/-- The type of what stands for a tree in a script. A jump has no value there. -/
def writtenTy (t : Tree) : Ty := if t.node.isJump then .void else t.ty

/-- The signatures of the lambdas in a tree. -/
def signatures (t : Tree) : List Signature := t.subtrees.filterMap (·.node.signature?)

/-- Lambdas with the same identity have the same type. -/
def LambdasTyped (t : Tree) : Prop :=
  ∀ sig ∈ t.signatures, ∀ sig' ∈ t.signatures, sig.id = sig'.id → sig.delegate = sig'.delegate

instance (t : Tree) : Decidable t.LambdasTyped :=
  inferInstanceAs (Decidable (∀ sig ∈ t.signatures, ∀ sig' ∈ t.signatures,
    sig.id = sig'.id → sig.delegate = sig'.delegate))

theorem mem_signatures {t : Tree} {sig : Signature} {body : Tree} (h : Tree.mk (.lambda sig body) ∈ t.subtrees) :
    sig ∈ t.signatures :=
  List.mem_filterMap.mpr ⟨_, h, rfl⟩

end Tree

/-- The lambdas that were moved so far are parts of the tree, and what stands for them is what they may become. -/
def Draft.MovesPartsOf (d : Draft) (t : Tree) : Prop := ∀ m ∈ d.promoted, t.Moved m.1 m.2

theorem Draft.movesPartsOf_start (page : Text.Page) (t : Tree) : ({ page } : Draft).MovesPartsOf t := by
  intro m hm
  cases hm

/-! ## What a tree may become -/

theorem Variable.Written.ty_eq {v w : Variable} (h : v.Written w) : w.ty = v.ty := by
  obtain ⟨name, rfl⟩ := h
  unfold Variable.written
  split <;> rfl

theorem Variable.Written.map_ty {vs ws : List Variable} (h : List.Forall₂ Variable.Written vs ws) :
    ws.map (·.ty) = vs.map (·.ty) := by
  induction h with
  | nil => rfl
  | cons hvw _ ih => rw [List.map_cons, List.map_cons, hvw.ty_eq, ih]

/-- Apart from jumps, a layer keeps its type. -/
theorem Node.Written.ty_eq {α : Type} {n m : Node α} (h : n.Written m) (hjump : n.isJump = false) : m.ty = n.ty := by
  cases h with
  | var hvw => exact congrArg Ty.deref hvw.ty_eq
  | lambda id name body hparams =>
    show Ty.delegate _ _ = Ty.delegate _ _
    rw [Variable.Written.map_ty hparams]
  | tryCatch _ _ _ _ _ => rfl
  | jump _ _ _ _ => cases hjump
  | plain _ => rfl

theorem Tree.IsPoint.ty_eq {t : Tree} (h : t.IsPoint) : t.ty = .void := by
  obtain ⟨document, span, rfl⟩ := h
  rfl

namespace Tree

variable {whole t u : Tree}

/-- **What a tree may become has its type**, unless it is a jump. -/
theorem Becomes.ty_eq (h : whole.Becomes t u) (hlambdas : whole.LambdasTyped) (ht : t ∈ whole.subtrees)
    (hjump : t.node.isJump = false) : u.ty = t.ty := by
  induction h with
  | @layer n m hnm _ _ =>
    rw [node, Node.isJump_map] at hjump
    show (m.map Prod.snd).ty = (n.map Prod.fst).ty
    rw [Node.ty_map, Node.ty_map, hnm.ty_eq hjump]
  | block _ _ _ _ _ _ _ | leaf _ _ => rfl
  | jumpDefault _ _ _ _ => cases hjump
  | labelDefault _ _ => rfl
  | marked _ _ ih => exact ih ht hjump
  | dropped hpoint => exact hpoint.ty_eq.symm
  | moved _ _ hid hmem _ ih =>
    -- the method was written for the lambda that came first
    exact (ih hmem rfl).trans (hlambdas _ (mem_signatures hmem) _ (mem_signatures ht) hid)
  | varSet _ | copied _ _ => rfl

end Tree

/-! ## Visits -/

theorem Tree.visit_twin {desk : Desk} {whole s : Tree} (hs : s ∈ whole.subtrees) (way : Visit) :
    let w := Pairing.itself desk whole
    w.Mates s (s.piece.visit way) (s.piece.visit way) := by
  intro w
  have htwins (slot : Slot) : Twins w slot (s.piece, s.piece) :=
    (LateBinds.refl slot s).twins (fun _ => rfl) (by rintro _ ⟨⟩; exact hs)
  cases way with
  | expression => exact (htwins .delimited).write .discard
  | value => exact (htwins .delimited).value
  | operand parent isRight => exact (htwins (.operand parent isRight)).operand
  | statement tail => exact (htwins .delimited).write tail
  | body tail => exact (htwins .delimited).body tail

namespace Writing

variable {α β : Type} {desk : Desk} {x : Writing α} {f : α → Writing β}

theorem Gives.seq {R : α → Prop} {S : β → Prop} (hx : Gives desk x R) (hf : ∀ a, R a → Gives desk (f a) S) :
    Gives desk (x >>= f) S := by
  intro d b e h
  obtain ⟨a, d', h₁, h₂⟩ := bind_eq_ok.mp h
  exact hf a (hx d a d' h₁) d' b e h₂

theorem jump_gives_void (kind : JumpKind) (target : Label) (value : Option Piece) :
    Gives desk (jump kind target value) fun u => u.ty = .void := by
  refine .bind fun d => ?_
  split
  · exact .bind fun _ => .bind fun _ => .bind fun _ => .pure rfl
  · exact .bind fun _ => .bind fun _ => .bind fun _ => .bind fun _ => .bind fun _ => .bind fun _ => .pure rfl
  · refine .bind fun _ => .bind fun _ => ?_
    split
    · exact .bind fun _ => .bind fun _ => .bind fun _ => .pure rfl
    · exact .bind fun _ => .pure rfl
  · exact .bind fun _ => .bind fun _ => .bind fun _ => .pure rfl

end Writing

theorem Tree.ty_ofStatements (ts : List Tree) (t : Tree) : (Tree.ofStatements (ts ++ [t])).ty = t.ty := by
  match ts with
  | [] | [s] => rfl
  | s :: s' :: ts =>
    show (((s :: s' :: ts ++ [t]).getLast?.map Tree.ty).getD .void) = t.ty
    rw [List.getLast?_concat]
    rfl

namespace Tree

variable {desk : Desk} {kind : JumpKind} {target : Label} {value : Option Tree} {ty : Ty}

theorem write_jump_gives (tail : Tail) :
    Gives desk ((Tree.mk (.jump kind target value ty)).piece.write tail) fun u => u.ty = .void := by
  rw [piece_mk]
  exact jump_gives_void kind target (value.map piece)

/-- A jump is a statement on a line of its own. -/
theorem statements_jump_gives (tail : Tail) :
    Gives desk (statements [(Tree.mk (.jump kind target value ty)).piece] tail) fun us =>
      ∃ points u, us = points ++ [u] ∧ u.ty = .void := by
  have hline : Gives desk (lineOf (Tree.mk (.jump kind target value ty)).piece tail) fun us =>
      ∃ points u, us = points ++ [u] ∧ u.ty = .void :=
    .bind fun _ => .bind fun _ => .bind fun _ => .seq (write_jump_gives .discard) fun u hu =>
      .bind fun _ => .bind fun point => .pure ⟨point.toList, u, rfl, hu⟩
  refine .seq hline ?_
  rintro us ⟨points, u, rfl, hu⟩
  exact .pure ⟨points, u, List.append_nil _, hu⟩

/-- However a jump is visited, what stands for it has no value. -/
theorem visit_jump_gives (way : Visit) :
    Gives desk ((Tree.mk (.jump kind target value ty)).piece.visit way) fun u => u.ty = .void := by
  have hwrite : ∀ tail, Gives desk ((Tree.mk (.jump kind target value ty)).piece.write tail) fun u => u.ty = .void :=
    fun tail => write_jump_gives tail
  cases way with
  | expression | value => exact hwrite .discard
  | operand parent isRight =>
    show Gives desk (if _ then _ else _) _
    split
    · exact .bind fun _ => .seq (hwrite .discard) fun u hu => .bind fun _ => .pure hu
    · exact hwrite .discard
  | statement tail => exact hwrite tail
  | body tail =>
    refine .seq (statements_jump_gives tail) ?_
    rintro us ⟨points, u, rfl, hu⟩
    exact .pure ((ty_ofStatements points u).trans hu)

/-- **A visit gives a tree of the type of the node**, unless that is a jump, and of no type then. -/
theorem visit_ty {whole s u : Tree} {d e : Draft} (hs : s ∈ whole.subtrees) (hlambdas : whole.LambdasTyped)
    (hd : d.MovesPartsOf whole) (way : Visit) (h : s.piece.visit way desk d = .ok (u, e)) :
    u.ty = s.writtenTy ∧ e.MovesPartsOf whole := by
  obtain ⟨hbecomes, he⟩ := Pairing.becomes_of_twin (visit_twin hs way) h hd
  refine ⟨?_, he⟩
  unfold writtenTy
  by_cases hjump : s.node.isJump = true
  · rw [if_pos hjump]
    obtain ⟨n⟩ := s
    cases n with
    | jump kind target value ty => exact visit_jump_gives way d u e h
    | _ => cases hjump
  · rw [if_neg hjump]
    exact hbecomes.ty_eq hlambdas hs (Bool.not_eq_true _ ▸ hjump)

theorem writeRoot_ty {t u : Tree} {d e : Draft} (hlambdas : t.LambdasTyped) (hd : d.MovesPartsOf t)
    (h : t.writeRoot desk d = .ok (u, e)) : u.ty = t.writtenTy := by
  obtain ⟨n⟩ := t
  cases n with
  | lambda sig body => exact (becomes_of_writeRoot h hd).1.ty_eq hlambdas (mem_subtrees_self _) rfl
  | _ => exact (visit_ty (mem_subtrees_self _) hlambdas hd .expression h).1

/-- **Types are kept.** The tree of a script has the type of the tree, or no type if that is a jump. Its parts are what
the parts of the tree may become, and these have the same types, jumps apart. A visit of any part gives a tree of its
type as well, or of no type for a jump, as long as the lambdas moved before were parts of the tree; and they are so
after it. -/
theorem toScript_types {t : Tree} {w : Wrapper} {script : Script} (h : t.toScript w = .ok script)
    (hlambdas : t.LambdasTyped) :
    script.tree.ty = t.writtenTy ∧ t.Becomes t script.tree ∧
      (∀ s ∈ t.subtrees, ∀ u, t.Becomes s u → s.node.isJump = false → u.ty = s.ty) ∧
      ∀ s ∈ t.subtrees, ∀ (way : Visit) (desk : Desk) (d e : Draft) (u : Tree), d.MovesPartsOf t →
        s.piece.visit way desk d = .ok (u, e) → u.ty = s.writtenTy ∧ e.MovesPartsOf t := by
  obtain ⟨k, layout, u, d, hdraft, hassemble⟩ := exists_draft_of_toScript h
  refine ⟨?_, toScript_becomes h, ?_, ?_⟩
  · rw [(d.assemble_tree hassemble).1]
    exact writeRoot_ty hlambdas (Draft.movesPartsOf_start _ t) hdraft
  · intro s hs u hbecomes hjump
    exact hbecomes.ty_eq hlambdas hs hjump
  · intro s hs way desk d e u hd hvisit
    exact visit_ty hs hlambdas hd way hvisit

/-- A lambda that is used twice, and moved once, with sequence points around. -/
theorem toScript_types_moved :
    let x : Variable := { id := .given "x", ty := .int }
    let z : Variable := { id := .given "z", ty := .int }
    let g : Tree := .lambda (.given "g") [z] (.mk (.var z))
    let t : Tree := .lambda (.given "f") [x]
      (.block [] [.invoke g [.mk (.var x)], .invoke g [.invoke g [.mk (.var x)]]])
    t.LambdasTyped ∧ ∃ script, t.toScript { document := some "main" } = .ok script ∧
      script.tree.ty = Ty.func [.int] .int ∧
      ∃ u e, g.piece.visit .value ⟨{}, {}⟩ { page := {} } = .ok (u, e) ∧ u.ty = Ty.func [.int] .int := by
  intro x z g t
  have hlambdas : t.LambdasTyped := by decide +kernel
  have hok : (t.toScript { document := some "main" }).isOk = true := by decide +kernel
  have hvisit : (g.piece.visit .value ⟨{}, {}⟩ { page := {} }).isOk = true := by decide +kernel
  cases h : t.toScript { document := some "main" } with
  | error err =>
    rw [h] at hok
    cases hok
  | ok script =>
    obtain ⟨hty, -, -, hvisits⟩ := toScript_types h hlambdas
    cases hg : g.piece.visit .value ⟨{}, {}⟩ { page := {} } with
    | error err =>
      rw [hg] at hvisit
      cases hvisit
    | ok r =>
      obtain ⟨u, e⟩ := r
      have hmem : g ∈ t.subtrees := by simp [t, g, lambda, block, invoke, subtrees, parts_mk, Node.children]
      have hg' := (hvisits g hmem .value _ _ e u (Draft.movesPartsOf_start _ t) hg).1
      exact ⟨hlambdas, script, rfl, hty.trans (by decide +kernel), u, e, rfl, hg'.trans (by decide +kernel)⟩

/-- A jump that was given a type has none in the script. -/
theorem typed_jump_loses_type :
    let t : Tree := .jump .goto { id := .given "l", ty := .void } none (some .int)
    t.ty = .int ∧ (t.toScript {}).toOption.map (·.tree.ty) = some .void := by
  decide +kernel

end Tree

end Scribe
