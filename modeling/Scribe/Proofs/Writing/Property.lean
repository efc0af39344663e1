import Scribe.Proofs.Tree.Map
import Scribe.Proofs.Tree.Scope
import Scribe.Proofs.Writing.Likeness.Construct
import Scribe.Script.Basic

/-!
# Properties of writing a tree

A property of ways of writing is a likeness with no other ways. It is *closed* when it goes through all steps by which a
tree is written: the elementary ones, and those that concern variables, jumps and functions. A closed property may ask
something of the nodes that are written. It holds of a layer as far as it holds of the children, and so of every tree
all of whose nodes are as it asks.
-/

namespace Scribe

open Writing
open Variants (left)

/-- The property goes through all steps by which nodes are written that are as `W` asks. -/
structure Property.Closed (P : Property) (E : Allowance) (W : Node Tree → Prop) : Prop where
  congruent : P.likeness.Congruent E
  defect {n : Node Tree} : W n → ∀ err ∈ n.defect?, E.error err
  types {n : Node Tree} : W n → ∀ ty ∈ n.types, E.Admits ty
  onFlow (f : Flow → Flow) : P Unit (onFlow f)
  pending (f : List Ident → List Ident) : P Unit (modify fun d => { d with undeclared := f d.undeclared })
  nameVariable {n : Node Tree} {v : Variable} : W n → v ∈ n.variables → P String (naming (·.nameVariable v))
  nameLambda (sig : Signature) : P String (naming (·.nameLambda sig))
  promote {sig : Signature} {body : Tree} {name : String} : W (.lambda sig body) →
    P Tree (inFunction do newline; method (.promoted sig.id) "private " name sig body.piece) →
    P Tree (promote name sig body.piece)

/-- A tree with its usual rendition and no other ones. -/
def Tree.alone (t : Tree) : Variants Empty := ⟨t, t.rendition, nofun⟩

/-- The property holds of all ways of writing the tree. -/
structure Tree.Satisfies (P : Property) (t : Tree) : Prop where
  value : t.alone.Alike P.likeness
  under : t.alone.AlikeUnder P.likeness fun _ => True

namespace Property.Closed

variable {α β : Type} {P : Property} {E : Allowance} {W : Node Tree → Prop} {n : Node Tree} (hP : P.Closed E W)

include hP

/-! ## Sequences -/

theorem bind {x : Writing α} {f : α → Writing β} (hx : P α x) (hf : ∀ a, P β (f a)) : P β (x >>= f) :=
  hP.congruent.bind (y := nofun) (g := nofun) hx hf

theorem get_bind {f : Draft → Writing β} (hf : ∀ d, P β (f d)) : P β (get >>= f) :=
  hP.congruent.get_bind (g := nofun) hf

theorem read_bind {f : Desk → Writing β} (hf : ∀ desk, P β (f desk)) : P β (read >>= f) :=
  hP.congruent.read_bind (g := nofun) hf

/-! ## Variables -/

theorem putVariable (hn : W n) {v : Variable} (hv : v ∈ n.variables) (hty : v.ty ∈ n.types) :
    P Variable (putVariable v) := by
  have hR := hP.congruent
  have hrest : ∀ name, P Variable (do put name; return v.written name) := fun _ =>
    hP.bind (hR.put _) fun _ => hR.pure _
  refine hP.bind (hP.nameVariable hn hv) fun name => hP.get_bind fun d => ?_
  split
  · exact hP.bind (hP.pending _) fun _ => hP.bind (hR.putType (hP.types hn _ hty)) fun _ => hP.bind (hR.put _) fun _ =>
      hrest name
  · exact hrest name

theorem declare (hn : W n) {v : Variable} (hv : v ∈ n.variables) (hty : v.ty ∈ n.types) (inPlace : Bool) :
    P Variable (declare v inPlace) := by
  have hR := hP.congruent
  cases inPlace with
  | true =>
    exact hP.bind (hP.nameVariable hn hv) fun _ => hP.bind (hP.pending fun is => v.id :: is.filter (· != v.id)) fun _ =>
      hR.pure _
  | false =>
    exact hP.bind hR.newline fun _ => hP.bind (hR.putType (hP.types hn _ hty)) fun _ => hP.bind (hR.put _) fun _ =>
      hP.bind (hP.putVariable hn hv hty) fun _ => hP.bind (hR.put _) fun _ => hR.pure _

/-! ## Jumps and loops -/

theorem putJump (target : Label) : P Unit (putJump target) := by
  have hR := hP.congruent
  refine hP.get_bind fun d => hP.bind (hP.onFlow _) fun _ => ?_
  split
  · exact hR.put _
  · exact hR.put _
  · exact hP.bind (hR.nameLabel _) fun _ => hR.put _

theorem enterLoop (exit again : Option Label) (tail : Tail) : P Unit (enterLoop exit again tail) := by
  have hscope : P Unit (enterScope (.loop exit again false false)) := hP.onFlow _
  cases exit with
  | none => exact hscope
  | some target => exact hP.bind (hP.congruent.addTaker target tail) fun _ => hscope

/-- A loop is closed by labels and by a default value. -/
theorem lowerLoop (tested : Bool) {ty : Ty} (h : E.Admits ty) (tail : Tail) : P Unit (lowerLoop tested ty tail) := by
  have hR := hP.congruent
  have hlabel : ∀ target, P Unit (putLabel target) := fun _ => hP.bind (hR.nameLabel _) fun _ => hR.putLine _
  have hagain : P Unit putAgainLabel := by
    refine hP.get_bind fun d => ?_
    split
    · exact hlabel _
    · exact hR.pure _
  have hleave : P Unit leaveLoop := by
    refine hP.get_bind fun d => hP.bind (hP.onFlow _) fun _ => ?_
    split
    · exact hlabel _
    · exact hR.pure _
  refine hP.bind hagain fun _ => hP.bind (hR.onPage _) fun _ => ?_
  split
  · exact hP.bind (hR.putLine _) fun _ => hP.bind (hR.putDefault h) fun _ => hP.bind (hR.put _) fun _ => hleave
  · exact hleave

/-! ## Lambdas -/

theorem inFunction {x : Writing α} (h : P α x) : P α (inFunction x) :=
  have hR := hP.congruent
  hP.get_bind fun _ => hP.bind (hP.onFlow _) fun _ => hP.bind h fun _ => hP.bind (hP.onFlow _) fun _ => hR.pure _

section Lambdas

variable {sig : Signature} {body : Tree} (hn : W (.lambda sig body)) (h : body.Satisfies P)

include hn

theorem parameter {v : Variable} (hv : v ∈ sig.params) : P Variable (Writing.putVariable v) :=
  hP.putVariable hn hv (List.mem_cons_of_mem _ (List.mem_cons_of_mem _ (List.mem_map_of_mem hv)))

include h

theorem arrow : P Tree (arrow sig body.piece) :=
  hP.congruent.arrow (p := body.alone) (fun _ hv => hP.parameter hn hv) (fun _ => h.value)
    fun _ => hP.inFunction (h.under.body hP.congruent trivial trivial)

theorem method (id : Ident) (access name : String) : P Tree (method id access name sig body.piece) := by
  have hbody : P.likeness _ (body.alone.left.bracedBody (Tail.atType .result sig.result)) nofun :=
    h.under.bracedBody hP.congruent trivial trivial
  refine hP.congruent.method (p := body.alone) (fun _ hv => hP.parameter hn hv) ?_ hbody id access name
  exact fun ty hty => hP.types hn ty (List.mem_cons_of_mem _ hty)

end Lambdas

/-! ## Layers -/

section Layers

variable (hn : W n) (h : ∀ c ∈ n.children, c.Satisfies P)

include hn h

theorem write (tail : Tail) : P Tree ((n.map Tree.piece).rendition.write tail) := by
  have hR := hP.congruent
  have hty := hP.types hn
  have hpieces : n.map Tree.piece = (n.map Tree.alone).map left := (n.map_map Tree.alone left).symm
  rw [hpieces]
  -- a node of values is a layer of any likeness; the others do more to the draft, each in its way
  cases hplain : n.writesValues with
  | true =>
    have herr := hP.defect hn
    refine hR.layer (by rwa [Node.writesValues_map]) (by rwa [Node.defect?_map]) (by rwa [Node.types_map]) ?_ tail
    rw [Node.children_map, List.forall_mem_map]
    exact fun c hc => (h c hc).value
  | false =>
    cases n with
    | var v =>
      exact hP.bind (hP.putVariable hn (List.mem_singleton_self v) (List.mem_cons_of_mem _ (List.mem_singleton_self _)))
        fun _ => hR.pure _
    | lambda sig body =>
      have hbody := h body (List.mem_singleton_self body)
      have hmethod := fun name => hP.bind hR.newline fun _ => hP.method hn hbody (.promoted sig.id) "private " name
      exact hR.nestedLambda (p := body.alone) (fun ty h => hty ty (List.mem_cons_of_mem _ h)) (hP.nameLambda sig)
        (fun _ => hP.arrow hn hbody) fun _ name => hP.promote hn (hP.inFunction (hmethod name))
    | conditional test ifTrue ifFalse ty =>
      simp only [Node.children, List.forall_mem_cons] at h
      exact hR.conditional trivial h.1.value h.2.1.under h.2.2.1.under (fun _ => h.2.1.value) (fun _ => h.2.2.1.value) ty
        trivial
    | block vars body ty =>
      refine hR.block (A := fun _ => True) trivial (fun v hv => hP.declare hn hv ?_) ?_ ty trivial
      · exact List.mem_cons_of_mem _ (List.mem_map_of_mem hv)
      · exact List.forall_mem_map.mpr fun c hc => (h c hc).under
    | loop body exit again =>
      have hupper := hR.upperLoop trivial (h body (List.mem_singleton_self body)).under exit
      show P Tree (Writing.loop body.alone.left exit again tail)
      rw [loop_parts]
      exact hP.bind (hP.enterLoop _ _ _) fun _ => hP.bind hupper fun _ =>
        hP.bind (hP.lowerLoop _ (hty _ List.mem_cons_self) _) fun _ => hR.pure _
    | jump kind target value ty =>
      refine hR.jump kind (hP.putJump target) (hty _ (by simp [Node.types])) (Option.forall_mem_map.mpr fun c hc => ?_)
      exact (h c (Option.mem_toList.mpr hc)).value
    | switch value cases fallback ty =>
      have hchild : ∀ {c}, _ → c ∈ (Node.switch value cases fallback ty).children := Node.mem_children_switch.mpr
      have hbody : P.likeness _ (switchBody ((cases.map (Case.map Tree.alone)).map (Case.map left))
          ((fallback.map Tree.alone).map left) (tail.atType ty)) Empty.elim := by
        refine hR.switchBody (A := fun _ => True) trivial ?_ (Option.forall_mem_map.mpr fun c hc => ?_) trivial
        · simp only [List.forall_mem_map, Case.map]
          intro k hk
          have hk := fun c hc => h c (hchild (.inr (.inl ⟨k, hk, hc⟩)))
          rw [List.forall_mem_append] at hk
          exact ⟨fun c hc => (hk.1 c hc).value, (hk.2 _ (List.mem_singleton_self _)).under⟩
        · exact (h c (hchild (.inr (.inr (Option.mem_toList.mpr hc))))).under
      show P Tree (Writing.switch value.alone.left _ _ ty tail)
      rw [switch_eq]
      exact hP.bind (hR.putLine _) fun _ => hP.bind (h value (hchild (.inl rfl))).value.value fun _ =>
        hP.bind (hR.put _) fun _ => hP.bind (hR.onPage _) fun _ =>
          hP.bind (hP.bind (hP.onFlow _) fun _ => hP.bind hbody fun _ => hP.bind (hP.onFlow _) fun _ => hR.pure _) fun _ =>
            hP.bind (hR.onPage _) fun _ => hR.pure _
    | tryCatch body handlers final fault ty =>
      have hchild : ∀ {c}, _ → c ∈ (Node.tryCatch body handlers final fault ty).children :=
        Node.mem_children_tryCatch.mpr
      have hunder := (h body (hchild (.inl rfl))).under
      refine hR.tryCatch trivial (List.forall_mem_map.mpr fun k hk => ?_) (Option.forall_mem_map.mpr fun c hc => ?_)
        (fun _ => trivial) hunder (fun tail flag _ => ?_) (Option.forall_mem_map.mpr fun c hc => ?_)
        (hty _ List.mem_cons_self) trivial
      · have hmem : ∀ found ∈ k.test :: k.caught.toList.map (·.ty),
            found ∈ (Node.tryCatch body handlers final fault ty).types :=
          fun _ h => List.mem_cons_of_mem _ (List.mem_flatMap.mpr ⟨k, hk, h⟩)
        rw [List.forall_mem_cons, List.forall_mem_map] at hmem
        have hchildren := fun c hc => h c (hchild (.inr (.inl ⟨k, hk, hc⟩)))
        rw [List.forall_mem_append] at hchildren
        refine ⟨hty _ hmem.1, fun v hv => ?_, Option.forall_mem_map.mpr fun c hc => ?_,
          (hchildren.2 _ (List.mem_singleton_self _)).under⟩
        · have hv := Option.mem_toList.mpr hv
          exact hP.putVariable hn (List.mem_flatMap.mpr ⟨k, hk, hv⟩) (hmem.2 v hv)
        · exact (hchildren.1 c (Option.mem_toList.mpr hc)).value
      · exact (h c (hchild (.inr (.inr (.inl (Option.mem_toList.mpr hc)))))).under
      · exact hP.bind (hP.onFlow _) fun _ => hP.bind (hunder.body hR trivial trivial) fun _ =>
          hP.bind (hP.onFlow _) fun _ => hP.bind (hR.putLine _) fun _ => hR.pure _
      · exact (h c (hchild (.inr (.inr (.inr (Option.mem_toList.mpr hc)))))).under
    | _ => contradiction

theorem layer : (Tree.mk n).Satisfies P := by
  have hR := hP.congruent
  have hrendition : (Tree.mk n).rendition = (n.map Tree.piece).rendition := congrArg Prod.snd (Tree.piece_mk n)
  have hwrite : ∀ tail, P Tree ((Tree.mk n).alone.left.write tail) := fun tail =>
    (congrArg (fun r : Rendition => P Tree (r.write tail)) hrendition).mpr (hP.write hn h tail)
  refine ⟨⟨?_, ?_⟩, fun tail _ => hwrite tail, ?_⟩
  · have hclosure : P Tree (Tree.mk n).alone.left.closure :=
      hR.closure (hP.types hn _ List.mem_cons_self) (hP.inFunction (hwrite _))
    unfold Variants.left Piece.value
    split
    · exact hwrite .discard
    · exact hclosure
  · show (Tree.mk n).rendition.quoted = none ∧ _ ∨ _
    rw [hrendition]
    cases n with
    | lambda sig body =>
      exact .inr ⟨_, nofun, rfl, nofun, hP.arrow hn (h body (List.mem_singleton_self body))⟩
    | _ => exact .inl ⟨rfl, nofun⟩
  · show (Tree.mk n).rendition.branches = none ∧ _ ∨ _
    rw [hrendition]
    cases n with
    | conditional test ifTrue ifFalse ty =>
      simp only [Node.children, List.forall_mem_cons] at h
      obtain ⟨b, b', hb, -, halike⟩ :=
        hR.branches (A := fun _ => True) trivial h.1.value h.2.1.under h.2.2.1.under ty
      exact .inr ⟨b, b', hb, nofun, halike⟩
    | _ => exact .inl ⟨rfl, nofun⟩

end Layers

/-! ## Trees -/

theorem tree (t : Tree) (ht : ∀ s ∈ t.subtrees, W s.node) : t.Satisfies P := by
  induction t using Tree.induction with
  | step n ih =>
    refine hP.layer (ht _ (Tree.mem_subtrees_self _)) fun c hc => ?_
    exact ih c hc fun s hs => ht s (Tree.mem_subtrees_of_child hc hs)

/-- **A closed property holds of writing a tree.** -/
theorem writeRoot (t : Tree) (ht : ∀ s ∈ t.subtrees, W s.node) : P Tree t.writeRoot := by
  obtain ⟨n⟩ := t
  unfold Tree.writeRoot
  split
  · next sig body hnode =>
    change n = .lambda sig body at hnode
    subst hnode
    have hbody : body.Satisfies P :=
      hP.tree body fun s hs => ht s (Tree.mem_subtrees_of_child (List.mem_singleton_self body) hs)
    exact hP.read_bind fun _ => hP.method (ht _ (Tree.mem_subtrees_self _)) hbody _ _ _
  · exact (hP.tree _ ht).under.write _ trivial

end Property.Closed

end Scribe
