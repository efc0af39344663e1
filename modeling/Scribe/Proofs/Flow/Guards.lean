import Scribe.Proofs.Flow.Departure
import Scribe.Proofs.Tree.Rename
import Scribe.Proofs.Writing.Numbers
import Scribe.Proofs.Writing.Vetted

/-!
# The bodies that a jump leaves

The body of a try with a fault handler has a flag, which a jump out of the body clears. The flow knows the bodies around
and the labels in them, and a jump goes through them from inside until it finds its label.

`Tree.jump_clears_flags_left` says that this is right wherever a jump is written: the flags that it clears are those of
the bodies that hold its label nowhere, and each of them is cleared once. The bodies around are nested, so the first one
that holds the label is followed by others that do.
-/

namespace Scribe

open Writing
open Draft (LeadsTo Steady Onward)

/-! ## Labels of a tree -/

/-- The labels that a node itself defines: a label defines its own, and a loop both of its labels. -/
def Node.defines {α : Type} : Node α → List Ident
  | .label target _ => [target.id]
  | .loop _ exit again => (exit.toList ++ again.toList).map (·.id)
  | _ => []

theorem Tree.mem_labels_iff {t : Tree} {i : Ident} : i ∈ t.labels ↔ ∃ u ∈ t.subtrees, i ∈ u.node.defines := by
  induction t using Tree.induction with
  | step n ih =>
    have hlabels : (Tree.mk n).labels = n.defines ++ n.children.flatMap labels := by
      rw [labels_mk]
      cases n <;> rfl
    have hsubtrees : (Tree.mk n).subtrees = .mk n :: n.children.flatMap subtrees := by rw [subtrees, parts_mk]
    rw [hlabels, hsubtrees, List.mem_append, List.exists_mem_cons_iff]
    refine or_congr Iff.rfl ?_
    constructor
    · intro h
      obtain ⟨c, hc, hi⟩ := List.mem_flatMap.mp h
      obtain ⟨u, hu, hi⟩ := (ih c hc).mp hi
      exact ⟨u, List.mem_flatMap.mpr ⟨c, hc, hu⟩, hi⟩
    · rintro ⟨u, hu, hi⟩
      obtain ⟨c, hc, hu⟩ := List.mem_flatMap.mp hu
      exact List.mem_flatMap.mpr ⟨c, hc, (ih c hc).mpr ⟨u, hu, hi⟩⟩

/-! ## Nested bodies -/

namespace Site

/-- The flags of all bodies around. -/
def flags (s : Site) : List String := s.guards.map Prod.fst

/-- The flags of the bodies around that hold the label nowhere. -/
def flagsLeft (s : Site) (target : Ident) : List String :=
  (s.guards.filter fun g => ∀ u ∈ g.2.subtrees, target ∉ u.node.defines).map Prod.fst

variable {s : Site} {t : Tree}

theorem Around.mem_subtrees (h : s.Around t) : ∀ g ∈ s.guards, t ∈ g.2.subtrees := by
  induction s generalizing t with
  | nil => nofun
  | cons enclosure s ih =>
    cases enclosure with
    | guarded flag body =>
      intro g hg
      rcases List.mem_cons.mp hg with rfl | hg
      · exact h.1
      · exact Tree.mem_subtrees_trans (ih h.2 g hg) h.1
    | loop exit again | switch => exact ih h

theorem Around.nested (h : s.Around t) : s.guards.Pairwise fun inner outer => inner.2 ∈ outer.2.subtrees := by
  induction s generalizing t with
  | nil => exact .nil
  | cons enclosure s ih =>
    cases enclosure with
    | guarded flag body => exact .cons h.2.mem_subtrees (ih h.2)
    | loop exit again | switch => exact ih h

end Site

/-- What fails once and fails from then on is filtered by going on while it holds. -/
theorem takeWhile_eq_filter {α : Type} {p : α → Bool} {as : List α}
    (h : as.Pairwise fun a b => p b = true → p a = true) : as.takeWhile p = as.filter p := by
  induction as with
  | nil => rfl
  | cons a as ih =>
    obtain ⟨hhead, htail⟩ := List.pairwise_cons.mp h
    by_cases ha : p a = true
    · rw [List.takeWhile_cons_of_pos ha, List.filter_cons_of_pos ha, ih htail]
    · have hnone : as.filter p = [] := List.filter_eq_nil_iff.mpr fun b hb hpb => ha (hhead b hb hpb)
      rw [List.takeWhile_cons_of_neg ha, List.filter_cons_of_neg ha, hnone]

/-! ## What the flow knows -/

/-- The flow knows the bodies with a fault handler around, and each of them has a flag of its own. -/
structure Site.Known (s : Site) (d : Draft) : Prop where
  faults : d.flow.faults = s.guards.map fun g => ⟨g.1, g.2.labels⟩
  distinct : s.flags.Nodup
  numbered : ∀ flag ∈ s.flags, ∃ k ≤ d.naming.lastNumber "fault", flag = "fault" ++ toString k

namespace Site.Known

variable {s : Site} {d e : Draft} {desk : Desk}

/-- Nothing changes while the bodies around are the same and names are only added. -/
theorem of_grows (h : s.Known d) (hfaults : e.flow.faults = d.flow.faults) (hgrows : d.naming.Grows e.naming) :
    s.Known e where
  faults := hfaults.trans h.faults
  distinct := h.distinct
  numbered flag hflag := by
    obtain ⟨k, hk, hname⟩ := h.numbered flag hflag
    exact ⟨k, Nat.le_trans hk (hgrows _), hname⟩

theorem steady (desk : Desk) (s : Site) : Steady desk s.Known where
  stable _ _ h hstep := h.of_grows hstep.faults hstep.fields.2.1
  page _ _ h := h.of_grows rfl (.refl _)
  passages _ _ h := h.of_grows rfl (.refl _)

/-- The flag of a try is new. -/
theorem guarded {body : Tree} (h : s.Known d)
    (he : Onward desk { d with naming := (d.naming.fresh "fault").2 } e) :
    Known (.guarded (d.naming.fresh "fault").1 body :: s) (e.guard ⟨(d.naming.fresh "fault").1, body.labels⟩) := by
  have hknown : s.Known e := he _ (steady desk s) (h.of_grows rfl (d.naming.grows_fresh _))
  have hlast : d.naming.lastNumber "fault" + 1 ≤ e.naming.lastNumber "fault" := by
    rw [← Naming.lastNumber_fresh]
    refine he (fun m => (d.naming.fresh "fault").2.lastNumber "fault" ≤ m.naming.lastNumber "fault") ⟨?_, ?_, ?_⟩ ?_
    · exact fun m m' hm hstep => Nat.le_trans hm (hstep.fields.2.1 _)
    · exact fun m p hm => hm
    · exact fun m gs hm => hm
    · exact Nat.le_refl _
  constructor
  · exact congrArg _ hknown.faults
  · refine List.nodup_cons.mpr ⟨fun hflag => ?_, h.distinct⟩
    obtain ⟨k, hk, hname⟩ := h.numbered _ hflag
    have hnumber : d.naming.lastNumber "fault" + 1 = k := Naming.numbered_injective hname
    omega
  · intro flag hflag
    rcases List.mem_cons.mp hflag with rfl | hflag
    · exact ⟨_, hlast, rfl⟩
    · exact hknown.numbered flag hflag

theorem start (p : Text.Page) : Known [] { page := p } := ⟨rfl, .nil, nofun⟩

theorem invariant (desk : Desk) : Invariant desk Known where
  steady := steady desk
  loop _ _ h := ⟨h.faults, h.distinct, h.numbered⟩
  switch h := ⟨h.faults, h.distinct, h.numbered⟩
  guarded _ h he := h.guarded he
  function _ := ⟨rfl, .nil, nofun⟩
  method h := h.of_grows rfl (.refl _)

theorem flagsLeft_none (h : s.Known d) : d.flow.flagsLeft none = s.flags := by
  unfold Flow.flagsLeft Site.flags
  rw [h.faults, takeWhile_eq_filter (List.pairwise_of_forall fun _ _ _ => rfl)]
  simp

/-- The flags in front of the first body that holds the label are those of all bodies that do not. -/
theorem flagsLeft_some {t : Tree} (h : s.Known d) (haround : s.Around t) (target : Ident) :
    d.flow.flagsLeft (some target) = s.flagsLeft target := by
  have hholds (g : String × Tree) :
      (!g.2.labels.contains target) = decide (∀ u ∈ g.2.subtrees, target ∉ u.node.defines) := by
    rw [Bool.eq_iff_iff, decide_eq_true_iff, Bool.not_eq_true', ← Bool.not_eq_true, List.contains_iff_mem,
      Tree.mem_labels_iff]
    simp only [not_exists, not_and]
  have hmono : s.guards.Pairwise fun inner outer =>
      decide (∀ u ∈ outer.2.subtrees, target ∉ u.node.defines) = true →
      decide (∀ u ∈ inner.2.subtrees, target ∉ u.node.defines) = true := by
    refine haround.nested.imp fun hsub => ?_
    simp only [decide_eq_true_eq]
    exact fun houter u hu => houter u (Tree.mem_subtrees_trans hsub hu)
  unfold Flow.flagsLeft Site.flagsLeft
  rw [h.faults, List.takeWhile_map, List.map_map, ← takeWhile_eq_filter hmono]
  simp only [Function.comp_def, hholds]

end Site.Known

/-! ## The flag of a try -/

/-- Behind `start`, the page holds the parts in this order, and whatever is between them. -/
def Draft.InOrder (start : String) : List String → Draft → Prop
  | [], d => ∃ s, d.page.text = start ++ s
  | part :: parts, d => ∃ s, InOrder (start ++ s ++ part) parts d

namespace Draft.InOrder

variable {desk : Desk} {start : String} {parts : List String} {d e : Draft}

theorem more (h : InOrder start parts d) (hmore : ∃ s, e.page.text = d.page.text ++ s) : InOrder start parts e := by
  induction parts generalizing start with
  | nil =>
    obtain ⟨s, hs⟩ := h
    obtain ⟨s', hs'⟩ := hmore
    exact ⟨s ++ s', by rw [hs', hs, String.append_assoc]⟩
  | cons part parts ih =>
    obtain ⟨s, hs⟩ := h
    exact ⟨s, ih hs⟩

theorem stable (desk : Desk) (start : String) (parts : List String) : Stable desk (InOrder start parts) :=
  fun _ _ h hstep => h.more hstep.text

theorem snoc {part : String} (h : InOrder start parts d) (hpart : ∃ s, e.page.text = d.page.text ++ s ++ part) :
    InOrder start (parts ++ [part]) e := by
  induction parts generalizing start with
  | nil =>
    obtain ⟨s, hs⟩ := h
    obtain ⟨s', hs'⟩ := hpart
    exact ⟨s ++ s', "", by rw [hs', hs, String.append_empty, ← String.append_assoc]⟩
  | cons other parts ih =>
    obtain ⟨s, hs⟩ := h
    exact ⟨s, ih hs⟩

end Draft.InOrder

namespace Writing

open Draft (InOrder)

variable {desk : Desk} {start : String} {parts : List String}

theorem putLine_inOrder {part : String} (hne : part ≠ "") :
    Takes desk (InOrder start parts) (putLine part) (InOrder start (parts ++ [part])) := by
  intro d u e hd h
  cases h
  obtain ⟨s, hs⟩ := d.page.exists_newline_text
  refine hd.snoc ⟨s ++ d.page.margin, ?_⟩
  show (d.page.writeLine part).text = _
  rw [Text.Page.writeLine_text hne, hs]
  simp only [String.append_assoc]

theorem openBrace_inOrder : Takes desk (InOrder start parts) openBrace (InOrder start parts) := by
  intro d u e hd h
  obtain ⟨m, hm, hleads⟩ := openBrace_takes (InOrder.stable desk start parts) d u e hd h
  exact hm.more hleads.text

theorem closeBrace_inOrder : Takes desk (InOrder start parts) closeBrace (InOrder start parts) := by
  intro d u e hd h
  cases h
  have hline : LeadsTo desk { d with page := d.page.dedent } _ := putLine_stepwise "\x7d" _ () _ rfl
  exact hd.more hline.text

variable {p fault : Piece} {handlers : List (Handler Piece)} {final : Option Piece}

/-- The `finally` looks at the flag. -/
theorem finallyPart_inOrder (hfinal : ∀ p ∈ final, p.Steps desk) (hfault : fault.Steps desk) (flag : String) :
    Takes desk (InOrder start parts) (finallyPart final (some fault) flag)
      (InOrder start (parts ++ ["if (" ++ flag ++ ")"])) := by
  have hstable (parts : List String) := InOrder.stable desk start parts
  have hcondition : (final.isNone && (some fault).isNone) = false := by simp
  have hrest (t : Option Tree) : Takes desk (InOrder start parts)
      (do putLine ("if (" ++ flag ++ ")"); let u ← fault.bracedBody .discard; let r ← pure (some u); closeBrace
          pure (t, r) : Writing (Option Tree × Option Tree)) (InOrder start (parts ++ ["if (" ++ flag ++ ")"])) := by
    refine .bind (putLine_inOrder (by simp)) fun _ => ?_
    refine .bind ((Piece.bracedBody_stepwise hfault _).takes (hstable _)) fun _ => .bind (.pure _) fun _ => ?_
    exact .map closeBrace_inOrder
  unfold finallyPart
  simp only [hcondition, Bool.false_eq_true, if_false]
  refine .bind ((putLine_stepwise _).takes (hstable _)) fun _ => .bind openBrace_inOrder fun _ => ?_
  cases final with
  | some q => exact .bind ((Piece.body_stepwise (hfinal q rfl) _).takes (hstable _)) fun _ => .bind (.pure _) hrest
  | none => exact .bind (.pure _) hrest

section Try

variable (hp : p.Steps desk) (hhandlers : ∀ h ∈ handlers, (∀ p ∈ h.filter, p.Steps desk) ∧ h.body.Steps desk)
  (hfinal : ∀ p ∈ final, p.Steps desk) (hfault : fault.Steps desk)

include hp hhandlers hfinal hfault

theorem faultTry_inOrder (ty : Ty) (tail : Tail) (flag : String) :
    Takes desk (InOrder start []) (faultTry p handlers final fault ty tail flag)
      (InOrder start ["bool " ++ flag ++ " = true;", "if (" ++ flag ++ ")"]) := by
  have hstable := InOrder.stable desk start ["bool " ++ flag ++ " = true;"]
  refine .bind (putLine_inOrder (by simp)) fun _ => .bind ((tryBody_stepwise hp tail _).takes hstable) fun _ => ?_
  refine .bind (Stepwise.takes (.mapM fun h hm => handler_stepwise tail (hhandlers h hm).1 (hhandlers h hm).2) hstable)
    fun _ => ?_
  exact .map (finallyPart_inOrder hfinal hfault flag)

/-- A try with a fault handler declares its flag, and looks at it in the end. -/
theorem tryCatch_inOrder {d e : Draft} {u : Tree} {ty : Ty} {tail : Tail}
    (h : tryCatch p handlers final (some fault) ty tail desk d = .ok (u, e)) :
    InOrder d.page.text
      ["bool " ++ (d.naming.fresh "fault").1 ++ " = true;", "if (" ++ (d.naming.fresh "fault").1 ++ ")"] e := by
  obtain ⟨flag, m, hflag, h⟩ := bind_eq_ok.mp h
  cases hflag
  have hstart : InOrder d.page.text [] { d with naming := (d.naming.fresh "fault").2 } :=
    ⟨"", String.append_empty.symm⟩
  have hstable (parts : List String) := InOrder.stable desk d.page.text parts
  revert h
  generalize tail.atType ty = handsOn
  cases handsOn with
  | discard | assign name => exact faultTry_inOrder hp hhandlers hfinal hfault ty _ _ _ u e hstart
  | result =>
    refine Takes.bind ((fresh_inline _).stepwise.takes (hstable _)) (fun kept => ?_) _ u e hstart
    refine .bind (newline_stepwise.takes (hstable _)) fun _ => ?_
    refine .bind ((putType_inline ty).stepwise.takes (hstable _)) fun _ => ?_
    refine .bind ((put_inline _).stepwise.takes (hstable _)) fun _ => ?_
    refine .bind (faultTry_inOrder hp hhandlers hfinal hfault ty _ _) fun _ => ?_
    exact .map ((putLine_stepwise _).takes (hstable _))

end Try

end Writing

/-! ## Jumps -/

namespace Draft

variable (desk : Desk) (target : Label) (value : Option Piece) (flags : List String) (d e : Draft)

/-- From `d` to `e` a `break`, a `continue` or a `goto` is written, and in front of it the lines that clear these flags.
The value is dropped, or is a statement in front of those. -/
def GoesTo : Prop :=
  ∃ lead form name, d.Clears flags lead (JumpForm.word name form) e ∧
    (lead = "" ∨ ∃ v m, lead = d.flow.leadTo target ++ v ++ d.page.lineEnd ∧
      Supplies desk value target.ty { d with page := d.page.write (d.flow.leadTo target) } v m)

/-- From `d` to `e` a `return` is written, and in front of it the lines that clear these flags. The value goes on with
the line. -/
def Returns : Prop :=
  ∃ w, d.Clears flags "" ("return" ++ w) e ∧
    (w = "" ∨ ∃ v, w = " " ++ v ∧
      Supplies desk value target.ty { d with page := (d.page.cleared flags).write "return " } v e)

end Draft

namespace Writing

variable {desk : Desk} {d e : Draft} {kind : JumpKind} {target : Label} {value : Option Piece} {u : Tree}
  (hvalue : ∀ p ∈ value, p.Steps desk)

include hvalue

theorem jump_goesTo (hreturns : ¬d.flow.Returns kind target) (h : jump kind target value desk d = .ok (u, e)) :
    d.GoesTo desk target value (d.flow.flagsLeft (some target.id)) e := by
  have hresult : d.flow.takers.lookup target.id ≠ some .result := fun hresult => hreturns (.inl hresult)
  by_cases hassign : ∃ name, d.flow.takers.lookup target.id = some (.assign name)
  · obtain ⟨name, hname⟩ := hassign
    obtain ⟨v, m, hclears, hsupplies⟩ := jump_assigns hvalue hname h
    rw [← Flow.leadTo_of_assign hname] at hclears hsupplies
    exact ⟨_, _, _, hclears, .inr ⟨v, m, rfl, hsupplies⟩⟩
  · rw [not_exists] at hassign
    have hkind : kind ≠ .returnTo := fun hkind => hreturns (.inr ⟨hkind, hassign⟩)
    by_cases heffect : ∀ p ∈ value, p.tree.node.isEffect = false
    · exact ⟨"", _, _, jump_goes hresult hassign hkind heffect h, .inl rfl⟩
    · simp only [not_forall, Bool.not_eq_false] at heffect
      obtain ⟨p, rfl, heffect⟩ := heffect
      obtain ⟨v, m, hclears, hevaluates⟩ := jump_effects hresult hassign hkind (hvalue p rfl) heffect h
      refine ⟨_, _, _, hclears, .inr ⟨v, m, ?_, ?_⟩⟩
      · rw [Flow.leadTo_of_not_assign hassign, String.empty_append]
      · rw [Flow.leadTo_of_not_assign hassign, Text.Page.write_empty]
        exact ⟨hevaluates.run, hevaluates.text⟩

end Writing

/-- What is checked where a jump is written: it clears the flags of the bodies that hold its label nowhere, or, when it
is written as a `return`, those of all bodies around; no two of them are the same. Where a try with a fault handler is
written, its flag is declared, and is looked at in the end. -/
def clearsFlagsLeft (desk : Desk) : Check := fun s n _ d e =>
  match n with
  | .jump kind target value _ =>
    s.flags.Nodup ∧
    (¬d.flow.Returns kind target → d.GoesTo desk target (value.map Tree.piece) (s.flagsLeft target.id) e) ∧
    (d.flow.Returns kind target → d.Returns desk target (value.map Tree.piece) s.flags e)
  | .tryCatch _ _ _ (some _) _ =>
    Draft.InOrder d.page.text
      ["bool " ++ (d.naming.fresh "fault").1 ++ " = true;", "if (" ++ (d.naming.fresh "fault").1 ++ ")"] e
  | _ => True

theorem Tree.steps_of_mem_map (t : Option Tree) (desk : Desk) : ∀ p ∈ t.map Tree.piece, p.Steps desk := by
  intro p hp
  obtain ⟨c, -, rfl⟩ := Option.map_eq_some_iff.mp hp
  exact c.steps

/-- Where the flow knows the bodies around, the check is passed. -/
theorem Site.Known.passes {s : Site} {n : Node Tree} {tail : Tail} {desk : Desk} {d e : Draft} {u : Tree}
    (h : s.Known d) (haround : s.Around (.mk n)) (hrun : (Tree.mk n).piece.write tail desk d = .ok (u, e)) :
    clearsFlagsLeft desk s n tail d e := by
  rw [Tree.piece_mk] at hrun
  unfold clearsFlagsLeft
  split
  · next kind target value ty =>
    have hjump : jump kind target (value.map Tree.piece) desk d = .ok (u, e) := hrun
    have hvalue := Tree.steps_of_mem_map value desk
    refine ⟨h.distinct, ?_⟩
    rw [← h.flagsLeft_some haround, ← h.flagsLeft_none]
    refine ⟨fun hreturns => jump_goesTo hvalue hreturns hjump, fun hreturns => ?_⟩
    obtain ⟨w, hclears, ⟨-, hw⟩ | hsupplies⟩ := jump_returns hvalue hreturns hjump
    · exact ⟨w, hclears, .inl hw⟩
    · exact ⟨w, hclears, .inr hsupplies⟩
  · next body handlers final fault ty =>
    refine tryCatch_inOrder body.steps ?_ (Tree.steps_of_mem_map final desk) fault.steps hrun
    intro k hk
    obtain ⟨k, -, rfl⟩ := List.mem_map.mp hk
    exact ⟨Tree.steps_of_mem_map k.filter desk, k.body.steps⟩
  · trivial

/-- **A jump clears the flags of the bodies that it leaves.** Wherever a tree writes a jump as a `break`, a `continue`
or a `goto`, the flags in front of it are those of the bodies with a fault handler, around it in its function, that hold
its label nowhere: the innermost first, and each once. Where it is written as a `return`, they are those of all the
bodies around it in its function. -/
theorem Tree.jump_clears_flags_left (t : Tree) (desk : Desk) : t.Upholds desk (clearsFlagsLeft desk) :=
  t.upholds (Site.Known.invariant desk) (fun haround _ h hrun => h.passes haround hrun) (.start _)

-- Two bodies with a fault handler, one inside the other: `near` is a label of the outer body, and `far` is in neither.
example :
    let near : Label := { id := .given "near", ty := .void }
    let inner : Tree := .jump .goto near none
    let outer : Tree := .mk (.block [] [inner, .mk (.label near none)] .void)
    let s : Site := [.guarded "fault2" inner, .switch, .guarded "fault1" outer]
    s.flagsLeft near.id = ["fault2"] ∧ s.flagsLeft (.given "far") = ["fault2", "fault1"] := by
  decide

end Scribe
