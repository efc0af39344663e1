import Scribe.Proofs.Tree.Position
import Scribe.Proofs.Writing.Follow.Tree
import Scribe.Proofs.Writing.Step.Sign
import Scribe.Script.Basic

/-!
# Watching a node being written

A tree is written as ever, but each time the node at some address is written and is an action, the pages before and
after it are noted. A note is kept as a passage; where there is no document, there are no other passages, and nothing
reads them while a script is written.

That a run is the same with notes and without is `Tree.watch_follows`. It also says where the notes are, that there is
one when the address leads through children that are written for certain, and how many there are at most.
-/

namespace Scribe

-- sums and powers are those of the core library, whatever else is imported
attribute [local instance (2000)] Zero.ofOfNat0 instPowNat

open Writing Couple

/-! ## Taking notes -/

/-- Takes note of the pages before and after a step. -/
def Writing.noting (x : Writing Tree) : Writing Tree := do
  let start ← page
  let t ← x
  let stop ← page
  modify fun d => { d with passages := d.passages ++ [⟨.test, start, stop⟩] }
  return t

/-- The rendition, with a note each time it is used. -/
def Rendition.noted (r : Rendition) : Rendition := { r with write := fun tail => noting (r.write tail) }

/-- The ways of writing a tree, with notes of the node at the address; `left` is what is left of its path. -/
def Tree.watched (a : Address) (t : Tree) : Option (List Nat) → Rendition :=
  t.fold fun n left =>
    let r := (n.number.map fun c => (c.1.1, c.1.2 (a.next n left c.2))).rendition
    if left = some [] ∧ n.isAction = true then r.noted else r

theorem Tree.watched_mk (a : Address) (n : Node Tree) (left : Option (List Nat)) :
    (Tree.mk n).watched a left =
      let r := (n.number.map fun c => (c.1, c.1.watched a (a.next n left c.2))).rendition
      if left = some [] ∧ n.isAction = true then r.noted else r := by
  rw [watched, fold_mk]
  simp only [Node.isAction_map, Node.number_map, Node.map_map, Address.next_map]
  rfl

/-- Writes a tree as a whole, with notes of the node at the address. -/
def Tree.watchRoot (a : Address) (t : Tree) : Writing Tree :=
  match t.node with
  | .lambda sig body => entryMethod sig (body, body.watched a (a.enter (some sig.id)))
  | _ => (t.watched a (a.enter none)).write .discard

/-- The draft of a tree without a document, with a note for each time the node at the address is written. -/
def Tree.watch (t : Tree) (a : Address) (w : Wrapper) : Except ScriptError (Tree × Draft) :=
  let desk : Desk := ⟨{ w with document := none }, {}⟩
  ((t.watchRoot a).run desk).run { page := desk.firstPage }

/-! ## What is known of the notes -/

/-- Whether a note is taken for certain. -/
def Tree.meets (a : Address) (t : Tree) : Option (List Nat) → Prop :=
  t.fold fun n left => (left = some [] ∧ n.isAction = true) ∨
    ∃ c ∈ n.number.kept fun c => c.1.1, c.1.2 (a.next n left c.2)

/-- How many notes are taken at most. -/
def Tree.count (a : Address) (t : Tree) : Option (List Nat) → Nat :=
  t.fold fun n left => (if left = some [] ∧ n.isAction = true then 1 else 0) +
    (n.number.writings.map fun c => c.1.2 (a.next n left c.2)).sum

theorem Tree.meets_mk (a : Address) (n : Node Tree) (left : Option (List Nat)) :
    (Tree.mk n).meets a left ↔ (left = some [] ∧ n.isAction = true) ∨
      ∃ c ∈ n.number.kept Prod.fst, c.1.meets a (a.next n left c.2) := by
  rw [meets, fold_mk]
  simp only [Node.isAction_map, Node.number_map, Node.kept_map, Address.next_map]
  refine or_congr_right ⟨?_, ?_⟩
  · rintro ⟨_, hmem, hmeets⟩
    obtain ⟨c, hc, rfl⟩ := List.mem_map.mp hmem
    exact ⟨c, hc, hmeets⟩
  · rintro ⟨c, hc, hmeets⟩
    exact ⟨_, List.mem_map_of_mem hc, hmeets⟩

theorem Tree.count_mk (a : Address) (n : Node Tree) (left : Option (List Nat)) :
    (Tree.mk n).count a left = (if left = some [] ∧ n.isAction = true then 1 else 0) +
      (n.number.writings.map fun c => c.1.count a (a.next n left c.2)).sum := by
  rw [count, fold_mk]
  simp only [Node.isAction_map, Node.number_map, Node.writings_map, Address.next_map, List.map_map]
  rfl

/-- A tree with and without notes of the node at the address. -/
def Tree.watchedCouple (a : Address) (left : Option (List Nat)) (t : Tree) : Couple where
  tree := t
  first := t.rendition
  second := t.watched a left
  must := t.meets a left
  most := t.count a left

/-- Whether there is a lambda of the identity in the tree that holds something to be noted. -/
def Tree.Holds (t : Tree) (a : Address) (id : Ident) : Prop :=
  ∃ sig body, Tree.mk (.lambda sig body) ∈ t.subtrees ∧ sig.id = id ∧ body.meets a (a.enter (some id))

theorem Tree.LambdasCoherent.holds_iff {t : Tree} (h : t.LambdasCoherent) {a : Address} {sig : Signature} {body : Tree}
    (hmem : Tree.mk (.lambda sig body) ∈ t.subtrees) : t.Holds a sig.id ↔ body.meets a (a.enter (some sig.id)) := by
  refine ⟨?_, fun hmeets => ⟨sig, body, hmem, rfl, hmeets⟩⟩
  rintro ⟨sig', body', hmem', hid, hmeets⟩
  rwa [h sig body sig' body' hmem hmem' hid.symm]

/-- Notes are taken of the node at the address, while the tree is written as ever. -/
def Comparison.watching (w : Wrapper) (t : Tree) (a : Address) : Comparison where
  desk := ⟨{ w with document := none }, {}⟩
  keys := .none
  injective := Renaming.injective_none
  watches := True
  unmarked _ := rfl
  holds := t.Holds a
  shows text := ∃ s, t.Finds a s ∧ Text.Occurs s.node.sign text

variable {c : Comparison} {p q : Couple}

theorem Writing.noting_follows {ls ms : List Couple} {φ : Tree → Tree} {x y : Writing Tree} (hw : c.watches)
    (h : Follows c ls ms φ x y) (hmost : (ms.map (·.most)).sum + 1 ≤ p.most)
    (hshows : ∀ d t e, x c.desk d = .ok (t, e) → ∃ s, c.shows s ∧ e.page.text = d.page.text ++ s) :
    Copies c [p] φ x (noting y) := by
  intro d gs hfits
  have hrun := h d gs hfits
  unfold FollowsFrom at hrun ⊢
  simp only [noting, bind_apply, page_apply]
  cases hresult : x c.desk d with
  | error err =>
    rw [hresult] at hrun
    simp only [hrun]
  | ok r =>
    obtain ⟨a, e⟩ := r
    rw [hresult] at hrun
    obtain ⟨notes, hy, hfits', hgrows, hnotes⟩ := hrun
    have hn := hnotes hw
    refine ⟨notes ++ [⟨.test, d.page, e.page⟩], ?_, ?_, hgrows, fun _ => ⟨by simp, ?_, ?_, ?_⟩⟩
    · simp only [hy, modify_apply, pure_apply, ← List.append_assoc]
      rfl
    · exact ⟨fun hnot => absurd hw hnot, by simp⟩
    · have hlength := hn.most
      simp only [List.length_append, List.length_singleton, List.map_cons, List.map_nil, List.sum_cons, List.sum_nil]
      omega
    · rw [List.forall_mem_append, List.forall_mem_singleton]
      exact ⟨hn.covers, hshows d a e hresult⟩
    · rw [List.forall_mem_append, List.forall_mem_singleton]
      exact ⟨hn.placed, Or.inl ⟨"", String.append_empty.symm⟩⟩

/-- An action may be noted when it is written. -/
theorem Couple.Over.noted_sound {n : Node Couple} (h : p.Over c n) (hn : ∀ q ∈ n.children, q.Sound c) (hw : c.watches)
    (haction : n.isAction = true) (htree : q.tree = p.tree) (hfirst : q.first = p.first)
    (hsecond : q.second = p.second.noted) (hmost : p.most + 1 ≤ q.most)
    (hshows : ∀ tail d t e, p.first.write tail c.desk d = .ok (t, e) →
      ∃ s, c.shows s ∧ e.page.text = d.page.text ++ s) : q.Sound c where
  idle _ := by
    rw [htree, h.tree]
    exact Tree.isIdle_of_isAction ((n.isAction_map _).trans haction)
  write tail := by
    have hwrite := (h.sound hn).write tail
    have hnoted := noting_follows hw hwrite (p := q) (by simpa using hmost) (hshows tail)
    rw [Couple.left, Couple.right, htree, hfirst, hsecond]
    exact hnoted
  branches := by
    rw [hfirst, hsecond, Rendition.noted, h.first, h.second]
    cases n
    case binary | unary | call | invoke => trivial
    all_goals cases haction
  quoted := by
    rw [hfirst, hsecond, Rendition.noted, h.first, h.second]
    cases n
    case binary | unary | call | invoke => trivial
    all_goals cases haction

/-! ## The watched tree -/

/-- The layer of the couples of the children. -/
def Node.watchedCouples (a : Address) (left : Option (List Nat)) (n : Node Tree) : Node Couple :=
  n.number.map fun c => c.1.watchedCouple a (a.next n left c.2)

/-- The couple of a layer without a note of the layer itself. -/
def Node.unnotedCouple (a : Address) (left : Option (List Nat)) (n : Node Tree) : Couple where
  tree := .mk n
  first := (Tree.mk n).rendition
  second := (n.number.map fun c => (c.1, c.1.watched a (a.next n left c.2))).rendition
  must := ∃ q ∈ (n.watchedCouples a left).kept Couple.tree, q.must
  most := ((n.watchedCouples a left).writings.map (·.most)).sum

variable {w : Wrapper} {t r : Tree} {a : Address} {left : Option (List Nat)} {n : Node Tree}

theorem Node.must_watchedCouples (h : ∃ c ∈ n.number.kept Prod.fst, c.1.meets a (a.next n left c.2)) :
    ∃ q ∈ (n.watchedCouples a left).kept Couple.tree, q.must := by
  obtain ⟨c, hc, hmeets⟩ := h
  refine ⟨c.1.watchedCouple a (a.next n left c.2), ?_, hmeets⟩
  rw [watchedCouples, Node.kept_map]
  exact List.mem_map_of_mem (f := fun c => c.1.watchedCouple a (a.next n left c.2)) hc

theorem Node.count_unnotedCouple : (Tree.mk n).count a left =
    (n.unnotedCouple a left).most + if left = some [] ∧ n.isAction = true then 1 else 0 := by
  have hsum : (n.unnotedCouple a left).most =
      (n.number.writings.map fun c => c.1.count a (a.next n left c.2)).sum := by
    rw [unnotedCouple, watchedCouples, Node.writings_map, List.map_map]
    rfl
  rw [Tree.count_mk, hsum, Nat.add_comm]

theorem Node.unnotedCouple_over (h : t.LambdasCoherent) (hmem : Tree.mk n ∈ t.subtrees) :
    (n.unnotedCouple a left).Over (.watching w t a) (n.watchedCouples a left) := by
  refine ⟨?_, ?_, ?_, id, Nat.le_refl _, ?_⟩
  · rw [watchedCouples, Node.map_map]
    exact congrArg Tree.mk n.map_number.symm
  · have hpieces : (n.watchedCouples a left).map Couple.left = n.map Tree.piece := by
      rw [watchedCouples, Node.map_map, ← congrArg (Node.map Tree.piece) n.map_number, Node.map_map]
      rfl
    rw [hpieces]
    exact congrArg Prod.snd (Tree.piece_mk n)
  · have hpieces : (n.watchedCouples a left).map (Couple.right .none) =
        n.number.map fun c => (c.1, c.1.watched a (a.next n left c.2)) := by
      rw [watchedCouples, Node.map_map]
      refine Node.map_congr fun c _ => ?_
      exact congrArg (·, _) c.1.rename_none
    exact (congrArg Node.rendition ((Node.relabel_none _).trans hpieces)).symm
  · intro sig body hbody _
    cases n <;> cases hbody
    exact h.holds_iff hmem

/-- The run with notes follows the run without. -/
theorem Tree.watchedCouple_sound (h : t.LambdasCoherent) (hr : r ∈ t.subtrees)
    (hleft : ∀ path ∈ left, ∀ s ∈ r.follow path, t.Finds a s) : (r.watchedCouple a left).Sound (.watching w t a) := by
  induction r using Tree.induction generalizing left with
  | step n ih =>
    have hover : (n.unnotedCouple a left).Over (.watching w t a) (n.watchedCouples a left) :=
      n.unnotedCouple_over h hr
    have hchildren : ∀ q ∈ (n.watchedCouples a left).children, q.Sound (.watching w t a) := by
      intro q hq
      rw [Node.watchedCouples, Node.children_map, Node.children_number] at hq
      obtain ⟨⟨c, i⟩, hc, rfl⟩ := List.mem_map.mp hq
      have hget : n.children[i]? = some c := List.mem_zipIdx_iff_getElem?.mp hc
      have hmem : c ∈ n.children := List.mem_of_getElem? hget
      refine ih c hmem (mem_subtrees_child hr hmem) fun path hpath s hs => ?_
      obtain ⟨sig, body, rfl, hlambda, rfl⟩ | rfl := Address.of_mem_next hpath
      · obtain rfl : c = body := List.mem_singleton.mp hmem
        exact Or.inr ⟨sig, c, hr, hlambda, hs⟩
      · exact hleft (i :: path) rfl s ((follow_cons hget path).trans hs)
    -- a note is taken where the path ends, and for actions only
    by_cases hnoted : left = some [] ∧ n.isAction = true
    · refine hover.noted_sound hchildren trivial ?_ rfl rfl ?_ ?_ fun tail d _ e hwrite => ?_
      · rw [Node.watchedCouples, Node.isAction_map, ← n.number.isAction_map Prod.fst, n.map_number]
        exact hnoted.2
      · exact (watched_mk a n left).trans (if_pos hnoted)
      · exact Nat.le_of_eq (by rw [watchedCouple, Node.count_unnotedCouple, if_pos hnoted])
      · obtain ⟨text, hsign, htext⟩ := write_shows hnoted.2 tail d _ e (.refl d) hwrite
        exact ⟨text, ⟨.mk n, hleft [] hnoted.1 _ rfl, hsign⟩, htext⟩
    · have hsecond : (Tree.mk n).watched a left = (n.unnotedCouple a left).second :=
        (watched_mk a n left).trans (if_neg hnoted)
      have hover' : ((Tree.mk n).watchedCouple a left).Over (.watching w t a) (n.watchedCouples a left) := by
        refine ⟨hover.tree, hover.first, hsecond.trans hover.second, fun hmeets => ?_, ?_, hover.holds⟩
        · exact Node.must_watchedCouples (((meets_mk a n left).mp hmeets).resolve_left hnoted)
        · refine Nat.le_of_eq ?_
          rw [watchedCouple, Node.count_unnotedCouple, if_neg hnoted]
          rfl
      exact hover'.sound hchildren

/-! ## Whole runs -/

namespace Tree

theorem meets_lambda (sig : Signature) (body : Tree) :
    (Tree.mk (.lambda sig body)).meets a left ↔ body.meets a (a.enter (some sig.id)) := by
  rw [meets_mk]
  simp [Node.isAction, Node.number, Node.kept, Node.children, Address.next]

theorem count_lambda (sig : Signature) (body : Tree) :
    (Tree.mk (.lambda sig body)).count a left = body.count a (a.enter (some sig.id)) := by
  rw [count_mk]
  simp [Node.isAction, Node.number, Node.writings, Node.children, Address.next]

/-- A tree is written as a whole alike with and without notes. -/
theorem watchRoot_follows (h : t.LambdasCoherent) (a : Address) (w : Wrapper) :
    Follows (.watching w t a) [t.watchedCouple a (a.enter none)] [t.watchedCouple a (a.enter none)]
      (rename .none) t.writeRoot (t.watchRoot a) := by
  have hsound : (t.watchedCouple a (a.enter none)).Sound (.watching w t a) := by
    refine watchedCouple_sound h t.mem_subtrees_self fun path hpath s hs => ?_
    obtain ⟨hlambda, rfl⟩ := Address.mem_enter.mp hpath
    exact Or.inl ⟨hlambda, hs⟩
  obtain ⟨n⟩ := t
  have hinline : Follows (.watching w (.mk n) a) [(Tree.mk n).watchedCouple a (a.enter none)]
      [(Tree.mk n).watchedCouple a (a.enter none)] (rename .none) (Tree.mk n).piece.inline
      (((Tree.mk n).watched a (a.enter none)).write .discard) :=
    hsound.write .discard
  unfold writeRoot watchRoot
  -- the body of the outermost lambda is the body of the method
  cases n
  case lambda sig body =>
    have hbody : (body.watchedCouple a (a.enter (some sig.id))).Sound (.watching w (.mk (.lambda sig body)) a) := by
      refine watchedCouple_sound h ?_ fun path hpath s hs => ?_
      · exact mem_subtrees_of_child (List.mem_singleton_self body) body.mem_subtrees_self
      · obtain ⟨hlambda, rfl⟩ := Address.mem_enter.mp hpath
        exact Or.inr ⟨sig, body, mem_subtrees_self _, hlambda, hs⟩
    have hright : (entryMethod (sig.rename .none) ((body.watchedCouple a (a.enter (some sig.id))).right .none)) =
        entryMethod sig (body, body.watched a (a.enter (some sig.id))) := by
      have hsig : sig.rename .none = sig := by simp [Signature.rename, Variable.rename]
      rw [hsig]
      exact congrArg (fun u => entryMethod sig (u, _)) body.rename_none
    have hentry : Follows (.watching w (.mk (.lambda sig body)) a)
        [body.watchedCouple a (a.enter (some sig.id))] [body.watchedCouple a (a.enter (some sig.id))] (rename .none)
        (entryMethod sig body.piece) (entryMethod sig (body, body.watched a (a.enter (some sig.id)))) := by
      rw [← hright]
      exact entryMethod_follows sig hbody
    refine hentry.weaken ?_ (Nat.le_of_eq ?_)
    · rintro ⟨p, hp, hmust⟩
      obtain rfl := List.mem_singleton.mp hp
      exact ⟨_, List.mem_singleton_self _, (meets_lambda sig body).mp hmust⟩
    · exact congrArg (· + 0) (count_lambda sig body).symm
  all_goals exact hinline

/-- **Taking notes changes nothing else.** A tree that is written without a document is written in the same way while
notes are taken of the node at an address. There is a note when the address leads through children that are written for
certain, there are not more than are counted, and what each one covers stands on the page or in a method. -/
theorem watch_follows {u : Tree} {d : Draft} (h : t.LambdasCoherent) (a : Address)
    (hdraft : t.draft ⟨{ w with document := none }, {}⟩ = .ok (u, d)) :
    ∃ notes, t.watch a w = .ok (u, { d with passages := notes }) ∧ (t.meets a (a.enter none) → notes ≠ []) ∧
      notes.length ≤ t.count a (a.enter none) ∧
      ∀ g ∈ notes, (∃ s text, t.Finds a s ∧ Text.Occurs s.node.sign text ∧ g.stop.text = g.start.text ++ text) ∧
        g.PlacedIn { page := Desk.firstPage ⟨{ w with document := none }, {}⟩ } d := by
  have hrun := watchRoot_follows h a w { page := Desk.firstPage ⟨{ w with document := none }, {}⟩ } []
    ⟨fun hw => absurd trivial hw, fun _ => nofun⟩
  unfold FollowsFrom at hrun
  rw [show t.writeRoot (Comparison.watching w t a).desk _ = _ from hdraft] at hrun
  obtain ⟨notes, hwatch, -, -, hnotes⟩ := hrun
  have hn := hnotes trivial
  refine ⟨notes, ?_, fun hmeets => hn.must ⟨_, List.mem_singleton_self _, hmeets⟩, hn.most, fun g hg =>
    ⟨?_, hn.placed g hg⟩⟩
  · have himage : (Comparison.watching w t a).image ([] ++ notes) d = { d with passages := notes } :=
      congrArg (fun d : Draft => { d with passages := notes }) d.rename_none
    rw [himage, u.rename_none] at hwatch
    exact hwatch
  · obtain ⟨text, ⟨s, hs, hsign⟩, htext⟩ := hn.covers g hg
    exact ⟨s, text, hs, hsign, htext⟩

/-! ## What is met for certain -/

variable {b : Address} {s : Tree}

/-- Where a note is taken whatever is left of the path, it is taken in the whole. -/
theorem Keeps.meets_of_forall (h : t.Keeps b s) (hs : ∀ left, s.meets a left) : t.meets a (a.enter none) := by
  induction h with
  | root => exact hs _
  | child _ _ hc ih => exact ih fun left => (meets_mk ..).mpr (Or.inr ⟨_, hc, hs _⟩)
  | body _ ih => exact ih fun left => (meets_lambda ..).mpr (hs _)

/-- Where a note is taken behind a part of the path, it is taken in the whole. -/
theorem Keeps.meets_of_rest (h : t.Keeps b s) (rest : List Nat) (ha : a = { b with path := b.path ++ rest })
    (hs : s.meets a (some rest)) : t.meets a (a.enter none) := by
  induction h generalizing rest with
  | root =>
    subst ha
    exact hs
  | @child b n c i _ hn hc ih =>
    refine ih (i :: rest) (by rw [ha, List.append_assoc]; rfl) ?_
    refine (meets_mk ..).mpr (Or.inr ⟨_, hc, ?_⟩)
    have hnext : a.next n (some (i :: rest)) i = some rest := by
      rw [Address.next_of_ne_lambda hn, pathAt_self]
    rw [hnext]
    exact hs
  | @body b sig body hlambda _ =>
    refine hlambda.meets_of_forall fun left => (meets_lambda ..).mpr ?_
    have henter : a.enter (some sig.id) = some rest := by
      rw [ha]
      exact if_pos rfl
    rw [henter]
    exact hs

/-- A note is taken of an action when no child on the way to it may stay unwritten. -/
theorem Keeps.meets (h : t.Keeps a s) (hs : s.node.isAction = true) : t.meets a (a.enter none) := by
  refine h.meets_of_rest [] (by rw [List.append_nil]) ?_
  obtain ⟨n⟩ := s
  exact (meets_mk ..).mpr (Or.inl ⟨rfl, hs⟩)

/-! ## How often something is met -/

/-- A sum along a numbered list in which nothing counts but the item of number `j`. -/
theorem sum_zipIdx_le {α : Type} {f : α → Nat → Nat} {j m : Nat} {cs : List α} (hf : ∀ c ∈ cs, ∀ i, i ≠ j → f c i = 0)
    (h : ∀ c, cs[j]? = some c → f c j ≤ m) : (cs.zipIdx.map fun c => f c.1 c.2).sum ≤ m := by
  induction cs generalizing f j m with
  | nil => exact Nat.zero_le m
  | cons c cs ih =>
    rw [List.forall_mem_cons] at hf
    rw [List.zipIdx_cons, List.map_cons, List.sum_cons, List.zipIdx_succ, List.map_map]
    change f c 0 + (cs.zipIdx.map fun c => f c.1 (c.2 + 1)).sum ≤ m
    cases j with
    | zero =>
      have hfirst := h c rfl
      have hrest : (cs.zipIdx.map fun c => f c.1 (c.2 + 1)).sum ≤ 0 :=
        ih (j := 0) (fun c hc i _ => hf.2 c hc (i + 1) (by omega))
          fun c hc => Nat.le_of_eq (hf.2 c (List.mem_of_getElem? hc) 1 (by omega))
      omega
    | succ j =>
      rw [hf.1 0 (by omega), Nat.zero_add]
      exact ih (fun c hc i hi => hf.2 c hc (i + 1) (by omega)) h

/-- The sum of what is noted in the children, when nothing starts anew. -/
theorem count_of_ne_lambda (h : ∀ sig body, n ≠ .lambda sig body) : (Tree.mk n).count a left =
    (if left = some [] ∧ n.isAction = true then 1 else 0) +
      (n.number.writings.map fun c => c.1.count a (pathAt c.2 left)).sum := by
  rw [count_mk]
  simp only [Address.next_of_ne_lambda h]

theorem ne_lambda_of_notMem (h : ∀ sig body, Tree.mk (.lambda sig body) ∉ (Tree.mk n).subtrees) (sig : Signature)
    (body : Tree) : n ≠ .lambda sig body :=
  fun hn => h sig body (hn ▸ mem_subtrees_self _)

theorem notMem_subtrees_of_child {c : Tree} (h : ∀ sig body, Tree.mk (.lambda sig body) ∉ (Tree.mk n).subtrees)
    (hc : c ∈ n.children) (sig : Signature) (body : Tree) : Tree.mk (.lambda sig body) ∉ c.subtrees :=
  fun hmem => h sig body (mem_subtrees_of_child hc hmem)

theorem sum_count_eq_zero (hleft : ∀ i, pathAt i left = none) (h : ∀ c ∈ n.children, c.count a none = 0) :
    (n.number.writings.map fun c => c.1.count a (pathAt c.2 left)).sum = 0 := by
  rw [List.sum_eq_zero_iff_forall_eq_nat]
  intro k hk
  obtain ⟨c, hc, rfl⟩ := List.mem_map.mp hk
  have hmem := n.number.writings_subset hc
  rw [n.children_number] at hmem
  rw [hleft]
  exact h c.1 (List.fst_mem_of_mem_zipIdx hmem)

/-- Off the path nothing is noted, as long as there is no lambda to start anew. -/
theorem count_none (hr : ∀ sig body, Tree.mk (.lambda sig body) ∉ r.subtrees) : r.count a none = 0 := by
  induction r using Tree.induction with
  | step n ih =>
    rw [count_of_ne_lambda (ne_lambda_of_notMem hr), if_neg (by simp), Nat.zero_add]
    exact sum_count_eq_zero (fun _ => rfl) fun c hc => ih c hc (notMem_subtrees_of_child hr hc)

/-- Each target of a power assignment on the path doubles the notes. -/
theorem count_le (hr : ∀ sig body, Tree.mk (.lambda sig body) ∉ r.subtrees) (path : List Nat) :
    r.count a (some path) ≤ 2 ^ r.doublings path := by
  induction r using Tree.induction generalizing path with
  | step n ih =>
    have hoff : ∀ c ∈ n.children, c.count a none = 0 := fun c hc => count_none (notMem_subtrees_of_child hr hc)
    have hon : ∀ c ∈ n.children, ∀ path, c.count a (some path) ≤ 2 ^ c.doublings path := fun c hc =>
      ih c hc (notMem_subtrees_of_child hr hc)
    rw [count_of_ne_lambda (ne_lambda_of_notMem hr)]
    cases path with
    | nil =>
      rw [sum_count_eq_zero (fun _ => rfl) hoff]
      change (if _ then 1 else 0) ≤ 1
      split <;> omega
    | cons j path =>
      rw [if_neg (by simp), Nat.zero_add]
      -- the target of a power assignment is written twice, everything else at most once
      rcases n.writings_number with ⟨l, r, ty, rfl⟩ | ⟨hwritings, hdoubled⟩
      · simp only [Node.children, List.forall_mem_cons] at hoff hon
        change l.count a (pathAt 0 _) + (l.count a (pathAt 0 _) + (r.count a (pathAt 1 _) + 0)) ≤ _
        rcases j with _ | _ | j
        · have hl := hon.1 path
          rw [pathAt_self, pathAt_of_ne (by decide), hoff.2.1]
          change _ ≤ 2 ^ (l.doublings path + 1)
          omega
        · rw [pathAt_of_ne (by decide), pathAt_self, hoff.1, Nat.zero_add, Nat.zero_add]
          exact hon.2.1 path
        · rw [pathAt_of_ne (by omega), pathAt_of_ne (by omega), hoff.1, hoff.2.1]
          exact Nat.zero_le _
      · rw [hwritings]
        refine sum_zipIdx_le (f := fun (c : Tree) i => c.count a (pathAt i (some (j :: path)))) (j := j)
          (fun c hc i hi => ?_) fun c hc => ?_
        · rw [pathAt_of_ne hi]
          exact hoff c hc
        · rw [pathAt_self, doublings_cons hc, hdoubled]
          exact hon c (List.mem_of_getElem? hc) path

end Tree

end Scribe
