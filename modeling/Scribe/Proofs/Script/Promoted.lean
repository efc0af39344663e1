import Scribe.Proofs.Script.Text
import Scribe.Proofs.Tree.Position
import Scribe.Proofs.Writing.Trail.Keep

/-!
# Lambdas that are moved

A lambda inside an expression that uses nothing but its own variables is moved to a method. A slot is reserved for the
method where it is begun, and filled where it is finished; in the meantime more lambdas may be moved, and their slots stand
behind it. Only then is it known what stands for the lambda, and later visits of it find that.

`Draft.Moves` tells which slots are reserved for which lambdas, and which of these are still open. Along a trail the
lambdas are the ones that it visits, in the order of their first visits (`Trail.moves`), and what a visit finds is what
stands for the lambda in the end (`Trail.refers`). A lambda is not visited inside its own method, since it is not part of
itself.
-/

namespace Scribe

open Writing
open Text (Page)

variable {body : Tree} {i : Ident} {n : Node Tree}

/-! ## Visits of lambdas -/

/-- The lambda that is visited, if it becomes a method. The outermost lambda and a quoted one are written without a visit. -/
def Stint.lambda? (s : Stint) : Option Ident :=
  match s.start.node with
  | .lambda sig body => if sig.captures body then none else some sig.id
  | _ => none

/-- The lambdas that are visited and become methods, one for each visit. -/
def Stint.lambdas (record : List Stint) : List Ident := (allOf record).filterMap lambda?

namespace Stint

theorem lambdas_append (r r' : List Stint) : lambdas (r ++ r') = lambdas r ++ lambdas r' := by
  rw [lambdas, allOf_append, List.filterMap_append]
  rfl

theorem lambdas_visit_lambda {start : Moment} {sig : Signature} (hn : start.node = .lambda sig body)
    (hcaptures : sig.captures body = false) (inner : List Stint) (finish : Option (Tree × Draft)) :
    lambdas [mk start inner finish] = sig.id :: lambdas inner := by
  have hlambda : (mk start inner finish).lambda? = some sig.id := by simp [lambda?, Stint.start, hn, hcaptures]
  rw [lambdas, allOf_singleton, List.filterMap_cons, hlambda]
  rfl

theorem lambdas_visit_other {start : Moment} (hn : ∀ sig body, start.node = .lambda sig body → sig.captures body = true)
    (inner : List Stint) (finish : Option (Tree × Draft)) : lambdas [mk start inner finish] = lambdas inner := by
  have hlambda : (mk start inner finish).lambda? = none := by
    unfold lambda?
    split
    · next sig body hnode => rw [if_pos (hn sig body hnode)]
    · rfl
  rw [lambdas, allOf_singleton, List.filterMap_cons, hlambda]
  rfl

theorem lambda?_eq_some {s : Stint} (h : s.lambda? = some i) :
    ∃ sig body, s.start.node = .lambda sig body ∧ sig.captures body = false ∧ sig.id = i := by
  unfold lambda? at h
  split at h
  · next sig body hnode =>
    split at h
    · cases h
    · next hcaptures => exact ⟨sig, body, hnode, Bool.eq_false_iff.mpr hcaptures, Option.some.inj h⟩
  · cases h

end Stint

/-! ## A lambda is not part of itself -/

namespace Tree

theorem length_subtrees_lt {c : Tree} (hc : c ∈ n.children) : c.subtrees.length < (Tree.mk n).subtrees.length := by
  have hsublist : c.subtrees.Sublist (n.children.flatMap subtrees) := by
    rw [List.flatMap_def]
    exact List.sublist_flatten_of_mem (List.mem_map_of_mem hc)
  have hlength : (Tree.mk n).subtrees.length = (n.children.flatMap subtrees).length + 1 := by
    rw [← parts_mk]
    rfl
  have := hsublist.length_le
  omega

/-- A tree is not inside one of its children. -/
theorem mk_not_mem_subtrees {c : Tree} (hc : c ∈ n.children) : Tree.mk n ∉ c.subtrees := by
  have hle : ∀ s t : Tree, s ∈ t.subtrees → s.subtrees.length ≤ t.subtrees.length := by
    intro s t hs
    induction t using Tree.induction with
    | step n ih =>
      rcases List.mem_cons.mp hs with rfl | hs
      · exact Nat.le_refl _
      · rw [parts_mk] at hs
        obtain ⟨c, hc, hs⟩ := List.mem_flatMap.mp hs
        exact Nat.le_of_lt (Nat.lt_of_le_of_lt (ih c hc hs) (length_subtrees_lt hc))
  exact fun hmem => absurd (hle _ _ hmem) (Nat.not_le_of_lt (length_subtrees_lt hc))

/-- A lambda is not visited inside its own body. -/
theorem LambdasCoherent.not_inside {t : Tree} (h : t.LambdasCoherent) {sig sig' : Signature} {body' : Tree}
    (hmem : Tree.mk (.lambda sig body) ∈ t.subtrees) (hmem' : Tree.mk (.lambda sig' body') ∈ body.subtrees) :
    sig'.id ≠ sig.id := by
  intro hid
  have hbody : body ∈ t.subtrees := mem_subtrees_child hmem List.mem_cons_self
  obtain rfl := h sig' body' sig body (mem_subtrees_trans hbody hmem') hmem hid
  exact mk_not_mem_subtrees List.mem_cons_self hmem'

end Tree

/-! ## Methods -/

/-- The text is what a lambda comes to that is moved to a private method called `name`, and `moved` stands for it. -/
structure Signature.MovedTo (desk : Desk) (sig : Signature) (body : Tree) (name : String) (moved : Tree) (text : String) :
    Prop where
  written : ∃ origin d e, d.page = .part desk.wrapper.memberLevel origin ∧
    movedMethod name sig body.piece desk d = .ok (moved, e) ∧ e.page.text = text
  head : ∃ type rest, sig.result.SpelledAs type ∧ text = "\n\n" ++ Page.blanks desk.wrapper.memberLevel ++
    ("private " ++ (if desk.wrapper.isStatic then "static " else "") ++ type ++ " " ++ name ++ "(") ++ rest
  stands : ∃ params t, moved = .mk (.lambda { id := .promoted sig.id, name := some name, params, result := sig.result } t)

theorem Writing.movedMethod_movedTo {desk : Desk} {d e : Draft} {origin : Text.Position} {sig : Signature}
    {moved : Tree} {name : String} (hpage : d.page = .part desk.wrapper.memberLevel origin)
    (h : movedMethod name sig body.piece desk d = .ok (moved, e)) : sig.MovedTo desk body name moved e.page.text := by
  let start : Draft := { d with page := d.page.newline }
  have hrest : methodRest (.promoted sig.id) name sig body.piece desk (start.headed desk "private " name sig) =
      .ok (moved, e) := (method_eq _ _ _ _ _ _ start).symm.trans h
  refine ⟨⟨origin, d, e, hpage, h, rfl⟩, ?_, ?_⟩
  · obtain ⟨rest, htext⟩ := (methodRest_stepwise _ _ sig body.steps _ _ _ hrest).text
    refine ⟨_, rest, ⟨d.lexicon, rfl⟩, htext.trans (congrArg (· ++ rest) ?_)⟩
    rw [start.headed_text, ← String.append_assoc]
    show d.page.newline.newline.text ++ d.page.newline.margin ++ _ = _
    rw [hpage]
    rfl
  · obtain ⟨params, _, -, hrest⟩ := bind_eq_ok.mp hrest
    obtain ⟨_, _, -, hrest⟩ := bind_eq_ok.mp hrest
    obtain ⟨t, _, -, hrest⟩ := bind_eq_ok.mp hrest
    cases hrest
    exact ⟨params, t, rfl⟩

/-! ## Slots -/

theorem eraseDups_append_cons {visited later : List Ident} (h : i ∉ visited) :
    (visited ++ i :: later).eraseDups =
      visited.eraseDups ++ i :: ((later.removeAll visited).filter (!· == i)).eraseDups := by
  rw [List.eraseDups_append, List.removeAll, List.filter_cons_of_pos (by simpa using h), List.eraseDups_cons]
  rfl

/-- A new lambda has its slot behind those that were visited before. -/
theorem getElem?_eraseDups_new {visited later : List Ident} (h : i ∉ visited) (k : Nat) :
    (visited ++ i :: later).eraseDups[k]? = some i ↔ k = visited.eraseDups.length := by
  rw [eraseDups_append_cons h]
  constructor
  · intro hk
    rcases Nat.lt_trichotomy k visited.eraseDups.length with hlt | heq | hgt
    · rw [List.getElem?_append_left hlt] at hk
      exact absurd (List.mem_eraseDups.mp (List.mem_of_getElem? hk)) h
    · exact heq
    · obtain ⟨j, rfl⟩ := Nat.exists_eq_add_of_lt hgt
      rw [List.getElem?_append_right (by omega)] at hk
      have hj : visited.eraseDups.length + j + 1 - visited.eraseDups.length = j + 1 := by omega
      rw [hj, List.getElem?_cons_succ] at hk
      simpa using List.mem_eraseDups.mp (List.mem_of_getElem? hk)
  · rintro rfl
    rw [List.getElem?_append_right (Nat.le_refl _), Nat.sub_self]
    rfl

theorem eraseDups_append_mem {visited : List Ident} (h : i ∈ visited) :
    (visited ++ [i]).eraseDups = visited.eraseDups := by
  rw [List.eraseDups_append, List.removeAll, List.filter_cons_of_neg (by simpa using h)]
  simp

theorem Naming.lookup_nameLambda (n : Naming) (sig : Signature) :
    (n.nameLambda sig).2.methodNames.lookup sig.id = some (n.nameLambda sig).1 := by
  unfold nameLambda
  cases h : n.methodNames.lookup sig.id with
  | some name => exact h
  | none => exact List.lookup_cons_self

/-- From `d` to `e` no lambda is moved. -/
structure Draft.KeepsMethods (d e : Draft) : Prop where
  names : d.naming.Extends e.naming
  methods : e.methods = d.methods
  promoted : e.promoted = d.promoted

theorem Draft.Calm.keepsMethods {d e : Draft} {undeclared : List Ident} {flow : Flow}
    (h : d.Calm { e with undeclared, flow }) : d.KeepsMethods e :=
  ⟨h.names, h.methods, h.promoted⟩

namespace Draft

variable {t moved : Tree} {desk : Desk} {visited opened later : List Ident} {d e : Draft} {sig : Signature}

/-- The slot with the number `k` holds the method of the lambda `i`. -/
def Holds (t : Tree) (desk : Desk) (d : Draft) (k : Nat) (i : Ident) : Prop :=
  ∃ sig body name moved text, .mk (.lambda sig body) ∈ t.subtrees ∧ sig.captures body = false ∧ sig.id = i ∧
    sig.MovedTo desk body name moved text ∧ d.promoted.lookup i = some moved ∧
    d.naming.methodNames.lookup i = some name ∧ d.methods[k]? = some text

/-- The slots of the methods are reserved for the lambdas that were visited, each with one slot, in the order of their
first visits. All are filled but those of the open ones. -/
structure Moves (t : Tree) (desk : Desk) (visited opened : List Ident) (d : Draft) : Prop where
  length : d.methods.length = visited.eraseDups.length
  known : ∀ i m, d.promoted.lookup i = some m → i ∈ visited
  slot : ∀ (k : Nat) i, visited.eraseDups[k]? = some i → i ∈ opened ∨ d.Holds t desk k i

theorem Holds.imp {k : Nat} (h : d.Holds t desk k i) (hnames : d.naming.Extends e.naming)
    (hpromoted : ∀ m, d.promoted.lookup i = some m → e.promoted.lookup i = some m)
    (hmethods : ∀ text, d.methods[k]? = some text → e.methods[k]? = some text) : e.Holds t desk k i := by
  obtain ⟨sig, body, name, moved, text, hmem, hcaptures, hid, hmoved, hlookup, hname, htext⟩ := h
  exact ⟨sig, body, name, moved, text, hmem, hcaptures, hid, hmoved, hpromoted _ hlookup, hnames.onLambda _ _ hname,
    hmethods _ htext⟩

theorem Moves.keep (h : d.Moves t desk visited opened) (hkeeps : d.KeepsMethods e) : e.Moves t desk visited opened := by
  obtain ⟨hnames, hmethods, hpromoted⟩ := hkeeps
  refine ⟨by rw [hmethods, h.length], by rw [hpromoted]; exact h.known, fun k i hk => ?_⟩
  refine (h.slot k i hk).imp_right (·.imp hnames ?_ ?_)
  · rw [hpromoted]
    exact fun _ => id
  · rw [hmethods]
    exact fun _ => id

/-- A lambda that has been moved is visited again. -/
theorem Moves.again (h : d.Moves t desk visited opened) (hi : d.promoted.lookup i = some moved) :
    d.Moves t desk (visited ++ [i]) opened := by
  have hdups := eraseDups_append_mem (h.known i moved hi)
  refine ⟨by rw [hdups, h.length], fun j m hj => List.mem_append_left _ (h.known j m hj), ?_⟩
  rw [hdups]
  exact h.slot

/-- A lambda that is neither moved nor open has not been visited. -/
theorem Moves.not_visited (h : d.Moves t desk visited opened) (hi : d.promoted.lookup i = none)
    (hopened : i ∉ opened) : i ∉ visited := by
  intro hmem
  obtain ⟨k, hk⟩ := List.getElem?_of_mem (List.mem_eraseDups.mpr hmem)
  rcases h.slot k i hk with hopen | ⟨_, _, _, moved, _, _, _, _, _, hmoved, _⟩
  · exact hopened hopen
  · cases hi.symm.trans hmoved

/-- A slot is reserved where the method of a lambda is begun. -/
theorem Moves.begin (h : d.Moves t desk visited opened) (hnew : d.promoted.lookup sig.id = none)
    (hopened : sig.id ∉ opened) : (d.moving desk sig).Moves t desk (visited ++ [sig.id]) (sig.id :: opened) := by
  have hvisited := h.not_visited hnew hopened
  have hdups : (visited ++ [sig.id]).eraseDups = visited.eraseDups ++ [sig.id] := eraseDups_append_cons hvisited
  refine ⟨?_, fun i m hi => List.mem_append_left _ (h.known i m hi), fun k i hk => ?_⟩
  · rw [hdups]
    simp [moving, calling, onMethodPage, h.length]
  · by_cases hi : i = sig.id
    · exact .inl (hi ▸ List.mem_cons_self)
    · have hlt : k < visited.eraseDups.length := by
        have hne : k ≠ visited.eraseDups.length := fun heq =>
          hi (Option.some.inj (hk.symm.trans ((getElem?_eraseDups_new hvisited k).mpr heq)))
        have hle := (List.getElem?_eq_some_iff.mp hk).1
        rw [hdups, List.length_append, List.length_singleton] at hle
        omega
      rw [hdups, List.getElem?_append_left hlt] at hk
      rcases h.slot k i hk with hopen | hholds
      · exact .inl (List.mem_cons_of_mem _ hopen)
      · refine .inr (hholds.imp (d.naming.extends_nameLambda sig) (fun _ => id) fun text htext => ?_)
        exact (List.getElem?_append_left (h.length ▸ hlt)).trans htext

/-- The slot is filled where the method is finished. -/
theorem Moves.finish {f : Draft} (h : d.Moves t desk visited opened)
    (hnew : d.promoted.lookup sig.id = none) (hopened : sig.id ∉ opened)
    (hf : f.Moves t desk (visited ++ sig.id :: later) (sig.id :: opened)) (hmem : .mk (.lambda sig body) ∈ t.subtrees)
    (hcaptures : sig.captures body = false) (hnames : (d.naming.nameLambda sig).2.Extends f.naming)
    (hrun : movedMethod (d.naming.nameLambda sig).1 sig body.piece desk (d.moving desk sig) = .ok (moved, f)) :
    (d.moved sig moved f).Moves t desk (visited ++ sig.id :: later) opened := by
  have hindex : ∀ k, (visited ++ sig.id :: later).eraseDups[k]? = some sig.id ↔ k = visited.eraseDups.length :=
    getElem?_eraseDups_new (h.not_visited hnew hopened)
  refine ⟨?_, fun i m hi => ?_, fun k i hk => ?_⟩
  · exact (List.length_set ..).trans hf.length
  · by_cases hid : i = sig.id
    · exact List.mem_append_right _ (hid ▸ List.mem_cons_self)
    · refine hf.known i m ?_
      rwa [Draft.moved, List.lookup_cons, beq_eq_false_iff_ne.mpr hid] at hi
  · by_cases hid : i = sig.id
    · subst hid
      obtain rfl := (hindex k).mp hk
      refine .inr ⟨sig, body, (d.naming.nameLambda sig).1, moved, f.page.text, hmem, hcaptures, rfl,
        movedMethod_movedTo rfl hrun, List.lookup_cons_self, hnames.onLambda _ _ (d.naming.lookup_nameLambda sig), ?_⟩
      have hlt := (List.getElem?_eq_some_iff.mp hk).1
      rw [← hf.length, ← h.length] at hlt
      rw [← h.length]
      exact List.getElem?_set_self hlt
    · rcases hf.slot k i hk with hopen | hholds
      · exact .inl ((List.mem_cons.mp hopen).resolve_left hid)
      · refine .inr (hholds.imp (.refl _) (fun m hm => ?_) fun text htext => ?_)
        · rwa [Draft.moved, List.lookup_cons, beq_eq_false_iff_ne.mpr hid]
        · have hne : d.methods.length ≠ k := by
            rintro rfl
            exact hid (Option.some.inj (hk.symm.trans ((hindex _).mpr h.length)))
          exact (List.getElem?_set_ne hne).trans htext

end Draft

/-! ## Trails -/

/-- What a visit does to the methods. It moves no lambda itself, unless it is that of one that becomes a method; then it
finds the lambda moved, or moves it. -/
theorem Node.Course.lambda_cases {desk : Desk} {p q : Place} {tail : Tail} {d m : Draft}
    {vs : List Variable} {ts : List Tree} {r : List Stint} {o : Option Draft} {finish : Option (Tree × Draft)}
    (h : n.Course desk p tail d vs ts q m r o finish) :
    ((∀ sig body, n = .lambda sig body → sig.captures body = true) ∧ d.KeepsMethods m ∧
      ∀ e ∈ o, ∀ f ∈ finish, e.KeepsMethods f.2) ∨
    ∃ sig body, n = .lambda sig body ∧ sig.captures body = false ∧
      ((∃ u, d.promoted.lookup sig.id = some u ∧ r = [] ∧ finish = some (u, d.calling sig)) ∨
        d.promoted.lookup sig.id = none ∧ ts = [body] ∧ m = d.moving desk sig ∧ ∀ f ∈ finish, ∃ g, o = some g ∧
          f.2 = d.moved sig f.1 g ∧
          movedMethod (d.naming.nameLambda sig).1 sig body.piece desk (d.moving desk sig) = .ok (f.1, g)) := by
  have hrefl : ∀ d : Draft, d.KeepsMethods d := fun d => (Draft.Calm.refl d).keepsMethods
  -- only the visit of a lambda that becomes a method looks at the methods
  cases h with
  | var v =>
    rw [Node.ends_var]
    refine .inl ⟨nofun, hrefl d, ?_⟩
    rintro e ⟨⟩ f ⟨⟩
    exact (d.writing_calm v).keepsMethods
  | block _ hhead _ =>
    rw [blockHead_eq hhead]
    refine .inl ⟨nofun, (d.heading_calm _ _).keepsMethods, ?_⟩
    rintro e he f rfl
    cases he
    exact hrefl _
  | jump _ _ hjump =>
    refine .inl ⟨nofun, hrefl d, ?_⟩
    rintro e ⟨⟩ f ⟨⟩
    exact (depart_step hjump).1.keepsMethods
  | loop _ henter _ hlower =>
    obtain ⟨takers, rfl⟩ := enterLoop_eq henter
    refine .inl ⟨nofun, ⟨.refl _, rfl, rfl⟩, ?_⟩
    rintro e ⟨⟩ f ⟨⟩
    have hkeeps := (lowerLoop_step hlower).keepsMethods
    exact ⟨hkeeps.names, hkeeps.methods, hkeeps.promoted⟩
  | known hcaptures hlookup => exact .inr ⟨_, _, rfl, hcaptures, .inl ⟨_, hlookup, rfl, rfl⟩⟩
  | moved hcaptures hnew hrun =>
    refine .inr ⟨_, _, rfl, hcaptures, .inr ⟨hnew, rfl, rfl, fun f hf => ?_⟩⟩
    obtain ⟨g, rfl, rfl⟩ := Option.map_eq_some_iff.mp hf
    exact ⟨g.2, rfl, rfl, ok_of_toOption hrun⟩
  | plain _ hplain =>
    refine .inl ⟨?_, hrefl d, ?_⟩
    · rintro sig body rfl
      exact hplain
    · rintro e he f rfl
      cases he
      exact hrefl _

namespace Trail

variable {desk : Desk} {vs : List Variable} {ts : List Tree} {p : Place} {d : Draft} {r : List Stint} {o : Option Draft}
  {t : Tree}

/-- Only lambdas of the trees are visited. -/
theorem mem_of_lambdas (h : Trail desk vs ts p d r o) (hi : i ∈ Stint.lambdas r) :
    ∃ sig body, sig.id = i ∧ ∃ c ∈ ts, Tree.mk (.lambda sig body) ∈ c.subtrees := by
  obtain ⟨s, hs, hlambda⟩ := List.mem_filterMap.mp hi
  obtain ⟨sig, body, hnode, -, hid⟩ := Stint.lambda?_eq_some hlambda
  exact ⟨sig, body, hid, hnode ▸ h.mem_subtrees s hs⟩

/-- A lambda is not visited inside its own body. -/
theorem lambdas_ne {sig : Signature} (h : Trail desk vs [body] p d r o) (ht : t.LambdasCoherent)
    (hmem : .mk (.lambda sig body) ∈ t.subtrees) : ∀ i ∈ Stint.lambdas r, i ≠ sig.id := by
  intro i hi
  obtain ⟨sig', body', rfl, c, hc, hinside⟩ := h.mem_of_lambdas hi
  rw [List.mem_singleton.mp hc] at hinside
  exact ht.not_inside hmem hinside

/-- The slots are those of the lambdas that were visited. -/
theorem moves (h : Trail desk vs ts p d r o) (ht : t.LambdasCoherent) (hts : ∀ c ∈ ts, c ∈ t.subtrees)
    {visited opened : List Ident} (hd : d.Moves t desk visited opened) (hopened : ∀ i ∈ Stint.lambdas r, i ∉ opened) :
    ∀ e ∈ o, e.Moves t desk (visited ++ Stint.lambdas r) opened := by
  -- `opened` holds the lambdas around whose methods are not finished
  induction h generalizing visited opened with
  | broken => exact nofun
  | calm hcalm | bound _ hcalm _ =>
    rintro e ⟨⟩
    exact (List.append_nil visited).symm ▸ hd.keep hcalm.keepsMethods
  | trans _ _ ih ih' =>
    rw [Stint.lambdas_append] at hopened ⊢
    rw [← List.append_assoc]
    rw [List.forall_mem_append] at hopened
    exact ih' hts (ih hts hd hopened.1 _ rfl) hopened.2
  | part hc _ ih => exact ih (List.forall_mem_singleton.mpr (hts _ hc)) hd hopened
  | within _ ih =>
    exact ih (fun c hc => Tree.mem_subtrees_child (List.forall_mem_singleton.mp hts) hc) hd hopened
  | inside _ _ ih | function _ ih =>
    intro e he
    obtain ⟨f, hf, rfl⟩ := Option.map_eq_some_iff.mp he
    exact (ih hts (hd.keep ⟨.refl _, rfl, rfl⟩) hopened f hf).keep ⟨.refl _, rfl, rfl⟩
  | @visit p q tail d m n vs ts r o finish hcourse htrail ih =>
    have hn := List.forall_mem_singleton.mp hts
    have hts' : ∀ c ∈ ts, c ∈ t.subtrees := fun c hc => Tree.mem_subtrees_child hn (hcourse.mem_children c hc)
    intro e he
    obtain ⟨f, rfl, rfl⟩ := Option.map_eq_some_iff.mp he
    rcases hcourse.lambda_cases with ⟨hother, hbegin, hend⟩ | ⟨sig, body, rfl, hcaptures, hlambda⟩
    · obtain ⟨g, rfl⟩ := hcourse.exists_finish rfl
      rw [Stint.lambdas_visit_other hother] at hopened ⊢
      exact (ih hts' (hd.keep hbegin) hopened g rfl).keep (hend g rfl f rfl)
    · rw [Stint.lambdas_visit_lambda rfl hcaptures] at hopened ⊢
      obtain ⟨hsig, hopened⟩ := List.forall_mem_cons.mp hopened
      rcases hlambda with ⟨u, hlookup, rfl, ⟨⟩⟩ | ⟨hnew, rfl, rfl, hfinish⟩
      · exact (hd.again hlookup).keep ⟨d.naming.extends_nameLambda _, rfl, rfl⟩
      · obtain ⟨g, rfl, hmoved, hrun⟩ := hfinish f rfl
        have hne := htrail.lambdas_ne ht hn
        have hinner := ih hts' (hd.begin hnew hsig)
          (fun i hi hmem => (List.mem_cons.mp hmem).elim (hne i hi) (hopened i hi)) g rfl
        rw [List.append_assoc, List.singleton_append] at hinner
        rw [hmoved]
        exact hd.finish hnew hsig hinner hn hcaptures (htrail.names g rfl) hrun

end Trail

/-! ## What stands for a lambda -/

/-- From `d` to `e` only lambdas among the visited ones are moved, and what stands for a lambda stays. -/
structure Draft.Promotes (visited : List Ident) (d e : Draft) : Prop where
  stays : ∀ i m, d.promoted.lookup i = some m → e.promoted.lookup i = some m
  only : ∀ i, i ∉ visited → d.promoted.lookup i = none → e.promoted.lookup i = none

theorem Draft.Promotes.of_eq {visited : List Ident} {d e : Draft} (h : e.promoted = d.promoted) : d.Promotes visited e :=
  ⟨fun _ _ hi => h ▸ hi, fun _ _ hi => h ▸ hi⟩

theorem Draft.Promotes.trans {visited visited' : List Ident} {d e f : Draft} (h : d.Promotes visited e)
    (h' : e.Promotes visited' f) : d.Promotes (visited ++ visited') f where
  stays i m hi := h'.stays i m (h.stays i m hi)
  only i hi hnone := by
    rw [List.mem_append, not_or] at hi
    exact h'.only i hi.2 (h.only i hi.1 hnone)

/-- A visit of a lambda that becomes a method writes the name of the method and finds what stands for the lambda. -/
theorem Node.Course.refers {desk : Desk} {p q : Place} {tail : Tail} {d m : Draft} {vs : List Variable}
    {ts : List Tree} {r : List Stint} {o : Option Draft} {f : Tree × Draft} {sig : Signature}
    (h : (Node.lambda sig body).Course desk p tail d vs ts q m r o (some f)) (htrail : Trail desk vs ts q m r o)
    (hcaptures : sig.captures body = false) : ∃ name, f.2.page = d.page.write name ∧
      f.2.promoted.lookup sig.id = some f.1 ∧ f.2.naming.methodNames.lookup sig.id = some name := by
  have hname := d.naming.lookup_nameLambda sig
  refine ⟨(d.naming.nameLambda sig).1, ?_⟩
  rcases h.lambda_cases with ⟨hother, -, -⟩ | ⟨_, _, ⟨⟩, -, hlambda⟩
  · cases hcaptures.symm.trans (hother sig body rfl)
  · rcases hlambda with ⟨u, hlookup, -, ⟨⟩⟩ | ⟨-, -, rfl, hfinish⟩
    · exact ⟨rfl, hlookup, hname⟩
    · obtain ⟨g, rfl, hmoved, -⟩ := hfinish f rfl
      rw [hmoved]
      exact ⟨rfl, List.lookup_cons_self, (htrail.names g rfl).onLambda _ _ hname⟩

namespace Trail

variable {desk : Desk} {vs : List Variable} {ts : List Tree} {p : Place} {d : Draft} {r : List Stint} {o : Option Draft}
  {t : Tree}

theorem promotes (h : Trail desk vs ts p d r o) : ∀ e ∈ o, d.Promotes (Stint.lambdas r) e := by
  induction h with
  | broken => exact nofun
  | calm hcalm | bound _ hcalm _ =>
    rintro e ⟨⟩
    exact .of_eq hcalm.promoted
  | trans _ _ ih ih' =>
    rw [Stint.lambdas_append]
    exact fun e he => (ih _ rfl).trans (ih' e he)
  | part _ _ ih | within _ ih => exact ih
  | inside _ _ ih | function _ ih =>
    intro e he
    obtain ⟨f, hf, rfl⟩ := Option.map_eq_some_iff.mp he
    exact ⟨(ih f hf).stays, (ih f hf).only⟩
  | @visit p q tail d m n vs ts r o finish hcourse htrail ih =>
    intro e he
    obtain ⟨f, rfl, rfl⟩ := Option.map_eq_some_iff.mp he
    rcases hcourse.lambda_cases with ⟨hother, hbegin, hend⟩ | ⟨sig, body, rfl, hcaptures, hlambda⟩
    · obtain ⟨g, rfl⟩ := hcourse.exists_finish rfl
      rw [Stint.lambdas_visit_other hother]
      have hinner := ih g rfl
      have hpromoted := (hend g rfl f rfl).promoted
      exact ⟨fun i m hi => hpromoted ▸ hinner.stays i m (hbegin.promoted ▸ hi),
        fun i hi hnone => hpromoted ▸ hinner.only i hi (hbegin.promoted ▸ hnone)⟩
    · rw [Stint.lambdas_visit_lambda rfl hcaptures]
      rcases hlambda with ⟨u, hlookup, -, ⟨⟩⟩ | ⟨hnew, -, rfl, hfinish⟩
      · exact .of_eq rfl
      · obtain ⟨g, rfl, hmoved, -⟩ := hfinish f rfl
        have hinner := ih g rfl
        rw [hmoved]
        refine ⟨fun i m hi => ?_, fun i hi hnone => ?_⟩
        · have hne : i ≠ sig.id := by
            rintro rfl
            cases hnew.symm.trans hi
          rw [Draft.moved, List.lookup_cons, beq_eq_false_iff_ne.mpr hne]
          exact hinner.stays i m hi
        · rw [List.mem_cons, not_or] at hi
          rw [Draft.moved, List.lookup_cons, beq_eq_false_iff_ne.mpr hi.1]
          exact hinner.only i hi.2 hnone

/-- What stands for a lambda behind a visit stands for it at the end. -/
theorem promoted_visit (h : Trail desk vs ts p d r o) (ht : t.LambdasCoherent) (hts : ∀ c ∈ ts, c ∈ t.subtrees) :
    ∀ s ∈ Stint.allOf r, ∀ f ∈ s.finish, ∀ e ∈ o, ∀ i m,
      f.2.promoted.lookup i = some m → e.promoted.lookup i = some m := by
  induction h with
  | broken | calm | bound => simp
  | trans htrail htrail' ih ih' =>
    rw [Stint.allOf_append]
    refine List.forall_mem_append.mpr ⟨fun s hs f hf e he i m hi => ?_, ih' hts⟩
    exact (htrail'.promotes e he).stays i m (ih hts s hs f hf _ rfl i m hi)
  | part hc _ ih => exact ih (List.forall_mem_singleton.mpr (hts _ hc))
  | within _ ih => exact ih fun c hc => Tree.mem_subtrees_child (List.forall_mem_singleton.mp hts) hc
  | inside _ _ ih | function _ ih =>
    intro s hs f hf e he
    obtain ⟨g, hg, rfl⟩ := Option.map_eq_some_iff.mp he
    exact ih hts s hs f hf g hg
  | @visit p q tail d m n vs ts r o finish hcourse htrail ih =>
    have hn := List.forall_mem_singleton.mp hts
    have hts' : ∀ c ∈ ts, c ∈ t.subtrees := fun c hc => Tree.mem_subtrees_child hn (hcourse.mem_children c hc)
    rw [Stint.allOf_singleton]
    refine List.forall_mem_cons.mpr ⟨?_, fun s hs f hf e he i m hi => ?_⟩
    · rintro f hf e he i m hi
      rw [Stint.finish] at hf
      rw [hf] at he
      cases he
      exact hi
    · obtain ⟨f', rfl, rfl⟩ := Option.map_eq_some_iff.mp he
      rcases hcourse.lambda_cases with ⟨-, -, hend⟩ | ⟨sig, body, rfl, hcaptures, hlambda⟩
      · obtain ⟨g, rfl⟩ := hcourse.exists_finish rfl
        rw [(hend g rfl f' rfl).promoted]
        exact ih hts' s hs f hf g rfl i m hi
      · rcases hlambda with ⟨u, -, rfl, -⟩ | ⟨hnew, rfl, rfl, hfinish⟩
        · simp at hs
        · obtain ⟨g, rfl, hmoved, -⟩ := hfinish f' rfl
          have hne := htrail.lambdas_ne ht hn
          have hnone := (htrail.promotes g rfl).only sig.id (fun hmem => hne _ hmem rfl) hnew
          rw [hmoved]
          exact Naming.lookup_cons_of_new hnone (ih hts' s hs f hf g rfl i m hi)

/-- A visit of a lambda that becomes a method writes the name of the method and finds what stands for the lambda. -/
theorem refers (h : Trail desk vs ts p d r o) (ht : t.LambdasCoherent) (hts : ∀ c ∈ ts, c ∈ t.subtrees) {s : Stint}
    (hs : s ∈ Stint.allOf r) (hi : s.lambda? = some i) {e : Draft} (he : e ∈ o) : ∃ name moved f,
      s.finish = some (moved, f) ∧ f.page = s.start.before.page.write name ∧ e.promoted.lookup i = some moved ∧
        e.naming.methodNames.lookup i = some name := by
  obtain ⟨⟨place, n, tail, before⟩, inner, finish⟩ := s
  obtain ⟨sig, body, rfl, hcaptures, rfl⟩ := Stint.lambda?_eq_some hi
  obtain ⟨f, rfl⟩ := Option.isSome_iff_exists.mp (h.done (Option.isSome_of_mem he) _ hs)
  obtain ⟨_, _, _, _, _, hcourse, htrail⟩ := h.course _ hs
  obtain ⟨name, hpage, hmoved, hname⟩ := hcourse.refers htrail hcaptures
  exact ⟨name, f.1, f.2, rfl, hpage, h.promoted_visit ht hts _ hs f rfl e he _ _ hmoved,
    ((h.names_visit _ hs).2 f rfl e he).onLambda _ _ hname⟩

end Trail

/-! ## Drafts -/

/-- The methods of a draft are those of the lambdas that were visited and become methods, each with one method, in the
order of their first visits. Every visit of such a lambda writes the name of its method, and finds the same lambda that
stands for it. -/
structure Draft.MovesOnce (t : Tree) (desk : Desk) (record : List Stint) (d : Draft) : Prop where
  length : d.methods.length = (Stint.lambdas record).eraseDups.length
  method : ∀ (k : Nat) i, (Stint.lambdas record).eraseDups[k]? = some i → ∃ sig body name moved text,
    .mk (.lambda sig body) ∈ t.subtrees ∧ sig.captures body = false ∧ sig.id = i ∧
      sig.MovedTo desk body name moved text ∧ d.methods[k]? = some text ∧
      ∀ s ∈ Stint.allOf record, s.lambda? = some i → ∃ f, s.finish = some (moved, f) ∧
        f.page = s.start.before.page.write name

theorem Tree.draft_movesOnce {t u : Tree} {desk : Desk} {d : Draft} (ht : t.LambdasCoherent)
    (h : t.draft desk = .ok (u, d)) : ∃ record, t.Records desk record ∧ d.MovesOnce t desk record := by
  obtain ⟨record, hrecord, htrail⟩ := t.exists_record desk
  rw [h] at htrail
  have hts : ∀ c ∈ [t], c ∈ t.subtrees := List.forall_mem_singleton.mpr t.mem_subtrees_self
  have hstart : Draft.Moves t desk [] [] { page := desk.firstPage } := ⟨rfl, nofun, nofun⟩
  have hmoves := htrail.moves ht hts hstart nofun d rfl
  rw [List.nil_append] at hmoves
  refine ⟨record, hrecord, hmoves.length, fun k i hk => ?_⟩
  obtain ⟨sig, body, name, moved, text, hmem, hcaptures, hid, hmoved, hlookup, hname, htext⟩ :=
    (hmoves.slot k i hk).resolve_left List.not_mem_nil
  refine ⟨sig, body, name, moved, text, hmem, hcaptures, hid, hmoved, htext, fun s hs hi => ?_⟩
  obtain ⟨name', moved', f, hfinish, hpage, hlookup', hname'⟩ := htrail.refers ht hts hs hi rfl
  cases hlookup.symm.trans hlookup'
  cases hname.symm.trans hname'
  exact ⟨f, hfinish, hpage⟩

/-- **Each lambda is moved once.** A script is put together from a draft whose methods are those of the lambdas that were
visited and become methods. -/
theorem Tree.toScript_moves_lambdas_once {t : Tree} {w : Wrapper} {script : Script} (h : t.toScript w = .ok script)
    (ht : t.LambdasCoherent) : ∃ k layout u d record, t.draft ⟨w, k⟩ = .ok (u, d) ∧
      d.assemble w u = .ok (script, layout) ∧ t.Records ⟨w, k⟩ record ∧ d.MovesOnce t ⟨w, k⟩ record := by
  obtain ⟨k, layout, u, d, hdraft, hassemble⟩ := exists_draft_of_toScript h
  obtain ⟨record, hrecord, hmoves⟩ := draft_movesOnce ht hdraft
  exact ⟨k, layout, u, d, record, hdraft, hassemble, hrecord, hmoves⟩

/-- The lambda `g` is used twice, and `h` in the method of `g` and behind it: two methods, in the order of first uses. -/
theorem Tree.toScript_moves_lambdas_once_nested :
    let y : Variable := { id := .given "y", name := some "y", ty := .int }
    let z : Variable := { id := .given "z", name := some "z", ty := .int }
    let call (f : Tree) (arg : Tree) : Tree := .mk (.invoke f [arg] .int)
    let one : Tree := .mk (.constant (.int 1) .int)
    let h : Tree := .mk (.lambda { id := .given "h", params := [z], result := .int } (.mk (.var z)))
    let g : Tree := .mk (.lambda { id := .given "g", params := [y], result := .int } (call h (.mk (.var y))))
    let t : Tree := .mk (.block [] [call g one, call h one, call g one] .void)
    (t.toScript {}).toOption.map (·.text) = some ("func1(1);\nfunc2(1);\nfunc1(1);\n\n" ++
      "private int func1(int y)\n\x7b\n    return func2(y);\n\x7d\n\nprivate int func2(int z)\n\x7b\n    return z;\n\x7d") ∧
    ∃ script k layout u d record, t.toScript {} = .ok script ∧ t.draft ⟨{}, k⟩ = .ok (u, d) ∧
      d.assemble {} u = .ok (script, layout) ∧ t.Records ⟨{}, k⟩ record ∧ d.MovesOnce t ⟨{}, k⟩ record := by
  intro y z call one h g t
  have htext : (t.toScript {}).toOption.map (·.text) = some ("func1(1);\nfunc2(1);\nfunc1(1);\n\n" ++
      "private int func1(int y)\n\x7b\n    return func2(y);\n\x7d\n\nprivate int func2(int z)\n\x7b\n    return z;\n\x7d") := by
    decide +kernel
  have hbodies : ∀ sig body, Tree.mk (.lambda sig body) ∈ t.subtrees →
      body = if sig.id = .given "g" then call h (.mk (.var y)) else .mk (.var z) := by
    intro sig body hmem
    simp [t, g, h, call, one, subtrees, parts_mk, Node.children] at hmem
    rcases hmem with ⟨rfl, rfl⟩ | ⟨rfl, rfl⟩ | ⟨rfl, rfl⟩ | ⟨rfl, rfl⟩ <;> rfl
  have hcoherent : t.LambdasCoherent := fun sig body sig' body' hmem hmem' hid =>
    (hbodies sig body hmem).trans (hid ▸ (hbodies sig' body' hmem').symm)
  refine ⟨htext, ?_⟩
  cases hscript : t.toScript {} with
  | error err =>
    rw [hscript] at htext
    cases htext
  | ok script =>
    obtain ⟨k, layout, u, d, record, hmoves⟩ := toScript_moves_lambdas_once hscript hcoherent
    exact ⟨script, k, layout, u, d, record, rfl, hmoves⟩

end Scribe
