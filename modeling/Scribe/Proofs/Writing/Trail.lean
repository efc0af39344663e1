import Scribe.Proofs.Flow.Departure
import Scribe.Proofs.Writing.Labels
import Scribe.Proofs.Writing.Likeness.Construct
import Scribe.Proofs.Writing.Record

/-!
# Trails

A trail says what happens to a draft while a list of visits is made: it goes on calmly, a variable is named where it is
bound, a loop, a switch or a function is entered and left, and nodes are visited. `Trail` lists these steps. Where the
visit of a node does more than its parts do, the trail says what: a variable is written, a jump is resolved, a block
declares its variables, a loop writes its labels, a lambda is moved to a method.

A trail is made from the variables `vs` that may be bound on the way and the trees `ts` of which parts are visited. It
ends at a draft, or nowhere when it is broken off.

`Trails` is the likeness of a computation and its observed forms: from every draft there is a record, and the trail of
that record ends where the computation does.
-/

namespace Scribe

open Writing
open Text (Page)

variable {r : List Stint} {o : Option Draft} {β : Type}

/-! ## Names that are kept -/

/-- Everything that has a name keeps it. -/
structure Naming.Extends (n n' : Naming) : Prop where
  onVariable (i : Ident) (s : String) : n.variableNames.lookup i = some s → n'.variableNames.lookup i = some s
  onLabel (i : Ident) (s : String) : n.label? i = some s → n'.label? i = some s
  onLambda (i : Ident) (s : String) : n.methodNames.lookup i = some s → n'.methodNames.lookup i = some s

namespace Naming

theorem Extends.refl (n : Naming) : n.Extends n := ⟨fun _ _ => id, fun _ _ => id, fun _ _ => id⟩

theorem Extends.trans {n n' n'' : Naming} (h : n.Extends n') (h' : n'.Extends n'') : n.Extends n'' where
  onVariable i s hi := h'.onVariable i s (h.onVariable i s hi)
  onLabel i s hi := h'.onLabel i s (h.onLabel i s hi)
  onLambda i s hi := h'.onLambda i s (h.onLambda i s hi)

/-- A new entry in front hides nothing when its key is new. -/
theorem lookup_cons_of_new {α : Type} {i j : Ident} {s s' : α} {names : List (Ident × α)}
    (hnew : names.lookup j = none) (h : names.lookup i = some s) : ((j, s') :: names).lookup i = some s := by
  have hne : (i == j) = false := by
    rw [beq_eq_false_iff_ne]
    rintro rfl
    rw [hnew] at h
    cases h
  rw [List.lookup_cons, hne]
  exact h

theorem extends_fresh (n : Naming) (stem : String) : n.Extends (n.fresh stem).2 :=
  ⟨fun _ _ => id, fun _ _ => id, fun _ _ => id⟩

theorem extends_choose (n : Naming) (own : Option String) (stem : String) : n.Extends (n.choose own stem).2 := by
  cases own with
  | none => exact n.extends_fresh stem
  | some name => exact .refl n

theorem extends_nameVariable (n : Naming) (v : Variable) : n.Extends (n.nameVariable v).2 := by
  unfold nameVariable
  cases h : n.variableNames.lookup v.id with
  | some name => exact .refl n
  | none =>
    have hchoose := n.extends_choose v.name "p"
    have hnames : (n.choose v.name "p").2.variableNames = n.variableNames := by cases v.name <;> rfl
    exact ⟨fun i s hi => lookup_cons_of_new (hnames ▸ h) (hchoose.onVariable i s hi), hchoose.onLabel, hchoose.onLambda⟩

theorem extends_nameLabel (n : Naming) (l : Label) : n.Extends (n.nameLabel l).2 := by
  refine ⟨fun i s hi => ?_, fun i s hi => label?_nameLabel hi l, fun i s hi => ?_⟩
  · rw [variableNames_nameLabel]
    exact hi
  · cases h : n.label? l.id with
    | some name => rwa [nameLabel_of_known h]
    | none =>
      rw [nameLabel_of_new h]
      exact (n.extends_choose l.name "label").onLambda i s hi

theorem extends_nameLambda (n : Naming) (sig : Signature) : n.Extends (n.nameLambda sig).2 := by
  unfold nameLambda
  cases h : n.methodNames.lookup sig.id with
  | some name => exact .refl n
  | none =>
    have hchoose := n.extends_choose sig.name "func"
    have hnames : (n.choose sig.name "func").2.methodNames = n.methodNames := by cases sig.name <;> rfl
    exact ⟨hchoose.onVariable, hchoose.onLabel, fun i s hi => lookup_cons_of_new (hnames ▸ h) (hchoose.onLambda i s hi)⟩

theorem extends_request (n : Naming) (fields : List Field) (value : Hoisted) (ty : Ty) (hint : String) :
    n.Extends (Field.request fields n value ty hint).2.2 := by
  unfold Field.request
  cases fields.find? (·.value.key == value.key) with
  | some field => exact .refl n
  | none => exact n.extends_fresh _

end Naming

/-! ## Calm steps -/

/-- From `d` to `e` no variable is declared, no jump is resolved, and no lambda is moved. -/
structure Draft.Calm (d e : Draft) : Prop where
  names : d.naming.Extends e.naming
  undeclared : e.undeclared = d.undeclared
  scopes : e.flow.scopes = d.flow.scopes
  methods : e.methods = d.methods
  promoted : e.promoted = d.promoted

namespace Draft

variable {d e f : Draft}

theorem Calm.refl (d : Draft) : d.Calm d := ⟨.refl _, rfl, rfl, rfl, rfl⟩

theorem Calm.trans (h : d.Calm e) (h' : e.Calm f) : d.Calm f where
  names := h.names.trans h'.names
  undeclared := h'.undeclared.trans h.undeclared
  scopes := h'.scopes.trans h.scopes
  methods := h'.methods.trans h.methods
  promoted := h'.promoted.trans h.promoted

theorem calm_page (d : Draft) (page : Page) : d.Calm { d with page } := ⟨.refl _, rfl, rfl, rfl, rfl⟩

end Draft

/-! ## The parts of statements -/

/-- The variables that a layer binds. -/
def Node.binders {α : Type} : Node α → List Variable
  | .lambda sig _ => sig.params
  | .block vars _ _ => vars
  | .tryCatch _ handlers _ _ _ => handlers.flatMap (·.caught.toList)
  | _ => []

namespace Writing

/-- Declares the variables of a block that are not declared in place. -/
def blockHead (vars : List Variable) (inPlace : Variable → Bool) : Writing (List Variable) := do
  let ws ← vars.mapM fun v => declare v (inPlace v)
  unless vars.all inPlace do newline
  return ws

/-- A block is its declarations and its statements. -/
theorem block_eq (vars : List Variable) (ps : List Piece) (ty : Ty) (tail : Tail) :
    block vars ps ty tail = (do
      let ws ← blockHead vars fun v => declaredInPlace v.id (tail.atType ty ≠ .discard) (ps.map (·.tree))
      let ts ← statements ps (tail.atType ty)
      return .mk (.block ws ts ty)) := by
  unfold block blockHead
  simp only [bind_assoc]
  congr 1
  funext ws
  split <;> simp

end Writing

/-! ## Trails -/

/-- What the flow knows of a loop or a switch that has just been entered. -/
def Ring.scope : Ring → JumpScope
  | .loop exit again => .loop exit again false false
  | .switch => .switch

/-- How the writing of a node ends, unless it fails. -/
def Node.ends (n : Node Tree) (tail : Tail) (desk : Desk) (d : Draft) : Option (Tree × Draft) :=
  ((Tree.mk n).piece.write tail desk d).toOption

/-- The draft behind the name of the method of a lambda. -/
def Draft.calling (d : Draft) (sig : Signature) : Draft :=
  { d with
    naming := (d.naming.nameLambda sig).2
    page := d.page.write (d.naming.nameLambda sig).1 }

/-- The draft where the method of a lambda begins, on a page of its own. -/
def Draft.moving (d : Draft) (desk : Desk) (sig : Signature) : Draft :=
  { (d.calling sig).onMethodPage desk with flow := {} }

/-- The draft behind a lambda that has been moved: `t` stands for it, and `e` is the draft behind its method. -/
def Draft.moved (d : Draft) (sig : Signature) (t : Tree) (e : Draft) : Draft :=
  { e with
    methods := e.methods.set d.methods.length e.page.text
    page := (d.calling sig).page
    promoted := (sig.id, t) :: e.promoted
    flow := d.flow }

/-- Writes the method that a lambda is moved to, behind a blank line. -/
def Writing.movedMethod (name : String) (sig : Signature) (body : Piece) : Writing Tree := do
  newline
  method (.promoted sig.id) "private " name sig body

namespace Stint

/-- The visit writes the variable. -/
def Writes (i : Ident) (s : Stint) : Prop := ∃ v, s.start.node = .var v ∧ v.id = i

/-- The visit is that of an assignment to the variable, which begins its line. -/
def Assigns (desk : Desk) (i : Ident) (s : Stint) : Prop :=
  ∃ place v value ty d inner finish,
    s = mk ⟨place, .binary .assign (.mk (.var v)) value ty, .discard, d⟩
      (mk ⟨place, .var v, .discard, d⟩ [] ((Node.var v).ends .discard desk d) :: inner) finish ∧
    v.id = i ∧ d.page.owesIndent = true

/-- The first of the visits that has to do with the variable is that of an assignment to it. -/
def FirstAssigns (desk : Desk) (i : Ident) (record : List Stint) : Prop :=
  ∃ before s behind, record = before ++ s :: behind ∧ (∀ x ∈ allOf before, ¬ x.Writes i) ∧ s.Assigns desk i

end Stint

/-- Whether the visit of a node does nothing but what its parts do. -/
def Node.Plain (n : Node Tree) (d : Draft) (finish : Option (Tree × Draft)) : Prop :=
  match n with
  | .var _ => False
  | .block _ _ _ => False
  | .lambda sig body => sig.captures body = true
  | .loop _ _ _ => finish = none
  | .jump kind target _ _ => finish = none ∨ d.flow.Returns kind target
  | _ => True

/-- How the visit of a node goes that begins at `p` and `d`. Between `m` and the end `o` the visits `r` inside are made,
at the place `q`; the variables `vs` may be bound there, and parts of the trees `ts` are visited. -/
inductive Node.Course (desk : Desk) (p : Place) (tail : Tail) (d : Draft) : (n : Node Tree) → (vs : List Variable) →
    (ts : List Tree) → (q : Place) → (m : Draft) → (r : List Stint) → (o : Option Draft) →
    (finish : Option (Tree × Draft)) → Prop where
  | var (v : Variable) : Course desk p tail d (.var v) [] [] p d [] (some d) ((Node.var v).ends tail desk d)
  /-- A block declares its variables, and its statements are visited from there. -/
  | block {m : Draft} {r : List Stint} {vars ws : List Variable} {body : List Tree} {ty : Ty}
    {finish : Option (Tree × Draft)} :
    (Node.block vars body ty).ends tail desk d = finish →
    blockHead vars (fun v => declaredInPlace v.id (tail.atType ty ≠ .discard) body) desk d = .ok (ws, m) →
    (∀ v ∈ vars, declaredInPlace v.id (tail.atType ty ≠ .discard) body = true →
      finish = none ∧ (∀ s ∈ Stint.allOf r, ¬ s.Writes v.id) ∨ Stint.FirstAssigns desk v.id r) →
    Course desk p tail d (.block vars body ty) [] body p m r (finish.map Prod.snd) finish
  /-- The value of a jump is visited up to the draft `m`, and the jump itself is written there. -/
  | jump {m e : Draft} {r : List Stint} {kind : JumpKind} {target : Label} {value : Option Tree} {ty : Ty} {u : Tree} :
    (Node.jump kind target value ty).ends tail desk d = some (u, e) → ¬ d.flow.Returns kind target →
    (do clearFaults (some target); putJump target) desk m = .ok ((), e) →
    Course desk p tail d (.jump kind target value ty) [] value.toList p d r (some m) (some (u, e))
  /-- A loop is visited up to the end of its body, the draft `m`, and its labels are written there. -/
  | loop {d' m e : Draft} {r : List Stint} {body t u : Tree} {exit again : Option Label} :
    (Node.loop body exit again).ends tail desk d = some (u, e) →
    enterLoop exit again (tail.atType (exitTy exit)) desk d = .ok ((), d') →
    upperLoop body.piece exit desk d' = .ok (t, m) →
    lowerLoop (tested? body.piece exit).isSome (exitTy exit) (tail.atType (exitTy exit)) desk m = .ok ((), e) →
    Course desk p tail d (.loop body exit again) [] [body] (p.inside (.loop exit again)) d' r (some m) (some (u, e))
  /-- A lambda that has been moved is called by its name. -/
  | known {sig : Signature} {body u : Tree} :
    sig.captures body = false → d.promoted.lookup sig.id = some u →
    Course desk p tail d (.lambda sig body) [] [] p d [] (some d) (some (u, d.calling sig))
  /-- A lambda is moved to a method on a page of its own. -/
  | moved {r : List Stint} {sig : Signature} {body : Tree} {finish : Option (Tree × Draft)} :
    sig.captures body = false → d.promoted.lookup sig.id = none →
    (movedMethod (d.naming.nameLambda sig).1 sig body.piece desk (d.moving desk sig)).toOption = finish →
    Course desk p tail d (.lambda sig body) sig.params [body] p.function (d.moving desk sig) r (finish.map Prod.snd)
      (finish.map fun f => (f.1, d.moved sig f.1 f.2))
  | plain {r : List Stint} {n : Node Tree} {finish : Option (Tree × Draft)} :
    n.ends tail desk d = finish → n.Plain d finish →
    Course desk p tail d n n.binders n.children p d r (finish.map Prod.snd) finish

/-- What happens to a draft while visits are made. -/
inductive Trail (desk : Desk) : (vs : List Variable) → (ts : List Tree) → (p : Place) → (d : Draft) →
    (r : List Stint) → (o : Option Draft) → Prop where
  | broken (vs : List Variable) (ts : List Tree) (p : Place) (d : Draft) : Trail desk vs ts p d [] none
  | calm {vs : List Variable} {ts : List Tree} {p : Place} {d e : Draft} : d.Calm e → Trail desk vs ts p d [] (some e)
  | trans {vs : List Variable} {ts : List Tree} {p : Place} {d e : Draft} {r r' : List Stint} {o : Option Draft} :
    Trail desk vs ts p d r (some e) → Trail desk vs ts p e r' o → Trail desk vs ts p d (r ++ r') o
  | part {vs : List Variable} {ts : List Tree} {p : Place} {d : Draft} {r : List Stint} {o : Option Draft} {c : Tree} :
    c ∈ ts → Trail desk [] [c] p d r o → Trail desk vs ts p d r o
  /-- The parts of a node are visited, but not the node itself. -/
  | within {p : Place} {d : Draft} {r : List Stint} {o : Option Draft} {n : Node Tree} :
    Trail desk n.binders n.children p d r o → Trail desk [] [.mk n] p d r o
  /-- A variable is written where it is bound. -/
  | bound {vs : List Variable} {ts : List Tree} {p : Place} {d e : Draft} {v : Variable} :
    v ∈ vs → d.Calm { e with undeclared := d.undeclared } → e.undeclared = d.undeclared.filter (· != v.id) →
    Trail desk vs ts p d [] (some e)
  | inside {vs : List Variable} {ts : List Tree} {p : Place} {d : Draft} {r : List Stint} {o : Option Draft}
    (ring : Ring) :
    Trail desk vs ts (p.inside ring) (d.enter ring.scope) r o → Trail desk vs ts p d r (o.map Draft.leave)
  | function {vs : List Variable} {ts : List Tree} {p : Place} {d : Draft} {r : List Stint} {o : Option Draft} :
    Trail desk vs ts p.function { d with flow := {} } r o →
    Trail desk vs ts p d r (o.map fun e => { e with flow := d.flow })
  /-- A node is visited. -/
  | visit {p q : Place} {tail : Tail} {d m : Draft} {n : Node Tree} {vs : List Variable} {ts : List Tree}
    {r : List Stint} {o : Option Draft} {finish : Option (Tree × Draft)} :
    n.Course desk p tail d vs ts q m r o finish → Trail desk vs ts q m r o →
    Trail desk [] [.mk n] p d [.mk ⟨p, n, tail, d⟩ r finish] (finish.map Prod.snd)

/-! ## What is visited -/

theorem Node.Course.mem_children {desk : Desk} {p q : Place} {tail : Tail} {d m : Draft} {n : Node Tree}
    {vs : List Variable} {ts : List Tree} {finish : Option (Tree × Draft)}
    (h : n.Course desk p tail d vs ts q m r o finish) : ∀ t ∈ ts, t ∈ n.children := by
  cases h with
  | var | known => exact nofun
  | _ => exact fun _ => id

theorem Trail.mem_subtrees {desk : Desk} {vs : List Variable} {ts : List Tree} {p : Place} {d : Draft}
    (h : Trail desk vs ts p d r o) : ∀ s ∈ Stint.allOf r, ∃ t ∈ ts, Tree.mk s.start.node ∈ t.subtrees := by
  induction h with
  | broken | calm | bound => simp
  | trans _ _ ih ih' =>
    rw [Stint.allOf_append]
    exact List.forall_mem_append.mpr ⟨ih, ih'⟩
  | part hc _ ih =>
    intro s hs
    obtain ⟨t, ht, hmem⟩ := ih s hs
    rw [List.mem_singleton] at ht
    exact ⟨_, hc, ht ▸ hmem⟩
  | within _ ih =>
    intro s hs
    obtain ⟨t, ht, hmem⟩ := ih s hs
    exact ⟨_, List.mem_singleton_self _, Tree.mem_subtrees_of_child ht hmem⟩
  | inside _ _ ih | function _ ih => exact ih
  | visit hcourse _ ih =>
    rw [Stint.allOf_singleton]
    refine List.forall_mem_cons.mpr ⟨⟨_, List.mem_singleton_self _, Tree.mem_subtrees_self _⟩, fun s hs => ?_⟩
    obtain ⟨t, ht, hmem⟩ := ih s hs
    exact ⟨_, List.mem_singleton_self _, Tree.mem_subtrees_of_child (hcourse.mem_children t ht) hmem⟩

/-- A variable that a tree does not mention is not written in it. -/
theorem Trail.not_writes {desk : Desk} {vs : List Variable} {t : Tree} {p : Place} {d : Draft}
    (h : Trail desk vs [t] p d r o) {i : Ident} (hi : t.mentions i = false) : ∀ s ∈ Stint.allOf r, ¬ s.Writes i := by
  rintro s hs ⟨v, hnode, rfl⟩
  obtain ⟨t', ht, hmem⟩ := h.mem_subtrees s hs
  rw [List.mem_singleton.mp ht, hnode] at hmem
  rw [Tree.mentions_of_mem hmem] at hi
  cases hi

/-! ## The likeness -/

theorem Writing.ok_of_toOption {α : Type} {x : Except ScriptError α} {a : α} (h : x.toOption = some a) : x = .ok a := by
  cases x with
  | error err => cases h
  | ok b => exact congrArg Except.ok (Option.some.inj h)

theorem Writing.bind_of_ok {α : Type} {desk : Desk} {d e : Draft} {a : α} {x : Writing α} {f : α → Writing β}
    (hx : x desk d = .ok (a, e)) : (x >>= f) desk d = f a desk e := by
  rw [bind_apply, hx]

/-- A run that goes on behind another one has the visits of both. -/
theorem Observer.stops_bind {α : Type} {o : Observer} {r' : List Stint} {desk : Desk} {d e : Draft} {a : α}
    {x y : Writing α} {f g : α → Writing β} (hx : x desk d = .ok (a, e)) (hy : y desk d = o.stops r (x desk d))
    (hg : g a desk e = o.stops r' (f a desk e)) : (y >>= g) desk d = o.stops (r ++ r') ((x >>= f) desk d) := by
  rw [bind_apply, bind_apply, hy, hx]
  unfold Observer.stops at hg ⊢
  rw [Stint.stoppedOf_append]
  cases Stint.stoppedOf o r with
  | some err => rfl
  | none => exact hg

theorem Observer.stops_bind_error {α : Type} {o : Observer} {desk : Desk} {d : Draft}
    {err : ScriptError} {x y : Writing α} {f g : α → Writing β} (hx : x desk d = .error err)
    (hy : y desk d = o.stops r (x desk d)) : (y >>= g) desk d = o.stops r ((x >>= f) desk d) := by
  rw [bind_apply, bind_apply, hy, hx]
  unfold Observer.stops
  cases Stint.stoppedOf o r <;> rfl

theorem Observer.stops_map {α : Type} {o : Observer} {desk : Desk} {d : Draft} {x y : Writing α}
    (h : y desk d = o.stops r (x desk d)) (g : α → β) :
    (do let a ← y; return g a) desk d = o.stops r ((do let a ← x; return g a) desk d) := by
  rw [bind_apply, bind_apply, h]
  unfold Observer.stops
  cases Stint.stoppedOf o r with
  | some err | none => rfl

theorem Writing.end_map {α : Type} (x : Writing α) (g : α → β) (desk : Desk) (d : Draft) :
    ((do let a ← x; return g a) desk d).toOption.map Prod.snd = (x desk d).toOption.map Prod.snd := by
  rw [bind_apply]
  cases x desk d with
  | error err | ok a => rfl

theorem Observer.map_stops {α : Type} (o : Observer) (r : List Stint) (result : Except ScriptError α) (g : α → β) :
    (o.stops r result).map g = o.stops r (result.map g) := by
  unfold stops
  cases Stint.stoppedOf o r with
  | some err | none => rfl

namespace Writing

theorem end_of_map {α : Type} (result : Except ScriptError (α × Draft)) (g : Draft → Draft) :
    (result.map (Prod.map id g)).toOption.map Prod.snd = (result.toOption.map Prod.snd).map g := by
  cases result with
  | error err | ok r => rfl

theorem inScope_apply {α : Type} (scope : JumpScope) (x : Writing α) (desk : Desk) (d : Draft) :
    inScope scope x desk d = (x desk (d.enter scope)).map (Prod.map id Draft.leave) := by
  have hsplit : inScope scope x desk d = (do let a ← x; leaveScope; pure a) desk (d.enter scope) := rfl
  rw [hsplit, bind_apply]
  cases x desk (d.enter scope) <;> rfl

theorem inFunction_apply {α : Type} (x : Writing α) (desk : Desk) (d : Draft) :
    inFunction x desk d = (x desk { d with flow := {} }).map (Prod.map id fun e => { e with flow := d.flow }) := by
  have hsplit : inFunction x desk d =
      (do let a ← x; onFlow fun _ => d.flow; pure a) desk { d with flow := {} } := rfl
  rw [hsplit, bind_apply]
  cases x desk { d with flow := {} } <;> rfl

end Writing

/-- From every draft there is a record of what the observers see, and its trail ends where the computation does. -/
def Trails (desk : Desk) (vs : List Variable) (ts : List Tree) (p : Place) : Likeness Observer := fun _ x y =>
  ∀ d, ∃ r, (∀ o, y o desk d = o.stops r (x desk d)) ∧ Trail desk vs ts p d r ((x desk d).toOption.map Prod.snd)

namespace Trails

variable {α : Type} {desk : Desk} {vs : List Variable} {ts : List Tree} {p : Place}

theorem of_calm {x : Writing α} (h : ∀ d, ∃ a e, x desk d = .ok (a, e) ∧ d.Calm e) :
    Trails desk vs ts p α x fun _ => x := by
  intro d
  obtain ⟨a, e, hx, hcalm⟩ := h d
  refine ⟨[], fun o => (o.stops_nil _).symm, ?_⟩
  rw [hx]
  exact .calm hcalm

theorem part {c : Tree} (hc : c ∈ ts) {x : Writing α} {y : Observer → Writing α} (h : Trails desk [] [c] p α x y) :
    Trails desk vs ts p α x y := by
  intro d
  obtain ⟨r, hr, htrail⟩ := h d
  exact ⟨r, hr, .part hc htrail⟩

theorem bind {x : Writing α} {y : Observer → Writing α} {f : α → Writing β} {g : α → Observer → Writing β}
    (hx : Trails desk vs ts p α x y) (hf : ∀ a, Trails desk vs ts p β (f a) (g a)) :
    Trails desk vs ts p β (x >>= f) fun o => y o >>= fun a => g a o := by
  intro d
  obtain ⟨r, hr, htrail⟩ := hx d
  cases hrun : x desk d with
  | error err =>
    refine ⟨r, fun o => Observer.stops_bind_error hrun (hr o), ?_⟩
    rw [hrun] at htrail
    rw [bind_apply, hrun]
    exact htrail
  | ok a =>
    obtain ⟨a, e⟩ := a
    obtain ⟨r', hr', htrail'⟩ := hf a e
    refine ⟨r ++ r', fun o => Observer.stops_bind hrun (hr o) (hr' o), ?_⟩
    rw [hrun] at htrail
    rw [bind_apply, hrun]
    exact .trans htrail htrail'

theorem congruent (desk : Desk) (vs : List Variable) (ts : List Tree) (p : Place) :
    Likeness.Congruent (Trails desk vs ts p) .all where
  pure a := of_calm fun d => ⟨a, d, rfl, .refl d⟩
  throw _ d := ⟨[], fun o => (o.stops_nil _).symm, .broken vs ts p d⟩
  bind := bind
  onPage f := of_calm fun d => ⟨_, _, rfl, d.calm_page _⟩
  spell _ := of_calm fun d => ⟨_, _, rfl, .refl _, rfl, rfl, rfl, rfl⟩
  markDynamic := of_calm fun d => ⟨_, _, rfl, .refl _, rfl, rfl, rfl, rfl⟩
  field value _ _ := of_calm fun d => ⟨_, _, rfl, d.naming.extends_request _ _ _ _, rfl, rfl, rfl, rfl⟩
  fresh stem := of_calm fun d => ⟨_, _, rfl, d.naming.extends_fresh stem, rfl, rfl, rfl, rfl⟩
  nameLabel l := of_calm fun d => ⟨_, _, rfl, d.naming.extends_nameLabel l, rfl, rfl, rfl, rfl⟩
  addTaker target tail := of_calm fun d => by
    unfold addTaker
    split
    · exact ⟨_, _, rfl, .refl _, rfl, rfl, rfl, rfl⟩
    · exact ⟨_, _, rfl, .refl d⟩
  mark form start := of_calm fun d => by
    unfold mark
    rw [read_bind]
    cases desk.wrapper.document with
    | none => exact ⟨_, _, rfl, .refl d⟩
    | some document => exact ⟨_, _, rfl, .refl _, rfl, rfl, rfl, rfl⟩
  turn := of_calm fun d => ⟨_, _, rfl, .refl _, rfl, rfl, rfl, rfl⟩
  get_bind hf d := hf d d
  read_bind hf := hf desk

theorem function {x : Writing α} {y : Observer → Writing α} (h : Trails desk vs ts p.function α x y) :
    Trails desk vs ts p α (inFunction x) fun o => inFunction (y o) := by
  intro d
  obtain ⟨r, hr, htrail⟩ := h { d with flow := {} }
  refine ⟨r, fun o => ?_, ?_⟩
  · show inFunction (y o) desk d = _
    rw [inFunction_apply, inFunction_apply, hr, Observer.map_stops]
  · rw [inFunction_apply, end_of_map]
    exact htrail.function

theorem inside (ring : Ring) {x : Writing α} {y : Observer → Writing α} (h : Trails desk vs ts (p.inside ring) α x y) :
    Trails desk vs ts p α (inScope ring.scope x) fun o => inScope ring.scope (y o) := by
  intro d
  obtain ⟨r, hr, htrail⟩ := h (d.enter ring.scope)
  refine ⟨r, fun o => ?_, ?_⟩
  · show inScope ring.scope (y o) desk d = _
    rw [inScope_apply, inScope_apply, hr, Observer.map_stops]
  · rw [inScope_apply, end_of_map]
    exact htrail.inside ring

end Trails

end Scribe
