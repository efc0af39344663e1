import Scribe.Proofs.Script.Text
import Scribe.Proofs.Writing.Declared
import Scribe.Proofs.Writing.Numbers
import Scribe.Proofs.Writing.Property
import Scribe.Proofs.Writing.Series

/-!
# The parameters of methods

A lambda becomes a method with a list of parameters. A parameter with a name of its own keeps it, and the others get
numbers behind a `p`. No number is given out twice. Own names are not looked at when numbers are given out, though: a
parameter may have as its own name what another one is called by its number. This is the one way in which two parameters
of a method come to be called the same when their own names differ (`Signature.Called.nodup_iff`).

What the parameters of a method are called depends on the variables that were named before. `Tree.Lists` says that
writing a part of a tree keeps names honest, and that all methods that are finished on the way have their parameters
listed under such names.
-/

namespace Scribe

open Writing
open Text (Page)

/-! ## Names -/

namespace Signature

variable {sig : Signature} {called : Ident → String}

/-- The names that parameters have of their own, escaped. -/
def ownNames (sig : Signature) : List String := sig.params.filterMap fun v => v.name.map Identifier.escape

/-- The parameters without names. -/
def nameless (sig : Signature) : List Variable := sig.params.filter (·.name.isNone)

/-- Parameters are called by their own names, or by numbers of which each belongs to one identity. -/
structure Called (sig : Signature) (called : Ident → String) : Prop where
  own : ∀ v ∈ sig.params, ∀ s, v.name = some s → called v.id = Identifier.escape s
  numbered : ∀ v ∈ sig.params, v.name = none → ∃ k : Nat, called v.id = "p" ++ toString k
  apart : ∀ v ∈ sig.params, ∀ w ∈ sig.params, v.name = none → w.name = none →
    called v.id = called w.id → v.id = w.id

/-- Where own names differ, all names do, unless a nameless parameter is listed twice or is called what is the own name of
another one. -/
theorem Called.nodup_iff (h : sig.Called called) (hown : sig.ownNames.Nodup) :
    (sig.params.map (called ·.id)).Nodup ↔
      (sig.nameless.map (·.id)).Nodup ∧ ∀ v ∈ sig.nameless, called v.id ∉ sig.ownNames := by
  constructor
  · intro hall
    constructor
    · have hcalled : ((sig.nameless.map (·.id)).map called).Nodup := by
        rw [List.map_map]
        exact hall.sublist (List.filter_sublist.map _)
      exact hcalled.of_map called
    · intro v hv hmem
      obtain ⟨hv, hnone⟩ := List.mem_filter.mp hv
      obtain ⟨w, hw, hname⟩ := List.mem_filterMap.mp hmem
      obtain ⟨s, hs, hescape⟩ := Option.map_eq_some_iff.mp hname
      obtain rfl := List.inj_on_of_nodup_map hall hv hw (hescape.symm.trans (h.own w hw s hs).symm)
      simp [hs] at hnone
  · rintro ⟨hids, hclash⟩
    -- a nameless parameter and one with a name of its own
    have hmixed : ∀ v ∈ sig.params, ∀ w ∈ sig.params, v.name = none → ∀ s, w.name = some s →
        called v.id ≠ called w.id := by
      intro v hv w hw hnone s hs hsame
      refine hclash v (List.mem_filter.mpr ⟨hv, by simp [hnone]⟩) (List.mem_filterMap.mpr ⟨w, hw, ?_⟩)
      rw [hsame, h.own w hw s hs, hs]
      rfl
    unfold List.Nodup at hown hids ⊢
    rw [ownNames, List.pairwise_filterMap] at hown
    rw [nameless, List.pairwise_map, List.pairwise_filter] at hids
    rw [List.pairwise_map]
    refine (hown.and hids).imp_of_mem fun {v w} hv hw hvw hsame => ?_
    cases hvname : v.name with
    | none =>
      cases hwname : w.name with
      | none => exact hvw.2 (by simp [hvname]) (by simp [hwname]) (h.apart v hv w hw hvname hwname hsame)
      | some s => exact hmixed v hv w hw hvname s hwname hsame
    | some s =>
      cases hwname : w.name with
      | none => exact hmixed w hw v hv hwname s hvname hsame.symm
      | some s' =>
        rw [h.own v hv s hvname, h.own w hw s' hwname] at hsame
        exact hvw.1 _ (by rw [hvname]; rfl) _ (by rw [hwname]; rfl) hsame

end Signature

namespace Naming

variable {n n' : Naming} {vs : List Variable}

theorem Honest.called (h : n.Honest vs) {sig : Signature} (hvs : ∀ v ∈ sig.params, v ∈ vs)
    (hknows : ∀ v ∈ sig.params, n.Knows v.id) : sig.Called n.ofVariable where
  own v hv s hs := h.own v (hvs v hv) (hknows v hv) s hs
  numbered v hv hs := by
    obtain ⟨k, -, hk⟩ := h.numbered v (hvs v hv) (hknows v hv) hs
    exact ⟨k, hk⟩
  apart v hv w hw := h.apart v (hvs v hv) w (hvs w hw) (hknows v hv) (hknows w hw)

/-- Names are honest as long as variables keep theirs and no number is taken back. -/
theorem Honest.of_grows (h : n.Honest vs) (hnames : n'.variableNames = n.variableNames) (hgrows : n.Grows n') :
    n'.Honest vs := by
  have hcalled : n'.ofVariable = n.ofVariable := funext fun i => by rw [ofVariable, hnames, ofVariable]
  have hknows : n'.Knows = n.Knows := funext fun i => by rw [Knows, hnames, Knows]
  refine ⟨?_, fun v hv hk hs => ?_, ?_⟩
  · rw [hcalled, hknows]
    exact h.own
  · rw [hknows] at hk
    obtain ⟨k, hle, hname⟩ := h.numbered v hv hk hs
    exact ⟨k, Nat.le_trans hle (hgrows "p"), hcalled ▸ hname⟩
  · rw [hcalled, hknows]
    exact h.apart

/-- Nameless variables that are new get the numbers behind the last one, in order. -/
theorem numbers_nameAll (hone : OneName vs) (hids : ((vs.filter (·.name.isNone)).map (·.id)).Nodup)
    (hnew : ∀ v ∈ vs, v.name = none → ¬ n.Knows v.id) :
    (vs.filter (·.name.isNone)).map ((n.nameAll vs).ofVariable ·.id) =
      (List.range' (n.lastNumber "p" + 1) (vs.filter (·.name.isNone)).length).map ("p" ++ toString ·) := by
  induction vs generalizing n with
  | nil => rfl
  | cons v vs ih =>
    have hone' : OneName vs := fun w hw x hx => hone w (List.mem_cons_of_mem v hw) x (List.mem_cons_of_mem v hx)
    have hrest : ∀ w ∈ vs, w.name = none → w.id ≠ v.id → ¬ (n.nameVariable v).2.Knows w.id := by
      intro w hw hs hne hk
      exact hnew w (List.mem_cons_of_mem v hw) hs ((knows_nameVariable_iff.mp hk).resolve_left hne)
    -- only nameless variables move the number on
    cases hname : v.name with
    | none =>
      rw [List.filter_cons_of_pos (by simp [hname]), List.map_cons, List.nodup_cons] at hids
      have hv := hnew v List.mem_cons_self hname
      have hlast : (n.nameVariable v).2.lastNumber "p" = n.lastNumber "p" + 1 := by
        rw [lastNumber_nameVariable hv, if_pos hname]
      have hself : ((n.nameVariable v).2.nameAll vs).ofVariable v.id = "p" ++ toString (n.lastNumber "p" + 1) := by
        rw [ofVariable_nameAll (knows_nameVariable_iff.mpr (.inl rfl)), ofVariable_self_of_not_knows hv, hname]
        rfl
      have hothers := ih hone' hids.2 fun w hw hs => hrest w hw hs fun hid =>
        hids.1 (List.mem_map.mpr ⟨w, List.mem_filter.mpr ⟨hw, by simp [hs]⟩, hid⟩)
      rw [List.filter_cons_of_pos (by simp [hname]), List.map_cons, nameAll_cons, hself, hothers, hlast, List.length_cons,
        List.range'_succ, List.map_cons]
    | some s =>
      rw [List.filter_cons_of_neg (by simp [hname])] at hids ⊢
      have hlast : (n.nameVariable v).2.lastNumber "p" = n.lastNumber "p" := by
        by_cases hv : n.Knows v.id
        · rw [nameVariable_of_knows hv]
        · rw [lastNumber_nameVariable hv, if_neg (by simp [hname])]
      have hothers := ih hone' hids fun w hw hs => hrest w hw hs fun hid => by
        have hsame := hone w (List.mem_cons_of_mem v hw) v List.mem_cons_self hid
        rw [hs, hname] at hsame
        cases hsame
      rw [nameAll_cons, hothers, hlast]

end Naming

/-! ## Declarations -/

/-- The text declares the variable under the name: a way to spell its type stands in front, and another one where the
variable was to be declared in place. -/
def Variable.DeclaredAs (v : Variable) (name text : String) : Prop :=
  ∃ type pending, v.ty.SpelledAs type ∧ (pending = "" ∨ ∃ type', v.ty.SpelledAs type' ∧ pending = type' ++ " ") ∧
    text = (if v.ty.isByRef then "ref " else "") ++ type ++ " " ++ pending ++ name

namespace Writing

variable {desk : Desk} {d e : Draft}

theorem parameter_text {v w : Variable} (hd : d.page.owesIndent = false) (h : parameter v desk d = .ok (w, e)) :
    e.naming = (d.naming.nameVariable v).2 ∧
      ∃ text, v.DeclaredAs (d.naming.nameVariable v).1 text ∧ e.page.text = d.page.text ++ text := by
  let type := ((Lexicon.spell v.ty).run d.lexicon).1
  let front := (if v.ty.isByRef then "ref " else "") ++ type ++ " "
  let typed : Draft := { d with lexicon := ((Lexicon.spell v.ty).run d.lexicon).2, page := d.page.write front }
  have hrun : parameter v desk d = putVariable v desk typed := by
    unfold parameter
    cases hv : v.ty.isByRef <;>
      simp only [hv, Bool.false_eq_true, if_true, if_false, put_bind, putType_bind, Page.write_write, typed, front,
        String.empty_append] <;> rfl
  rw [hrun, putVariable_apply] at h
  cases h
  refine ⟨typed.writing_naming v, ?_⟩
  by_cases hmem : v.id ∈ typed.undeclared
  · obtain ⟨type', htype', hpage⟩ := Draft.writing_page_of_mem hmem
    refine ⟨_, ⟨type, type' ++ " ", ⟨d.lexicon, rfl⟩, .inr ⟨type', htype', rfl⟩, rfl⟩, ?_⟩
    rw [hpage, Page.write_write, Page.write_text_of_settled hd]
    simp only [front, String.append_assoc]
    rfl
  · refine ⟨_, ⟨type, "", ⟨d.lexicon, rfl⟩, .inl rfl, rfl⟩, ?_⟩
    rw [Draft.writing_page_of_not_mem hmem, Page.write_write, Page.write_text_of_settled hd, String.append_empty]

/-- Behind the head of a method its parameters are listed, under the names that they have in the end. -/
theorem methodRest_text {id : Ident} {name : String} {sig : Signature} {body u : Tree} (hd : d.page.owesIndent = false)
    (h : methodRest id name sig body.piece desk d = .ok (u, e)) : ∃ items rest,
      List.Forall₂ (fun v => v.DeclaredAs ((d.naming.nameAll sig.params).ofVariable v.id)) sig.params items ∧
      e.page.text = d.page.text ++ (", ".intercalate items ++ ")" ++ rest) := by
  let called := (d.naming.nameAll sig.params).ofVariable
  have hitem : ∀ v vs c w f, c.naming.nameAll (v :: vs) = d.naming.nameAll sig.params → c.page.owesIndent = false →
      parameter v desk c = .ok (w, f) → f.naming.nameAll vs = d.naming.nameAll sig.params ∧ f.page.owesIndent = false ∧
        ∃ text, v.DeclaredAs (called v.id) text ∧ f.page.text = c.page.text ++ text := by
    intro v vs c w f hnames hc hrun
    obtain ⟨hnaming, text, hdeclared, htext⟩ := parameter_text hc hrun
    rw [Naming.nameAll_cons] at hnames
    refine ⟨hnaming ▸ hnames, ((parameter_inline v c w f hrun).2.settled hc).1, text, ?_, htext⟩
    simp only [called]
    rw [← hnames, Naming.ofVariable_nameAll (Naming.knows_nameVariable_iff.mpr (.inl rfl)), ← Naming.nameVariable_fst]
    exact hdeclared
  obtain ⟨params, f, hparams, h⟩ := bind_eq_ok.mp h
  obtain ⟨-, hf, items, hitems, htext⟩ := separated_texts
    (I := fun vs c => c.naming.nameAll vs = d.naming.nameAll sig.params) (fun _ _ hnames => hnames) hitem rfl hd hparams
  have hrest : Stepwise desk (do
      let t ← body.piece.bracedBody (Tail.atType .result sig.result)
      return Tree.mk (.lambda { id, name := some name, params, result := sig.result } t)) :=
    .map (Piece.bracedBody_stepwise body.steps _)
  obtain ⟨rest, hrest⟩ := (hrest _ _ _ h).text
  refine ⟨items, rest, hitems, ?_⟩
  rw [hrest, Page.write_text_of_settled hf, htext]
  simp only [String.append_assoc]

end Writing

/-! ## Methods -/

/-- The text is that of a method behind `lead`, with the parameters of the lambda. They are called `called`, and their
names differ but for one case. -/
structure Signature.ListedIn (sig : Signature) (lead name text : String) (called : Ident → String) : Prop where
  text : ∃ type items rest, sig.result.SpelledAs type ∧
    List.Forall₂ (fun v => v.DeclaredAs (called v.id)) sig.params items ∧
    text = lead ++ (type ++ " " ++ name ++ "(" ++ (", ".intercalate items ++ ")" ++ rest))
  names : sig.Called called
  distinct : sig.ownNames.Nodup → ((sig.params.map (called ·.id)).Nodup ↔
    (sig.nameless.map (·.id)).Nodup ∧ ∀ v ∈ sig.nameless, called v.id ∉ sig.ownNames)

/-- The modifiers of a method. -/
def Desk.modifiers (desk : Desk) (access : String) : String :=
  access ++ if desk.wrapper.isStatic then "static " else ""

theorem Writing.method_listed {desk : Desk} {d e : Draft} {id : Ident} {access name : String} {sig : Signature}
    {vs : List Variable} {body u : Tree} (hone : Naming.OneName vs) (hvs : ∀ v ∈ sig.params, v ∈ vs)
    (hd : d.naming.Honest vs) (h : method id access name sig body.piece desk d = .ok (u, e)) :
    sig.ListedIn (d.page.newline.text ++ (d.page.margin ++ desk.modifiers access)) name e.page.text
      (d.naming.nameAll sig.params).ofVariable := by
  have hcalled : sig.Called (d.naming.nameAll sig.params).ofVariable :=
    (hd.nameAll hone hvs).called hvs fun v hv => Naming.knows_nameAll hv _
  rw [method_eq] at h
  have hsettled : (d.headed desk access name sig).page.owesIndent = false :=
    Page.write_owesIndent (by simp [Draft.methodHead]) _
  obtain ⟨items, rest, hitems, htext⟩ := methodRest_text hsettled h
  refine ⟨⟨_, items, rest, ⟨d.lexicon, rfl⟩, hitems, ?_⟩, hcalled, hcalled.nodup_iff⟩
  rw [htext, d.headed_text]
  simp only [Draft.methodHead, Desk.modifiers, String.append_assoc]

/-- The text is that of the entry method of a lambda. Its nameless parameters have the numbers from one on. -/
def Signature.EntersIn (sig : Signature) (desk : Desk) (text : String) : Prop :=
  ∃ called, sig.ListedIn (desk.firstPage.newline.text ++ (desk.firstPage.margin ++ desk.modifiers "public "))
    desk.wrapper.entryName text called ∧ ((sig.nameless.map (·.id)).Nodup →
      sig.nameless.map (called ·.id) = (List.range' 1 sig.nameless.length).map ("p" ++ toString ·))

/-! ## Trees -/

namespace Tree

variable {α : Type} {t : Tree} {desk : Desk}

/-- The text is that of a private method with the parameters of a lambda of the tree. -/
def HasMethod (t : Tree) (desk : Desk) (text : String) : Prop :=
  ∃ sig body name called, .mk (.lambda sig body) ∈ t.subtrees ∧
    sig.ListedIn ("\n\n" ++ (Page.blanks desk.wrapper.memberLevel ++ desk.modifiers "private ")) name text called

/-- Names stay honest, and the methods that are added are those of lambdas of the tree. -/
def Lists (t : Tree) (desk : Desk) : Property := fun _ x => ∀ d a e, x desk d = .ok (a, e) →
  d.naming.Honest t.variables → e.naming.Honest t.variables ∧
    ∃ texts, e.methods = d.methods ++ texts ∧ ∀ text ∈ texts, t.HasMethod desk text

theorem Lists.of_step {x : Writing α} (h : ∀ d, ∃ a e, x desk d = .ok (a, e) ∧
    (d.naming.Honest t.variables → e.naming.Honest t.variables) ∧ e.methods = d.methods) : t.Lists desk α x := by
  intro d a e hx hd
  obtain ⟨a', e', hx', hhonest, hmethods⟩ := h d
  cases hx.symm.trans hx'
  exact ⟨hhonest hd, [], by rw [hmethods, List.append_nil], nofun⟩

theorem Lists.congruent : (Property.likeness (t.Lists desk)).Congruent .all where
  pure a := .of_step fun d => ⟨a, d, rfl, id, rfl⟩
  throw _ := nofun
  bind hx hf := by
    intro d b f h hd
    obtain ⟨a, e, hx', hf'⟩ := bind_eq_ok.mp h
    obtain ⟨he, texts, hmethods, htexts⟩ := hx d a e hx' hd
    obtain ⟨hf, texts', hmethods', htexts'⟩ := hf a e b f hf' he
    refine ⟨hf, texts ++ texts', ?_, List.forall_mem_append.mpr ⟨htexts, htexts'⟩⟩
    rw [hmethods', hmethods, List.append_assoc]
  onPage f := .of_step fun d => ⟨_, _, rfl, id, rfl⟩
  spell _ := .of_step fun d => ⟨_, _, rfl, id, rfl⟩
  markDynamic := .of_step fun d => ⟨_, _, rfl, id, rfl⟩
  field value ty _ := .of_step fun d => by
    refine ⟨_, _, rfl, fun h => ?_, rfl⟩
    show (Field.request d.fields d.naming value ty value.hint).2.2.Honest t.variables
    unfold Field.request
    split
    · exact h
    · exact h.of_grows rfl (d.naming.grows_fresh _)
  fresh stem := .of_step fun d => ⟨_, _, rfl, fun h => h.of_grows rfl (d.naming.grows_fresh stem), rfl⟩
  nameLabel l := .of_step fun d =>
    ⟨_, _, rfl, fun h => h.of_grows (d.naming.variableNames_nameLabel l) (d.naming.grows_nameLabel l), rfl⟩
  addTaker target tail := by
    unfold addTaker
    split
    · exact .of_step fun d => ⟨_, _, rfl, id, rfl⟩
    · exact .of_step fun d => ⟨_, d, rfl, id, rfl⟩
  mark form start := .of_step fun d => by
    unfold mark
    rw [read_bind]
    cases desk.wrapper.document with
    | none => exact ⟨_, d, rfl, id, rfl⟩
    | some document => exact ⟨_, _, rfl, id, rfl⟩
  turn := .of_step fun d => ⟨_, _, rfl, id, rfl⟩
  get_bind hf d := hf d d
  read_bind hf := hf desk

theorem Lists.closed (ht : Naming.OneName t.variables) :
    Property.Closed (t.Lists desk) .all fun n => .mk n ∈ t.subtrees where
  congruent := Lists.congruent
  defect _ _ _ := trivial
  types _ ty _ := Allowance.admits_all ty
  onFlow f := .of_step fun d => ⟨_, _, rfl, id, rfl⟩
  pending f := .of_step fun d => ⟨_, _, rfl, id, rfl⟩
  nameVariable hn hv := .of_step fun d =>
    ⟨_, _, rfl, fun h => h.nameVariable ht (List.mem_flatMap.mpr ⟨_, hn, hv⟩), rfl⟩
  nameLambda sig := .of_step fun d => by
    refine ⟨_, _, rfl, fun h => h.of_grows ?_ (d.naming.grows_nameLambda sig), rfl⟩
    show (d.naming.nameLambda sig).2.variableNames = _
    unfold Naming.nameLambda
    split
    · rfl
    · exact d.naming.choose_variableNames _ _
  promote {sig body name} hn hmethod := by
    intro d u e h hd
    rw [promote_apply] at h
    cases hrun : inFunction (do newline; method (.promoted sig.id) "private " name sig body.piece) desk
        (d.onMethodPage desk) with
    | error err =>
      rw [hrun] at h
      cases h
    | ok r =>
      obtain ⟨u', f⟩ := r
      rw [hrun] at h
      obtain ⟨hf, texts, hmethods, htexts⟩ := hmethod _ u' f hrun hd
      -- The text of the method takes the slot that was reserved in front of the methods inside.
      have hslot : f.methods.set d.methods.length f.page.text = d.methods ++ f.page.text :: texts := by
        rw [hmethods]
        simp [Draft.onMethodPage]
      have hlisted : t.HasMethod desk f.page.text := by
        let start : Draft := { d.onMethodPage desk with page := (d.onMethodPage desk).page.newline, flow := {} }
        rw [inFunction_apply] at hrun
        change (method (.promoted sig.id) "private " name sig body.piece desk start).map _ = _ at hrun
        cases hm : method (.promoted sig.id) "private " name sig body.piece desk start with
        | error err =>
          rw [hm] at hrun
          cases hrun
        | ok r =>
          rw [hm] at hrun
          have hlisted := method_listed ht (fun v hv => List.mem_flatMap.mpr ⟨_, hn, hv⟩) (d := start) hd hm
          cases hrun
          exact ⟨sig, body, name, _, hn, hlisted⟩
      cases h
      exact ⟨hf, _, hslot, List.forall_mem_cons.mpr ⟨hlisted, htexts⟩⟩

/-- **When the parameters of a method are called the same.** A script is put together from a draft in which the parameters
of the entry method and of all private methods are listed. Where their own names differ, they are called the same only by
a nameless one that is listed twice or whose number gives the own name of another one. -/
theorem toScript_lists_parameters {w : Wrapper} {script : Script} (h : t.toScript w = .ok script) (ht : t.Coherent) :
    ∃ k layout u d, t.draft ⟨w, k⟩ = .ok (u, d) ∧ d.assemble w u = .ok (script, layout) ∧
      (∀ sig body, t = .mk (.lambda sig body) → sig.EntersIn ⟨w, k⟩ d.page.text) ∧
      ∀ text ∈ d.methods, t.HasMethod ⟨w, k⟩ text := by
  obtain ⟨k, layout, u, d, hdraft, hassemble⟩ := exists_draft_of_toScript h
  have hone : Naming.OneName t.variables := fun v hv w hw hid => congrArg Variable.name (ht v hv w hw hid)
  have hhonest : Naming.Honest {} t.variables := Naming.honest_empty _
  refine ⟨k, layout, u, d, hdraft, hassemble, ?_, ?_⟩
  · rintro sig body rfl
    let start : Draft := { page := Desk.firstPage ⟨w, k⟩ }
    have hparams : ∀ v ∈ sig.params, v ∈ (Tree.mk (.lambda sig body)).variables :=
      fun v hv => mem_variables_mk.mpr (.inl hv)
    have hmethod : method (.entry sig.id) "public " w.entryName sig body.piece ⟨w, k⟩ start = .ok (u, d) := hdraft
    have hlisted := method_listed hone hparams (d := start) hhonest hmethod
    refine ⟨_, hlisted, fun hids => ?_⟩
    exact Naming.numbers_nameAll (n := {}) (fun v hv w hw => hone v (hparams v hv) w (hparams w hw)) hids
      fun v _ _ => by simp [Naming.Knows]
  · obtain ⟨-, texts, hmethods, htexts⟩ := (Lists.closed hone).writeRoot t (by rintro ⟨_⟩ hs; exact hs) _ u d hdraft hhonest
    rw [hmethods]
    exact htexts

/-- A method with an own name that has to be escaped, and numbers that go on in the method of a lambda inside. -/
theorem toScript_lists_parameters_nested :
    let a : Variable := { id := .given "a", name := some "a", ty := .int }
    let b : Variable := { id := .given "b", ty := .int }
    let y : Variable := { id := .given "y", ty := .int }
    let z : Variable := { id := .given "z", name := some "ref", ty := .int }
    let g : Tree := .mk (.lambda { id := .given "g", params := [y, z], result := .int } (.mk (.var y)))
    let t : Tree := .mk (.lambda { id := .given "f", params := [a, b], result := .int }
      (.mk (.invoke g [.mk (.var a), .mk (.var b)] .int)))
    let text := "public int Main(int a, int p1)\n\x7b\n    return func1(a, p1);\n\x7d\n\n" ++
      "private int func1(int p2, int @ref)\n\x7b\n    return p2;\n\x7d"
    (t.toScript {}).toOption.map (·.text) = some text ∧ t.Coherent ∧
    ∃ script k layout u d, t.toScript {} = .ok script ∧ t.draft ⟨{}, k⟩ = .ok (u, d) ∧
      d.assemble {} u = .ok (script, layout) ∧
      (∀ sig body, t = .mk (.lambda sig body) → sig.EntersIn ⟨{}, k⟩ d.page.text) ∧
      ∀ text ∈ d.methods, t.HasMethod ⟨{}, k⟩ text := by
  intro a b y z g t text
  have htext : (t.toScript {}).toOption.map (·.text) = some text := by decide +kernel
  have hcoherent : t.Coherent := by decide +kernel
  refine ⟨htext, hcoherent, ?_⟩
  cases hscript : t.toScript {} with
  | error err =>
    rw [hscript] at htext
    cases htext
  | ok script =>
    obtain ⟨k, layout, u, d, hlists⟩ := toScript_lists_parameters hscript hcoherent
    exact ⟨script, k, layout, u, d, rfl, hlists⟩

/-- The one own name differs from no other one, and still both parameters are called the same. -/
theorem own_name_taken_by_number :
    let x : Variable := { id := .given "x", ty := .int }
    let y : Variable := { id := .given "y", name := some "p1", ty := .int }
    let sig : Signature := { id := .given "f", params := [x, y], result := .int }
    sig.ownNames.Nodup ∧ (sig.params.map (·.id)).Nodup ∧
      ((Tree.mk (.lambda sig (.mk (.var x)))).toScript {}).toOption.map (·.text) =
        some "public int Main(int p1, int p1)\n\x7b\n    return p1;\n\x7d" := by
  decide +kernel

end Tree

end Scribe
