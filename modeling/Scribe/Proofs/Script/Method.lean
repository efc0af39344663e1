import Mathlib.Data.List.Nodup
import Scribe.Proofs.Flow.Written
import Scribe.Proofs.Script.Text

/-!
# Lambdas as methods

A lambda is written as a method: a line with its modifiers, the type of its result, its name and its
parameters, and its body in braces. Where the types are keywords and the body is structured, the method is
all there is on the page, and it is read as the statements of the body.
-/

namespace Scribe

open Writing
open Reading hiding statement statements

variable {ty : Ty} {sig : Signature}

/-! ## The head of a method -/

/-- The keyword of a type; nothing for one without a keyword. -/
def Ty.word (ty : Ty) : String := ty.keyword?.getD ""

theorem Ty.keyword?_eq_word (h : ty.keyword?.isSome = true) : ty.keyword? = some ty.word := by
  obtain ⟨s, hs⟩ := Option.isSome_iff_exists.mp h
  rw [Ty.word, hs]
  rfl

/-- The declarations of parameters that are called `ν`. -/
def declarations (ν : Ident → String) : List Variable → String
  | [] => ""
  | [v] => v.ty.word ++ (" " ++ ν v.id)
  | v :: vs => v.ty.word ++ (" " ++ ν v.id) ++ (", " ++ declarations ν vs)

/-- The type of the result, the name and the parameters of a method. -/
def signatureOf (name : String) (sig : Signature) (ν : Ident → String) : String :=
  sig.result.word ++ (" " ++ name ++ ("(" ++ (declarations ν sig.params ++ ")")))

/-- What stands behind the access modifier in the head of a method. -/
def headOf (isStatic : Bool) (name : String) (sig : Signature) (ν : Ident → String) : String :=
  if isStatic then "static " ++ signatureOf name sig ν else signatureOf name sig ν

section Head

variable {desk : Desk} {d : Draft}

theorem putType_puts (h : ty.keyword?.isSome = true) : Puts (putType ty) desk d ty.word d.naming := by
  cases ty with
  | prim p => exact ⟨⟨⟩, rfl⟩
  | _ => cases h

theorem parameter_puts {v : Variable} (h : v.ty.keyword?.isSome = true) (hd : d.undeclared = []) :
    Puts (parameter v) desk d (v.ty.word ++ (" " ++ (d.naming.nameVariable v).2.ofVariable v.id))
      (d.naming.nameVariable v).2 := by
  have hbyRef : v.ty.isByRef = false := by
    cases hty : v.ty with
    | prim p => rfl
    | _ =>
      rw [hty] at h
      cases h
  unfold parameter
  simp only [hbyRef, Bool.false_eq_true, if_false]
  exact (putType_puts h).bind fun _ => (puts_put " ").bind fun _ => putVariable_puts v hd

/-- Parameters are declared one after the other, by the names that they have in the end. -/
theorem parameters_puts {vs : List Variable} (h : ∀ v ∈ vs, v.ty.keyword?.isSome = true) (hd : d.undeclared = [])
    {ν : Ident → String} (hν : ∀ v ∈ vs, ν v.id = (d.naming.nameAll vs).ofVariable v.id) :
    Puts (separated false (vs.map parameter)) desk d (declarations ν vs) (d.naming.nameAll vs) := by
  induction vs generalizing d with
  | nil => exact puts_pure []
  | cons v vs ih =>
    have hname : ν v.id = (d.naming.nameVariable v).2.ofVariable v.id := by
      rw [hν v List.mem_cons_self]
      exact Naming.ofVariable_nameAll (Naming.knows_nameVariable_iff.mpr (Or.inl rfl)) vs
    have hfirst : Puts (parameter v) desk d (v.ty.word ++ (" " ++ ν v.id)) (d.naming.nameVariable v).2 := by
      rw [hname]
      exact parameter_puts (h v List.mem_cons_self) hd
    rw [List.map_cons, separated, Naming.nameAll_cons]
    simp only [Bool.false_eq_true, if_false]
    cases vs with
    | nil =>
      have hlast := hfirst.map fun a => [a]
      exact hlast
    | cons w vs =>
      have hrest := ih (d := { d with
          page := (d.page.write (v.ty.word ++ (" " ++ ν v.id))).write ", "
          naming := (d.naming.nameVariable v).2 })
        (fun x hx => h x (List.mem_cons_of_mem v hx)) hd fun x hx => hν x (List.mem_cons_of_mem v hx)
      exact hfirst.bind fun a => (puts_put ", ").bind fun _ => hrest.map _

/-- What a method writes between its access modifier and its body. -/
def methodHead (isStatic : Bool) (name : String) (sig : Signature) : Writing (List Variable) := do
  if isStatic then put "static "
  putType sig.result
  put (" " ++ name)
  bracketed "(" ")" (sig.params.map parameter)

theorem methodHead_puts (hresult : sig.result.keyword?.isSome = true)
    (hparams : ∀ v ∈ sig.params, v.ty.keyword?.isSome = true) (hd : d.undeclared = []) (isStatic : Bool)
    (name : String) :
    Puts (methodHead isStatic name sig) desk d
      (headOf isStatic name sig (d.naming.nameAll sig.params).ofVariable) (d.naming.nameAll sig.params) := by
  have hrest {d : Draft} (hd : d.undeclared = []) :
      Puts (methodHead false name sig) desk d
        (signatureOf name sig (d.naming.nameAll sig.params).ofVariable) (d.naming.nameAll sig.params) := by
    refine (putType_puts hresult).bind fun _ => (puts_put _).bind fun _ => (puts_put "(").bind fun _ => ?_
    refine Puts.bind (n := d.naming.nameAll sig.params) ?_ fun vs => (puts_put ")").map fun _ => vs
    refine parameters_puts hparams ?_ fun _ _ => rfl
    exact hd
  cases isStatic with
  | true =>
    refine (puts_put "static ").bind fun _ => hrest ?_
    exact hd
  | false => exact hrest hd

/-- A method is its head and its body. -/
theorem method_apply (hresult : sig.result.keyword?.isSome = true)
    (hparams : ∀ v ∈ sig.params, v.ty.keyword?.isSome = true) (desk : Desk) {d : Draft} (hd : d.undeclared = [])
    (id : Ident) (access name : String) (body : Piece) : ∃ f : Tree → Tree,
      method id access name sig body desk d =
        (body.bracedBody (Tail.atType .result sig.result) >>= fun t => pure (f t)) desk { d with
          page := (d.page.writeLine access).write
            (headOf desk.wrapper.isStatic name sig (d.naming.nameAll sig.params).ofVariable)
          naming := d.naming.nameAll sig.params } := by
  have hsplit : method id access name sig body desk d =
      (methodHead desk.wrapper.isStatic name sig >>= fun params =>
        body.bracedBody (Tail.atType .result sig.result) >>= fun t =>
          pure (Tree.mk (.lambda { id, name := some name, params, result := sig.result } t))) desk
        { d with page := d.page.writeLine access } := by
    have hline : putLine access desk d = .ok (⟨⟩, { d with page := d.page.writeLine access }) := rfl
    unfold method methodHead
    rw [bind_apply, hline]
    dsimp only
    rw [bind_apply, read_apply]
    dsimp only
    cases desk.wrapper.isStatic <;>
      simp only [Bool.false_eq_true, if_false, if_true, bind_assoc]
  obtain ⟨params, hrun⟩ : Puts (methodHead desk.wrapper.isStatic name sig) desk
      { d with page := d.page.writeLine access } _ _ :=
    methodHead_puts (d := { d with page := d.page.writeLine access }) hresult hparams hd _ name
  refine ⟨fun t => .mk (.lambda { id, name := some name, params, result := sig.result } t), ?_⟩
  rw [hsplit, bind_apply, hrun]

end Head

/-! ## How the head is read -/

namespace Reading

/-- The keyword of a type is a word, and no modifier. -/
theorem isWord_keyword (h : ty.keyword?.isSome = true) :
    isWord ty.word.toList = true ∧ keyword ty.word ∉ modifiers := by
  cases ty with
  | prim p => cases p <;> decide +kernel
  | _ => cases h

theorem tokens_delimiter {c : Char} (hc : c ∈ delimiters) (s t : String) :
    tokens (s ++ (String.ofList [c] ++ t)) = tokens s ++ .sign [c] :: tokens t := by
  unfold tokens
  rw [String.toList_append, String.toList_append, String.toList_ofList]
  exact lex_delimiter hc _ _

variable {ν : Ident → String}

theorem tokens_declarations {vs : List Variable} (h : ∀ v ∈ vs, v.ty.keyword?.isSome = true)
    (hν : ∀ v ∈ vs, isWord (ν v.id).toList = true) :
    tokens (declarations ν vs) = parameterTokens (vs.map fun v => (v.ty.word.toList, (ν v.id).toList)) := by
  induction vs with
  | nil => rfl
  | cons v vs ih =>
    have hty := (isWord_keyword (h v List.mem_cons_self)).1
    have hfirst : tokens (v.ty.word ++ (" " ++ ν v.id)) = [.word v.ty.word.toList, .word (ν v.id).toList] := by
      rw [tokens_word hty, tokens_of_isWord (hν v List.mem_cons_self)]
    cases vs with
    | nil => exact hfirst
    | cons w vs =>
      have hrest := ih (fun x hx => h x (List.mem_cons_of_mem v hx)) fun x hx => hν x (List.mem_cons_of_mem v hx)
      have hblank : tokens (" " ++ declarations ν (w :: vs)) = tokens (declarations ν (w :: vs)) := by
        unfold tokens
        rw [String.toList_append]
        exact lex_blank rfl [] _
      have hsplit : declarations ν (v :: w :: vs) =
          v.ty.word ++ (" " ++ ν v.id) ++ (String.ofList [','] ++ (" " ++ declarations ν (w :: vs))) := by
        rw [← @String.append_assoc (String.ofList [','])]
        rfl
      rw [hsplit, tokens_delimiter (by decide), hfirst, hblank, hrest]
      rfl

/-- The head of a method is read as modifiers, the type of the result, the name and the parameters. -/
theorem tokens_head (hresult : sig.result.keyword?.isSome = true)
    (hparams : ∀ v ∈ sig.params, v.ty.keyword?.isSome = true) (hν : ∀ v ∈ sig.params, isWord (ν v.id).toList = true)
    (isStatic : Bool) {name : String} (hname : isWord name.toList = true) : ∃ mods, (∀ t ∈ mods, t ∈ modifiers) ∧
      tokens ("public " ++ headOf isStatic name sig ν) =
        mods ++ .word sig.result.word.toList :: .word name.toList :: .sign ['('] ::
          (parameterTokens (sig.params.map fun v => (v.ty.word.toList, (ν v.id).toList)) ++ [.sign [')']]) := by
  have hlist : tokens (name ++ ("(" ++ (declarations ν sig.params ++ ")"))) = .word name.toList :: .sign ['('] ::
      (parameterTokens (sig.params.map fun v => (v.ty.word.toList, (ν v.id).toList)) ++ [.sign [')']]) := by
    rw [← tokens_declarations hparams hν]
    have hcut := tokens_delimiter (c := '(') (by decide) name (declarations ν sig.params ++ ")")
    have hend := tokens_delimiter (c := ')') (by decide) (declarations ν sig.params) ""
    rw [String.append_empty] at hend
    exact hcut.trans (by rw [tokens_of_isWord hname, hend]; rfl)
  have hsignature : tokens (signatureOf name sig ν) = .word sig.result.word.toList ::
      tokens (name ++ ("(" ++ (declarations ν sig.params ++ ")"))) := by
    unfold signatureOf
    rw [String.append_assoc, tokens_word (isWord_keyword hresult).1]
  rw [tokens_lead "public " (w := "public") rfl (by decide), ← hlist, ← hsignature]
  cases isStatic with
  | true =>
    refine ⟨[keyword "public", keyword "static"], by decide, congrArg _ ?_⟩
    exact tokens_lead "static " rfl (by decide) _
  | false => exact ⟨[keyword "public"], by decide, rfl⟩

end Reading

/-! ## Structured lambdas -/

/-- A lambda with parameters of type `int` and `bool` that have different names, with a result whose type is a
keyword, and with a structured body in which no label belongs to two loops. -/
structure Lambda.Structured (l : Lambda) : Prop where
  types : ∀ v ∈ l.sig.params, v.ty = .int ∨ v.ty = .bool
  names : ∀ v ∈ l.sig.params, ∃ s, v.name = some s ∧ isPlainName s = true
  idsApart : (l.sig.params.map (·.id)).Nodup
  namesApart : (l.sig.params.map (·.name)).Nodup
  result : l.sig.result.keyword?.isSome = true
  labels : l.body.labels.Nodup
  body : l.body.Structured l.sig.params (!l.sig.result.isVoid) []

section Lambdas

variable {l : Lambda}

theorem Lambda.Structured.keywords (h : l.Structured) : ∀ v ∈ l.sig.params, v.ty.keyword?.isSome = true := by
  intro v hv
  rcases h.types v hv with hty | hty <;> (rw [hty]; rfl)

theorem Lambda.Structured.owns (h : l.Structured) : l.body.Owns l.body.labels [] :=
  ⟨h.labels, nofun, fun _ hi => hi, nofun⟩

theorem Lambda.Structured.wellNamed (h : l.Structured) : WellNamed l.sig.params where
  plain v hv s hs := by
    obtain ⟨t, ht, hplain⟩ := h.names v hv
    cases hs.symm.trans ht
    exact hplain
  one v hv w hw hid := by rw [List.inj_on_of_nodup_map h.idsApart hv hw hid]
  apart v hv w hw s hs ht := by rw [List.inj_on_of_nodup_map h.namesApart hv hw (hs.trans ht.symm)]
  unnumbered v hv w hw hv' := by
    obtain ⟨s, hs, -⟩ := h.names v hv
    cases hs.symm.trans hv'

/-- The names of the parameters. -/
def Lambda.naming (l : Lambda) : Naming := ({} : Naming).nameAll l.sig.params

theorem Lambda.Structured.namesRead (h : l.Structured) :
    NamesRead l.naming.ofVariable l.naming.readAs l.sig.params ∧ NamesApart l.naming.readAs l.sig.params := by
  have hknows : ∀ v ∈ l.sig.params, l.naming.Knows v.id := fun v hv => Naming.knows_nameAll hv _
  have hhonest : l.naming.Honest l.sig.params :=
    (Naming.honest_empty _).nameAll h.wellNamed.one fun _ hw => hw
  exact ⟨hhonest.read h.wellNamed hknows, hhonest.namesApart h.wellNamed hknows⟩

/-- Behind the head of its method, everything is ready for the body of the lambda. -/
theorem Lambda.Structured.ready (h : l.Structured) {d : Draft} (hnaming : d.naming = l.naming)
    (hundeclared : d.undeclared = []) (hflow : d.flow = {}) : d.Ready l.naming.readAs l.sig.params [] where
  undeclared := hundeclared
  faults := by rw [hflow]
  takers := by rw [hflow]
  within := by
    rw [hflow]
    exact ⟨nofun, rfl, List.nodup_nil⟩
  nameless := nofun
  numbered := by
    rw [hnaming]
    exact Naming.labelsNumbered_nameAll _
  knows v hv := by
    rw [hnaming]
    exact Naming.knows_nameAll hv _
  reads := by
    rw [hnaming]
    exact h.namesRead.1

theorem Desk.firstPage_tokens (desk : Desk) : desk.firstPage.tokens = [] := by
  unfold Desk.firstPage
  cases desk.wrapper.typeName <;> rfl

/-- What is known of the draft of a structured lambda: its head, and its body in braces, whatever the labels
that were not named are called. -/
structure Lambda.Drafted (l : Lambda) (w : Wrapper) (d : Draft) : Prop where
  methods : d.methods = []
  fields : d.fields = []
  lexicon : d.lexicon = {}
  labels : d.naming.LabelsNumbered
  tokens (ν : Ident → String) : d.naming.Calls ν → ∃ us,
    d.page.tokens = Reading.tokens ("public " ++ headOf w.isStatic w.entryName l.sig l.naming.ofVariable) ++
      .sign ['\x7b'] :: (us ++ [.sign ['\x7d']]) ∧
    SpellsAll us ((l.body.lowering ν l.naming.readAs).list (!l.sig.result.isVoid) {})

/-- **A structured lambda is written as a method with the statements of its body.** -/
theorem Lambda.Structured.draft (h : l.Structured) (desk : Desk) :
    ∃ u d, l.tree.draft desk = .ok (u, d) ∧ l.Drafted desk.wrapper d := by
  have hvs : ∀ v ∈ l.sig.params, v.ty.deref.isVoid = false := by
    intro v hv
    rcases h.types v hv with hty | hty <;> (rw [hty]; rfl)
  have htail : Tail.atType .result l.sig.result = tailOf (!l.sig.result.isVoid) := by
    unfold Tail.atType tailOf
    cases l.sig.result.isVoid <;> rfl
  obtain ⟨f, hmethod⟩ := method_apply h.result h.keywords desk (d := { page := desk.firstPage }) rfl
    (.entry l.sig.id) "public " desk.wrapper.entryName l.body.piece
  have hready (page : Text.Page) : ({ page, naming := l.naming } : Draft).Ready l.naming.readAs l.sig.params [] :=
    h.ready rfl rfl rfl
  have hbody (page : Text.Page) :
      Writes (l.body.piece.bracedBody (tailOf (!l.sig.result.isVoid))) desk { page, naming := l.naming }
        (l.body.gotos {}) fun ν ts => ∃ us, ts = .sign ['\x7b'] :: (us ++ [.sign ['\x7d']]) ∧
          SpellsAll us ((l.body.lowering ν l.naming.readAs).list (!l.sig.result.isVoid) {}) := by
    refine Writes.braced (P := fun ν ts => SpellsAll ts ((l.body.lowering ν l.naming.readAs).list
      (!l.sig.result.isVoid) {})) (fun page => ?_) fun ν ts hts => ⟨ts, rfl, hts⟩
    exact (h.body.isWritten h.owns hvs).body h.body.labelTarget? _ (hready page)
  rw [htail] at hmethod
  obtain ⟨u, d, ts, hrun, hadds, hspells⟩ := (hbody _).map f
  refine ⟨u, d, hmethod.trans hrun, by rw [hadds.rest], by rw [hadds.rest], by rw [hadds.rest],
    ((hready _).adds hadds).numbered, fun ν hν => ?_⟩
  obtain ⟨us, hts, hus⟩ := hspells ν hν
  have hhead (s : String) :
      ((desk.firstPage.writeLine "public ").write s).tokens = Reading.tokens ("public " ++ s) := by
    have hline := desk.firstPage.tokens_writeLine ("public " ++ s)
    rw [desk.firstPage_tokens, List.nil_append] at hline
    rw [← hline, Text.Page.writeLine, Text.Page.writeLine, Text.Page.write_write]
  refine ⟨us, ?_, hus⟩
  rw [hadds.tokens, hts]
  exact congrArg (· ++ _) (hhead _)

end Lambdas

end Scribe
