import Scribe.Proofs.Text.Page
import Scribe.Proofs.Writing.Follow

/-!
# Following the elementary steps

An elementary step asks the draft for nothing but what the renaming keeps, so that the second run does the same.
None of them writes a piece. Lists are written item by item, and so are the pieces in them.
-/

namespace Scribe.Writing

open Text (Page)

variable {α β ι : Type} {c : Comparison} {ls ms : List Couple} {φ : α → β} {x : Writing α} {y : Writing β}
  {f : Unit → Writing α} {f' : Unit → Writing β}

/-! ## The page -/

theorem onPage_follows {f : Page → Page} (hf : ∀ p : Page, ∃ s, (f p).text = p.text ++ s) :
    Copies c [] id (onPage f) (onPage f) :=
  .of_step (fun _ _ => rfl) (fun _ => rfl) (fun _ => rfl) fun d => .of_page (hf d.page) rfl

theorem exists_writeLine_text (p : Page) (s : String) : ∃ t, (p.writeLine s).text = p.text ++ t := by
  obtain ⟨u, hu⟩ := p.exists_newline_text
  obtain ⟨v, hv⟩ := p.newline.exists_write_text s
  exact ⟨u ++ v, by rw [Page.writeLine, hv, hu, String.append_assoc]⟩

theorem put_follows (s : String) : Copies c [] id (put s) (put s) :=
  onPage_follows fun p => p.exists_write_text s

theorem newline_follows : Copies c [] id newline newline := onPage_follows fun p => p.exists_newline_text

theorem putLine_follows (s : String) : Copies c [] id (putLine s) (putLine s) :=
  onPage_follows fun p => exists_writeLine_text p s

theorem Follows.put_bind {s : String} (hf : Follows c ls ms φ (f ()) (f' ())) :
    Follows c ls ms φ (put s >>= f) (put s >>= f') :=
  .then (put_follows s) fun _ => hf

/-- A text on a new line, and what comes after it. -/
theorem Follows.putLine_bind {s : String} (hf : Follows c ls ms φ (f ()) (f' ())) :
    Follows c ls ms φ (putLine s >>= f) (putLine s >>= f') :=
  .then (putLine_follows s) fun _ => hf

theorem indent_follows : Copies c [] id indent indent :=
  onPage_follows fun _ => ⟨"", String.append_empty.symm⟩

theorem dedent_follows : Copies c [] id dedent dedent :=
  onPage_follows fun _ => ⟨"", String.append_empty.symm⟩

theorem openBrace_follows : Copies c [] id openBrace openBrace :=
  onPage_follows fun p => exists_writeLine_text p "\x7b"

theorem openBraceHere_follows : Copies c [] id openBraceHere openBraceHere :=
  onPage_follows fun p => p.exists_write_text "\x7b"

theorem closeBrace_follows : Copies c [] id closeBrace closeBrace :=
  onPage_follows fun p => exists_writeLine_text p.dedent _

/-! ## Types, names and fields -/

/-- A step that leaves the page, the methods, the marks and the moved lambdas alone. -/
theorem Follows.of_quiet_step {f : Draft → α × Draft} {f' : Draft → β × Draft}
    (hf : ∀ d gs, f' (c.image gs d) = (φ (f d).1, c.image gs (f d).2))
    (hquiet : ∀ d, ((f d).2.page, (f d).2.methods, (f d).2.passages, (f d).2.promoted) =
      (d.page, d.methods, d.passages, d.promoted)) : Copies c [] φ (modifyGet f) (modifyGet f') := by
  simp only [Prod.mk.injEq] at hquiet
  refine .of_step hf (fun d => (hquiet d).2.2.1) (fun d => (hquiet d).2.2.2) fun d => .of_page ⟨"", ?_⟩ (hquiet d).2.1
  rw [(hquiet d).1, String.append_empty]

theorem spell_follows (ty : Ty) : Copies c [] id (spell ty) (spell ty) :=
  .of_quiet_step (fun _ _ => rfl) fun _ => rfl

theorem putType_follows (ty : Ty) : Copies c [] id (putType ty) (putType ty) :=
  .then (spell_follows ty) fun _ => put_follows _

theorem Follows.putType_bind {ty : Ty} (hf : Follows c ls ms φ (f ()) (f' ())) :
    Follows c ls ms φ (putType ty >>= f) (putType ty >>= f') :=
  .then (putType_follows ty) fun _ => hf

theorem putDefault_follows (ty : Ty) : Copies c [] id (putDefault ty) (putDefault ty) :=
  .then (spell_follows ty) fun _ => put_follows _

theorem markDynamic_follows : Copies c [] id markDynamic markDynamic :=
  .of_quiet_step (fun _ _ => rfl) fun _ => rfl

theorem naming_follows {f f' : Naming → String × Naming}
    (hf : ∀ naming, f' (naming.rename c.keys) = ((f naming).1, (f naming).2.rename c.keys)) :
    Copies c [] id (naming f) (naming f') := by
  refine .of_quiet_step (fun d gs => ?_) fun _ => rfl
  simp only [Comparison.image, Draft.rename, hf]
  rfl

theorem fresh_follows (stem : String) : Copies c [] id (naming (·.fresh stem)) (naming (·.fresh stem)) :=
  naming_follows fun _ => rfl

theorem nameVariable_follows (v : Variable) :
    Copies c [] id (naming (·.nameVariable v)) (naming (·.nameVariable (v.rename c.keys))) :=
  naming_follows fun naming => naming.nameVariable_rename c.injective v

theorem nameLabel_follows (l : Label) :
    Copies c [] id (naming (·.nameLabel l)) (naming (·.nameLabel (l.rename c.keys))) :=
  naming_follows fun naming => naming.nameLabel_rename c.injective l

theorem nameLambda_follows (sig : Signature) :
    Copies c [] id (naming (·.nameLambda sig)) (naming (·.nameLambda (sig.rename c.keys))) :=
  naming_follows fun naming => naming.nameLambda_rename c.injective sig

theorem field_follows (value : Hoisted) (ty : Ty) (hint : String) :
    Copies c [] id (field value ty hint) (field (value.rename c.keys) ty hint) := by
  refine .of_quiet_step (fun d gs => ?_) fun _ => rfl
  simp only [Comparison.image, Draft.rename, Field.request_rename c.injective]
  rfl

/-! ## Variables -/

theorem written_rename (v : Variable) (name : String) (ρ : Renaming) :
    (v.rename ρ).written name = (v.written name).rename ρ := by
  obtain ⟨id, own, ty⟩ := v
  cases own <;> rfl

theorem onUndeclared_follows (f f' : List Ident → List Ident)
    (hf : ∀ vs, f' (vs.map (c.keys.ident .var)) = (f vs).map (c.keys.ident .var)) :
    Copies c [] id (modify fun d => { d with undeclared := f d.undeclared })
      (modify fun d => { d with undeclared := f' d.undeclared }) := by
  refine .of_quiet_step (fun d gs => ?_) fun _ => rfl
  simp only [Comparison.image, Draft.rename, hf]

theorem putVariable_follows (v : Variable) :
    Copies c [] (Variable.rename c.keys) (putVariable v) (putVariable (v.rename c.keys)) := by
  refine .then (nameVariable_follows v) fun name => .get_bind fun d gs => ?_
  have hrest : Copies c [] (Variable.rename c.keys) (do put name; pure (v.written name))
      (do put name; pure ((v.rename c.keys).written name)) :=
    .put_bind <| .pure (written_rename v name c.keys)
  have hundeclared : (c.image gs d).undeclared.contains (v.rename c.keys).id = d.undeclared.contains v.id :=
    Renaming.contains_ident c.injective d.undeclared v.id
  refine .ite (by rw [hundeclared]) (fun _ => ?_) fun _ => hrest
  refine .then (onUndeclared_follows _ (·.filter (· != (v.rename c.keys).id)) fun vs => ?_) fun _ => ?_
  · exact Renaming.filter_ident c.injective vs v.id
  · exact .putType_bind <| .put_bind <| hrest

theorem postpone_follows (v : Variable) :
    Copies c [] (Variable.rename c.keys) (postpone v) (postpone (v.rename c.keys)) := by
  refine .then (nameVariable_follows v) fun name => ?_
  refine .then (onUndeclared_follows (fun vs => v.id :: vs.filter (· != v.id))
    (fun vs => (v.rename c.keys).id :: vs.filter (· != (v.rename c.keys).id)) fun vs => ?_)
    fun _ => .pure (written_rename v name c.keys)
  exact congrArg _ (Renaming.filter_ident c.injective vs v.id)

/-! ## Flow and marks -/

theorem onFlow_follows {f f' : Flow → Flow} (hf : ∀ flow, f' (flow.rename c.keys) = (f flow).rename c.keys) :
    Copies c [] id (onFlow f) (onFlow f') := by
  refine .of_quiet_step (fun d gs => ?_) fun _ => rfl
  simp only [Comparison.image, Draft.rename, hf]

theorem inFunction_follows (h : Follows c ls ms φ x y) : Follows c ls ms φ (inFunction x) (inFunction y) := by
  refine .get_bind fun d gs => .then (onFlow_follows fun _ => rfl) fun _ => .last h fun _ => ?_
  exact .then (onFlow_follows fun _ => rfl) fun _ => .pure rfl

/-- Both runs mark the same, where anything is marked. -/
theorem mark_follows (form : Passage.Form) (start : Page) :
    Copies c [] (Option.map c.onTree) (mark form start) (mark form start) := by
  refine .read_bind ?_
  cases hdocument : c.desk.wrapper.document with
  | none => exact .pure rfl
  | some document =>
    refine .page_bind fun stop => ?_
    intro d gs hfits
    have hwatch : ¬c.watches := fun hw => by
      rw [c.unmarked hw] at hdocument
      cases hdocument
    unfold FollowsFrom
    refine ⟨[⟨form, start, stop⟩], rfl, ?_, .of_page ⟨"", String.append_empty.symm⟩ rfl,
      fun hw => absurd hw hwatch⟩
    exact ⟨fun _ => by rw [hfits.marks hwatch], fun hw => absurd hw hwatch⟩

/-! ## Lists -/

variable {is : List ι} {k : ι → List Couple} {f : ι → Writing α} {f' : ι → Writing β}

theorem separated_follows (wrap : Bool) (h : ∀ i ∈ is, Copies c (k i) φ (f i) (f' i)) :
    Copies c (is.flatMap k) (List.map φ) (separated wrap (is.map f))
      (separated wrap (is.map f')) := by
  induction is with
  | nil => exact .pure rfl
  | cons i is ih =>
    rw [List.forall_mem_cons] at h
    rw [List.flatMap_cons, List.map_cons, List.map_cons]
    have hrest : ∀ a, Copies c (is.flatMap k) (List.map φ)
        (do let as ← separated wrap (is.map f); pure (a :: as))
        (do let as ← separated wrap (is.map f'); pure (φ a :: as)) :=
      fun a => .last (ih h.2) fun _ => .pure rfl
    have hitem : Copies c (k i ++ is.flatMap k) (List.map φ)
        (do
          let a ← f i
          unless (is.map f).isEmpty do put (if wrap then "," else ", ")
          let as ← separated wrap (is.map f)
          pure (a :: as))
        (do
          let a ← f' i
          unless (is.map f').isEmpty do put (if wrap then "," else ", ")
          let as ← separated wrap (is.map f')
          pure (a :: as)) :=
      .bind h.1 fun a => .ite (by simp) (fun _ => hrest a) fun _ => .put_bind <| hrest a
    exact .ite Iff.rfl (fun _ => .then newline_follows fun _ => hitem) fun _ => hitem

theorem bracketed_follows (left right : String) (h : ∀ i ∈ is, Copies c (k i) φ (f i) (f' i)) :
    Copies c (is.flatMap k) (List.map φ) (bracketed left right (is.map f))
      (bracketed left right (is.map f')) :=
  .put_bind <| .last (separated_follows false h) fun _ => .put_bind <| .pure rfl

/-- Steps between brackets that write no piece. -/
theorem bracketed_steps_follow (left right : String) (h : ∀ i ∈ is, Copies c [] φ (f i) (f' i)) :
    Copies c [] (List.map φ) (bracketed left right (is.map f)) (bracketed left right (is.map f')) := by
  have hsteps := bracketed_follows left right h
  rwa [List.flatMap_eq_nil_iff.mpr fun _ _ => rfl] at hsteps

theorem braced_follows (limit : Nat) (h : ∀ i ∈ is, Copies c (k i) φ (f i) (f' i)) :
    Copies c (is.flatMap k) (List.map φ) (braced limit (is.map f))
      (braced limit (is.map f')) := by
  refine .ite (by simp) (fun _ => .put_bind <| bracketed_follows _ _ h) fun _ => ?_
  exact .then newline_follows fun _ => .put_bind <| .then indent_follows fun _ =>
    .last (separated_follows true h) fun _ => .then dedent_follows fun _ => .then newline_follows fun _ =>
    .put_bind <| .pure rfl

theorem mapM_follows (h : ∀ i ∈ is, Copies c (k i) φ (f i) (f' i)) :
    Copies c (is.flatMap k) (List.map φ) (is.mapM f) (is.mapM f') := by
  induction is with
  | nil => exact .pure rfl
  | cons i is ih =>
    rw [List.forall_mem_cons] at h
    rw [List.flatMap_cons, List.mapM_cons, List.mapM_cons]
    exact .bind h.1 fun _ => .last (ih h.2) fun _ => .pure rfl

theorem mapM_steps_follow (h : ∀ i ∈ is, Copies c [] φ (f i) (f' i)) :
    Copies c [] (List.map φ) (is.mapM f) (is.mapM f') := by
  have hsteps := mapM_follows h
  rwa [List.flatMap_eq_nil_iff.mpr fun _ _ => rfl] at hsteps

end Scribe.Writing
