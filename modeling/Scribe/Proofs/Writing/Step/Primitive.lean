import Scribe.Proofs.Writing.Step

/-!
# The elementary steps

Each elementary step of writing is one step of `Draft.LeadsTo`, or a few of them. A text that is put
somewhere starts on the current line; a line break is a step, but none that runs on.
-/

namespace Scribe.Writing

open Draft (LeadsTo Runs Begun Stable Settled Indented)
open Text (Page)

variable {α β : Type} {desk : Desk} {P : Draft → Prop} {d : Draft}

/-! ## The page -/

theorem put_inline (s : String) : Inline desk (put s) := by
  intro d a e h
  cases h
  exact ⟨.put d s, .write d.page s⟩

theorem newline_stepwise : Stepwise desk newline := by
  intro d a e h
  cases h
  exact .newline d

theorem putLine_stepwise (s : String) : Stepwise desk (putLine s) := by
  intro d a e h
  cases h
  exact (LeadsTo.newline d).trans (.put _ s)

theorem putLine_settled {s : String} (hs : s ≠ "") (hP : Stable desk P) :
    Takes desk P (putLine s) (Settled P) := by
  intro d a e hd h
  refine ⟨(putLine_stepwise s).takes hP d a e hd h, ?_⟩
  cases h
  exact Page.write_owesIndent hs d.page.newline

theorem put_begun {s : String} (hs : s ≠ "") : Takes desk (Runs desk d) (put s) (Begun desk d) := by
  intro e a f he h
  cases h
  obtain ⟨hl, hr⟩ := he.trans ⟨.put e s, .write e.page s⟩
  refine ⟨hl, ?_⟩
  rcases hr with hr | hr
  · -- the page has not changed, so it was settled already
    have hset : e.page.write s = d.page := hr
    have ho : d.page.owesIndent = false := hset ▸ Page.write_owesIndent hs e.page
    exact ⟨"", by rw [Page.settle_of_settled ho, String.append_empty]; exact congrArg Page.text hset⟩
  · exact hr.2

theorem put_ended {s : String} (hs : s ≠ "") : Takes desk (Begun desk d) (put s) (Runs desk d) := by
  rintro e a f ⟨hl, t, ht⟩ h
  cases h
  refine ⟨hl.trans (.put e s), Or.inr ⟨Page.write_owesIndent hs e.page, ?_⟩⟩
  refine ⟨t ++ (String.ofList (List.replicate e.page.owed ' ') ++ s), ?_⟩
  show (e.page.write s).text = _
  rw [Page.write_text hs, Page.settle_text, ht]
  simp only [String.append_assoc]

theorem indent_takes : Takes desk P indent (Indented desk P) := by
  intro d a e hd h
  cases h
  exact ⟨d, hd, .refl _⟩

theorem dedent_takes (hP : Stable desk P) : Takes desk (Indented desk P) dedent P := by
  rintro e a f ⟨d, hd, hl⟩ h
  cases h
  exact hP d _ hd (.indented hl)

theorem openBrace_takes (hP : Stable desk P) : Takes desk P openBrace (Indented desk P) := by
  intro d a e hd h
  cases h
  exact ⟨_, hP d _ hd ((LeadsTo.newline d).trans (.put _ "\x7b")), .refl _⟩

theorem openBraceHere_takes (hP : Stable desk P) : Takes desk P openBraceHere (Indented desk P) := by
  intro d a e hd h
  cases h
  exact ⟨_, hP d _ hd (.put d "\x7b"), .refl _⟩

theorem closeBrace_takes (hP : Stable desk P) : Takes desk (Indented desk P) closeBrace P := by
  rintro e a f ⟨d, hd, hl⟩ h
  cases h
  exact hP d _ hd ((LeadsTo.indented hl).trans ((LeadsTo.newline _).trans (.put _ "\x7d")))

/-- A closing brace ends what has begun on the line of the opening one. -/
theorem closeBrace_ended : Takes desk (Indented desk (Begun desk d)) closeBrace (Runs desk d) := by
  intro e a f he h
  have hsplit : (do dedent; newline; put "\x7d" : Writing Unit) desk e = .ok (a, f) := h
  refine Takes.bind (dedent_takes (Draft.stable_begun desk d)) (fun _ => ?_) e a f he hsplit
  exact .bind (newline_stepwise.takes (Draft.stable_begun desk d)) fun _ => put_ended (by decide)

/-! ## Types, names and fields -/

theorem spell_inline (ty : Ty) : Inline desk (spell ty) := by
  refine .of_step fun d a e h => ?_
  cases h
  exact ⟨.spelled d ty, rfl⟩

theorem putType_inline (ty : Ty) : Inline desk (putType ty) :=
  .bind (spell_inline ty) fun name => put_inline name

theorem putDefault_inline (ty : Ty) : Inline desk (putDefault ty) :=
  .bind (spell_inline ty) fun _ => put_inline _

theorem markDynamic_inline : Inline desk markDynamic := by
  refine .of_step fun d a e h => ?_
  cases h
  exact ⟨.lateBound d, rfl⟩

theorem fresh_inline (stem : String) : Inline desk (naming (·.fresh stem)) := by
  refine .of_step fun d a e h => ?_
  cases h
  exact ⟨.fresh d stem, rfl⟩

theorem nameVariable_inline (v : Variable) : Inline desk (naming (·.nameVariable v)) := by
  refine .of_step fun d a e h => ?_
  cases h
  exact ⟨.namedVariable d v, rfl⟩

theorem nameLabel_inline (l : Label) : Inline desk (naming (·.nameLabel l)) := by
  refine .of_step fun d a e h => ?_
  cases h
  exact ⟨.namedLabel d l, rfl⟩

theorem nameLambda_inline (sig : Signature) : Inline desk (naming (·.nameLambda sig)) := by
  refine .of_step fun d a e h => ?_
  cases h
  exact ⟨.namedLambda d sig, rfl⟩

theorem field_inline (value : Hoisted) (ty : Ty) : Inline desk (field value ty value.hint) := by
  refine .of_step fun d a e h => ?_
  cases h
  exact ⟨.hoisted d value ty, rfl⟩

/-! ## Variables -/

theorem putVariable_inline (v : Variable) : Inline desk (putVariable v) := by
  unfold putVariable
  refine .bind (nameVariable_inline v) fun name => .get_bind fun d => ?_
  have hname : ∀ u : Unit, Inline desk (do put name; pure (v.written name)) :=
    fun _ => .map (put_inline name)
  dsimp only
  split
  · refine .bind ?_ fun _ => .bind (putType_inline v.ty) fun _ => .bind (put_inline " ") hname
    refine .of_step fun d a e h => ?_
    cases h
    exact ⟨.declared d v.id, rfl⟩
  · exact hname ()

theorem postpone_inline (v : Variable) : Inline desk (postpone v) := by
  unfold postpone
  refine .bind (nameVariable_inline v) fun name => .bind ?_ fun _ => .pure _
  refine .of_step fun d a e h => ?_
  cases h
  exact ⟨.postponed d v.id, rfl⟩

/-! ## Lists -/

theorem separated_inline {items : List (Writing α)} (h : ∀ x ∈ items, Inline desk x) :
    Inline desk (separated false items) := by
  induction items with
  | nil => exact .pure _
  | cons item rest ih =>
    simp only [separated, Bool.false_eq_true, if_false]
    refine .bind (h item (by simp)) fun a => ?_
    have hrest : ∀ u : Unit, Inline desk (do let as ← separated false rest; pure (a :: as)) :=
      fun _ => .map (ih fun x hx => h x (by simp [hx]))
    split
    · exact hrest ()
    · exact .bind (put_inline _) hrest

theorem separated_stepwise {items : List (Writing α)} (h : ∀ x ∈ items, Inline desk x) :
    Stepwise desk (separated true items) := by
  induction items with
  | nil => exact .pure _
  | cons item rest ih =>
    simp only [separated, if_true]
    refine .bind newline_stepwise fun _ => .bind (h item (by simp)).stepwise fun a => ?_
    have hrest : ∀ u : Unit, Stepwise desk (do let as ← separated true rest; pure (a :: as)) :=
      fun _ => .map (ih fun x hx => h x (by simp [hx]))
    split
    · exact hrest ()
    · exact .bind (put_inline _).stepwise hrest

theorem bracketed_inline (left right : String) {items : List (Writing α)}
    (h : ∀ x ∈ items, Inline desk x) : Inline desk (bracketed left right items) := by
  unfold bracketed
  exact .bind (put_inline left) fun _ => .bind (separated_inline h) fun _ => .map (put_inline right)

/-- The braces of an initializer may go on new lines, but they end on one. -/
theorem braced_takes (limit : Nat) {items : List (Writing α)} (h : ∀ x ∈ items, Inline desk x) :
    Takes desk (Begun desk d) (braced limit items) (Runs desk d) := by
  have hB := Draft.stable_begun desk d
  unfold braced
  split
  · exact .bind (put_ended (by decide)) fun _ => (bracketed_inline _ _ h).takes d
  · refine .bind (newline_stepwise.takes hB) fun _ => ?_
    refine .bind ((put_inline _).stepwise.takes hB) fun _ => ?_
    refine .bind indent_takes fun _ => ?_
    refine .bind ((separated_stepwise h).takes (Draft.stable_indented desk _)) fun as => ?_
    refine .bind (dedent_takes hB) fun _ => .bind (newline_stepwise.takes hB) fun _ => ?_
    exact .map (put_ended (by decide))

/-! ## Functions -/

theorem inFunction_stepwise {body : Writing α} (h : Stepwise desk body) : Stepwise desk (inFunction body) := by
  intro d a e hx
  obtain ⟨d', f, hget, hx⟩ := bind_eq_ok.mp hx
  cases hget
  obtain ⟨u, f, hclear, hx⟩ := bind_eq_ok.mp hx
  cases hclear
  obtain ⟨b, f, hbody, hx⟩ := bind_eq_ok.mp hx
  cases hx
  exact .inFunction (h _ _ _ hbody)

end Scribe.Writing
