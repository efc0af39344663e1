import Scribe.Proofs.Writing.Property

/-!
# When writing may stop

A computation is *safe* under an allowance when it stops with allowed errors only, and when the types that it
brings into the draft have full names, as far as that is promised. Safe computations compose, so that it is
enough to look at the few places that stop: an operator without a token or without an operand, a method that
neither a name nor a delegate fits, a late-bound operation with too few arguments or of another language, and
a node that cannot be written at all. All of these are defects of nodes. So a tree is written safely under any allowance
that allows for its defects.
-/

namespace Scribe

open Writing

/-- All types that the draft has taken in have full names. -/
structure Draft.Ranked (d : Draft) : Prop where
  lexicon : d.lexicon.Ranked
  fields : ∀ f ∈ d.fields, f.ty.isRanked = true

variable {α β : Type} {desk : Desk} {E : Allowance} {ty : Ty}

namespace Writing

variable {x : Writing α} {f : α → Writing β}

/-- The computation stops with allowed errors only, and it keeps what is promised of the types. -/
def Safe (desk : Desk) (E : Allowance) (x : Writing α) : Prop :=
  ∀ d, (E.ranked → d.Ranked) →
    match x desk d with
    | .ok (_, e) => E.ranked → e.Ranked
    | .error err => E.error err

theorem Safe.of_ok {d e : Draft} {a : α} (h : Safe desk E x) (hd : E.ranked → d.Ranked)
    (hx : x desk d = .ok (a, e)) : E.ranked → e.Ranked := by
  have hrun := h d hd
  rw [hx] at hrun
  exact hrun

theorem Safe.of_error {d : Draft} {err : ScriptError} (h : Safe desk E x) (hd : E.ranked → d.Ranked)
    (hx : x desk d = .error err) : E.error err := by
  have hrun := h d hd
  rw [hx] at hrun
  exact hrun

theorem Safe.bind (hx : Safe desk E x) (hf : ∀ a, Safe desk E (f a)) : Safe desk E (x >>= f) := by
  intro d hd
  rw [bind_apply]
  cases hrun : x desk d with
  | error err => exact hx.of_error hd hrun
  | ok r => exact hf r.1 r.2 (hx.of_ok hd hrun)

theorem Safe.of_step {f : Draft → α × Draft} (h : ∀ d, (f d).2.lexicon = d.lexicon ∧ (f d).2.fields = d.fields) :
    Safe desk E (modifyGet f) := by
  intro d hd hE
  obtain ⟨hlexicon, hfields⟩ := h d
  exact ⟨hlexicon ▸ (hd hE).lexicon, hfields ▸ (hd hE).fields⟩

theorem spell_safe (h : E.Admits ty) : Safe desk E (spell ty) := by
  intro d hd hE
  exact ⟨Lexicon.ranked_spell ty (h hE) d.lexicon (hd hE).lexicon, (hd hE).fields⟩

theorem field_safe (value : Hoisted) (h : E.Admits ty) : Safe desk E (field value ty value.hint) := by
  intro d hd hE
  refine ⟨(hd hE).lexicon, ?_⟩
  show ∀ f ∈ (Field.request d.fields d.naming value ty value.hint).2.1, f.ty.isRanked = true
  unfold Field.request
  split
  · exact (hd hE).fields
  · exact List.forall_mem_append.mpr ⟨(hd hE).fields, List.forall_mem_singleton.mpr (h hE)⟩

theorem Safe.congruent : (Property.likeness fun _ => Safe desk E).Congruent E where
  pure _ _ hd := hd
  throw h _ _ := h
  bind hx hf := .bind hx hf
  onPage _ := .of_step fun _ => ⟨rfl, rfl⟩
  spell h := spell_safe h
  markDynamic d hd hE := ⟨(hd hE).lexicon, (hd hE).fields⟩
  field value _ h := field_safe value h
  fresh _ := .of_step fun _ => ⟨rfl, rfl⟩
  nameLabel _ := .of_step fun _ => ⟨rfl, rfl⟩
  addTaker target tail := by
    unfold addTaker
    split
    · exact .of_step fun _ => ⟨rfl, rfl⟩
    · exact fun _ hd => hd
  mark form start := by
    intro d hd
    unfold mark
    rw [read_bind]
    cases desk.wrapper.document with
    | none => exact hd
    | some document => exact fun hE => ⟨(hd hE).lexicon, (hd hE).fields⟩
  turn := .of_step fun _ => ⟨rfl, rfl⟩
  get_bind hf d hd := hf d d hd
  read_bind hf := hf desk

/-- A node is written safely when its own defect is allowed for, and when its types have full names if that is
promised. -/
theorem Safe.closed : Property.Closed (fun _ => Safe desk E) E fun n =>
    (∀ err ∈ n.defect?, E.error err) ∧ ∀ ty ∈ n.types, E.Admits ty where
  congruent := Safe.congruent
  defect hn := hn.1
  types hn := hn.2
  onFlow _ := .of_step fun _ => ⟨rfl, rfl⟩
  pending _ := .of_step fun _ => ⟨rfl, rfl⟩
  nameVariable _ _ := .of_step fun _ => ⟨rfl, rfl⟩
  nameLambda _ := .of_step fun _ => ⟨rfl, rfl⟩
  promote _ hmethod := by
    intro d hd
    have hrun := hmethod (d.onMethodPage desk) fun hE => ⟨(hd hE).lexicon, (hd hE).fields⟩
    rw [promote_apply]
    revert hrun
    cases inFunction _ desk (d.onMethodPage desk) with
    | error err => exact id
    | ok r => exact fun hrun hE => ⟨(hrun hE).lexicon, (hrun hE).fields⟩

end Writing

namespace Tree

/-- What a tree allows for when it is written: the errors of its defects, and full names if all its types have
some. -/
def allowance (t : Tree) : Allowance where
  ranked := ∀ ty ∈ t.types, ty.isRanked = true
  error err := err ∈ t.defects ∨ (err = .noFullName ∧ ∃ ty ∈ t.types, ty.isRanked = false)
  noFullName h := by
    refine Or.inr ⟨rfl, ?_⟩
    simpa using h

/-- **A tree is written safely.** -/
theorem writeRoot_safe (t : Tree) : Writing.Safe desk t.allowance t.writeRoot := by
  refine Safe.closed.writeRoot t fun s hs => ⟨fun err h => ?_, fun ty h hA => ?_⟩
  · exact Or.inl (List.mem_filterMap.mpr ⟨s, hs, h⟩)
  · exact hA ty (List.mem_flatMap.mpr ⟨s, hs, h⟩)

end Tree

end Scribe
