import Scribe.Proofs.Flow.Marks
import Scribe.Proofs.Reading.Page
import Scribe.Proofs.Writing.Labels

/-!
# The tokens that a step adds

Where nothing but loops is around, a step of writing adds tokens to the page, names labels, and leaves marks
at the loops that its jumps go to. Labels get their names on the way, so what the tokens are is said for all
names that agree with those given out so far (`Naming.Calls`).
-/

namespace Scribe

open Reading

/-! ## What a step adds to a draft -/

/-- From `d` to `e` the tokens `ts` were added, labels without names of their own were named, and the jumps
to the labels `used` left their marks. Apart from markers, nothing else has changed. -/
structure Draft.Adds (d e : Draft) (used : List Ident) (ts : List Token) : Prop where
  tokens : e.page.tokens = d.page.tokens ++ ts
  flow : e.flow = d.flow.marked used
  naming : ∃ ls : List Label, (∀ l ∈ ls, l.name = none) ∧ e.naming = d.naming.nameLabels ls
  rest : e = { d with page := e.page, naming := e.naming, flow := e.flow, passages := e.passages }

/-- A draft on which a statement can be written: nothing but loops is around, with the labels `scope`, and the
variables `vs` have names that are read as `μ`. -/
structure Draft.Ready (d : Draft) (μ : Ident → String) (vs : List Variable) (scope : List Label) : Prop where
  undeclared : d.undeclared = []
  faults : d.flow.faults = []
  takers : d.flow.takers = []
  within : d.flow.Within scope
  nameless : ∀ l ∈ scope, l.name = none
  numbered : d.naming.LabelsNumbered
  knows : ∀ v ∈ vs, d.naming.Knows v.id
  reads : NamesRead d.naming.ofVariable μ vs

section Drafts

variable {d e : Draft} {used more : List Ident} {ts us : List Token} {μ ν : Ident → String} {vs : List Variable}
  {scope : List Label}

theorem Draft.Adds.trans {f : Draft} (h : d.Adds e used ts) (h' : e.Adds f more us) :
    d.Adds f (used ++ more) (ts ++ us) where
  tokens := by rw [h'.tokens, h.tokens, List.append_assoc]
  flow := by rw [h'.flow, h.flow, Flow.marked_marked]
  naming := by
    obtain ⟨ls, hls, hnaming⟩ := h.naming
    obtain ⟨ms, hms, hnaming'⟩ := h'.naming
    refine ⟨ls ++ ms, fun l hl => ?_, by rw [hnaming', hnaming, Naming.nameLabels_append]⟩
    exact (List.mem_append.mp hl).elim (hls l) (hms l)
  rest := by
    have hrest := h'.rest
    rw [h.rest] at hrest
    exact hrest

/-- Names given out before are still the same. -/
theorem Draft.Adds.calls (h : d.Adds e used ts) (hν : e.naming.Calls ν) : d.naming.Calls ν := by
  obtain ⟨ls, -, hnaming⟩ := h.naming
  rw [hnaming] at hν
  exact hν.of_nameLabels

theorem Draft.Adds.frame (h : d.Adds e used ts) : e.flow.frame = d.flow.frame := by
  rw [h.flow, Flow.frame_marked]

theorem Draft.Ready.adds (hd : d.Ready μ vs scope) (h : d.Adds e used ts) : e.Ready μ vs scope := by
  obtain ⟨ls, hls, hnaming⟩ := h.naming
  have hvars : e.naming.variableNames = d.naming.variableNames := by
    rw [hnaming, Naming.variableNames_nameLabels]
  have hundeclared : e.undeclared = d.undeclared := by rw [h.rest]
  refine ⟨hundeclared.trans hd.undeclared, ?_, ?_, ?_, hd.nameless, ?_, fun v hv => ?_, fun v hv => ?_⟩
  · rw [h.flow]
    exact hd.faults
  · rw [h.flow]
    exact hd.takers
  · rw [h.flow]
    exact hd.within.marked used
  · rw [hnaming]
    exact hd.numbered.nameLabels hls
  · unfold Naming.Knows
    rw [hvars]
    exact hd.knows v hv
  · unfold Naming.ofVariable
    rw [hvars]
    exact hd.reads v hv

/-- A line with a jump to one of the labels `used`, or without jumps. -/
theorem Draft.adds_line (d : Draft) (s : String) {ls : List Label} (hls : ∀ l ∈ ls, l.name = none)
    (used : List Ident) (passages : List Passage) :
    d.Adds
      { d with page := d.page.writeLine s, naming := d.naming.nameLabels ls, flow := d.flow.marked used, passages }
      used (tokens s) :=
  ⟨d.page.tokens_writeLine s, rfl, ⟨ls, hls, rfl⟩, rfl⟩

/-- A page that differs in tokens only. -/
theorem Draft.adds_page (d : Draft) {page : Text.Page} (h : page.tokens = d.page.tokens ++ ts)
    (passages : List Passage) : d.Adds { d with page, passages } [] ts :=
  ⟨h, d.flow.marked_nil.symm, ⟨[], nofun, rfl⟩, rfl⟩

theorem Draft.Ready.onPage (hd : d.Ready μ vs scope) (page : Text.Page) (passages : List Passage) :
    { d with page := page, passages := passages }.Ready μ vs scope :=
  ⟨hd.undeclared, hd.faults, hd.takers, hd.within, hd.nameless, hd.numbered, hd.knows, hd.reads⟩

end Drafts

/-! ## What a step writes -/

namespace Writing

variable {α β : Type} {desk : Desk} {d : Draft} {used more : List Ident}
  {P Q R : (Ident → String) → List Token → Prop}

/-- The step succeeds. The tokens that it adds satisfy `P`, whatever the labels without a name are called
later. -/
def Writes (x : Writing α) (desk : Desk) (d : Draft) (used : List Ident)
    (P : (Ident → String) → List Token → Prop) : Prop :=
  ∃ a e ts, x desk d = .ok (a, e) ∧ d.Adds e used ts ∧ ∀ ν, e.naming.Calls ν → P ν ts

theorem Writes.congr {x y : Writing α} (h : x desk d = y desk d) (hy : Writes y desk d used P) :
    Writes x desk d used P := by
  obtain ⟨a, e, ts, hrun, hadds, hP⟩ := hy
  exact ⟨a, e, ts, h.trans hrun, hadds, hP⟩

theorem Writes.mono {x : Writing α} (h : Writes x desk d used P) (hPQ : ∀ ν ts, P ν ts → Q ν ts) :
    Writes x desk d used Q := by
  obtain ⟨a, e, ts, hx, hadds, hP⟩ := h
  exact ⟨a, e, ts, hx, hadds, fun ν hν => hPQ ν ts (hP ν hν)⟩

/-- A step that adds known tokens and marks nothing is followed by another one. -/
theorem Writes.after {x : Writing α} {e : Draft} {ts : List Token} (hadds : d.Adds e [] ts)
    {y : Writing α} (hx : x desk d = y desk e) (hy : Writes y desk e used P)
    (hPQ : ∀ ν us, P ν us → Q ν (ts ++ us)) : Writes x desk d used Q := by
  obtain ⟨a, f, us, hf, hadds', hP⟩ := hy
  exact ⟨a, f, ts ++ us, hx.trans hf, hadds.trans hadds', fun ν hν => hPQ ν us (hP ν hν)⟩

theorem Writes.bind {x : Writing α} {f : α → Writing β} (hx : Writes x desk d used P)
    (hf : ∀ a e ts, d.Adds e used ts → Writes (f a) desk e more Q)
    (hR : ∀ ν ts us, P ν ts → Q ν us → R ν (ts ++ us)) : Writes (x >>= f) desk d (used ++ more) R := by
  obtain ⟨a, e, ts, hx, hadds, hP⟩ := hx
  obtain ⟨b, e', us, hf, hadds', hQ⟩ := hf a e ts hadds
  refine ⟨b, e', ts ++ us, ?_, hadds.trans hadds', fun ν hν => hR ν ts us (hP ν (hadds'.calls hν)) (hQ ν hν)⟩
  rw [bind_apply, hx]
  exact hf

/-- A step that marks nothing behind another one. -/
theorem Writes.bind_quiet {x : Writing α} {f : α → Writing β} (hx : Writes x desk d used P)
    (hf : ∀ a e ts, d.Adds e used ts → Writes (f a) desk e [] Q)
    (hR : ∀ ν ts us, P ν ts → Q ν us → R ν (ts ++ us)) : Writes (x >>= f) desk d used R := by
  have hboth := hx.bind hf hR
  rw [List.append_nil] at hboth
  exact hboth

theorem writes_pure (a : α) (h : ∀ ν, P ν []) : Writes (pure a : Writing α) desk d [] P := by
  refine ⟨a, d, [], rfl, ?_, fun ν _ => h ν⟩
  exact d.adds_page (List.append_nil _).symm d.passages

theorem Writes.map {x : Writing α} (h : Writes x desk d used P) (f : α → β) :
    Writes (x >>= fun a => pure (f a)) desk d used P := by
  obtain ⟨a, e, ts, hx, hadds, hP⟩ := h
  refine ⟨f a, e, ts, ?_, hadds, hP⟩
  rw [bind_apply, hx]
  rfl

theorem Writes.of_map {x : Writing α} {f : α → β} (h : Writes (x >>= fun a => pure (f a)) desk d used P) :
    Writes x desk d used P := by
  obtain ⟨b, e, ts, hx, hadds, hP⟩ := h
  obtain ⟨a, e', ha, hpure⟩ := bind_eq_ok.mp hx
  cases hpure
  exact ⟨a, e, ts, ha, hadds, hP⟩

theorem Writes.braced {x : Writing α} (hx : ∀ page, Writes x desk { d with page } used P)
    (hPQ : ∀ ν ts, P ν ts → Q ν (.sign ['\x7b'] :: (ts ++ [.sign ['\x7d']]))) :
    Writes (do openBrace; let a ← x; closeBrace; return a) desk d used Q := by
  have hopen : d.Adds { d with page := d.page.openBrace false } [] [.sign ['\x7b']] :=
    d.adds_page d.page.tokens_openBrace d.passages
  refine Writes.after hopen (y := do let a ← x; closeBrace; return a) rfl ?_ fun ν us hus => hus
  refine (hx _).bind_quiet (Q := fun _ us => us = [.sign ['\x7d']]) (fun a e ts _ => ?_) fun ν ts us hts hus => ?_
  · refine ⟨a, { e with page := e.page.closeBrace }, _, rfl, ?_, fun _ _ => rfl⟩
    exact e.adds_page e.page.tokens_closeBrace e.passages
  · rw [hus]
    exact hPQ ν ts hts

end Writing

end Scribe
