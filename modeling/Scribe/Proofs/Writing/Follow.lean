import Scribe.Proofs.Writing.Rename
import Scribe.Proofs.Writing.Run

/-!
# A run that follows another

Two runs of the writer are compared: one that writes a tree, and one that writes the same tree under other
identities and may take notes on the way. The second run *follows* the first: it stops with the same error, or
it ends with the same text, with the renamed result, and with the renamed draft. Its notes are passages, which
nothing reads while a script is written.

What is written is written piece by piece. `Writing.Follows` therefore also says which pieces are written: those
of the first list for certain, and none more often than it is in the second. Each piece says what a writing of it
means for the notes, so that the notes of a whole run can be counted.
-/

namespace Scribe

-- sums begin with the zero of the core library, whatever else is imported
attribute [local instance (2000)] Zero.ofOfNat0

open Text (Page)

variable {α β : Type}

/-! ## Drafts that grow -/

/-- What was written stays: the page only gets longer, and methods are added behind the others. -/
structure Draft.Grows (d e : Draft) : Prop where
  page : ∃ s, e.page.text = d.page.text ++ s
  methods : d.methods <+: e.methods

/-- What the passage covers stands on the page that is being written, or in a method that was begun in the
meantime. -/
def Passage.PlacedIn (g : Passage) (d e : Draft) : Prop :=
  (∃ s, e.page.text = g.stop.text ++ s) ∨
    ∃ k m s, d.methods.length ≤ k ∧ e.methods[k]? = some m ∧ m = g.stop.text ++ s

namespace Draft

variable {d e f : Draft} {g : Passage}

theorem Grows.refl (d : Draft) : d.Grows d := ⟨⟨"", by simp⟩, List.prefix_refl _⟩

theorem Grows.trans (h₁ : d.Grows e) (h₂ : e.Grows f) : d.Grows f := by
  obtain ⟨s, hs⟩ := h₁.page
  obtain ⟨s', hs'⟩ := h₂.page
  exact ⟨⟨s ++ s', by rw [hs', hs, String.append_assoc]⟩, h₁.methods.trans h₂.methods⟩

theorem Grows.of_page (hpage : ∃ s, e.page.text = d.page.text ++ s) (hmethods : e.methods = d.methods) : d.Grows e :=
  ⟨hpage, hmethods ▸ List.prefix_refl _⟩

/-- A passage stays where it is when more is written. -/
theorem Grows.placed (h : e.Grows f) (hg : g.PlacedIn d e) : g.PlacedIn d f := by
  obtain ⟨s, hs⟩ | ⟨k, m, s, hk, hm, hs⟩ := hg
  · obtain ⟨s', hs'⟩ := h.page
    exact Or.inl ⟨s ++ s', by rw [hs', hs, String.append_assoc]⟩
  · refine Or.inr ⟨k, m, s, hk, ?_, hs⟩
    obtain ⟨ms, hms⟩ := h.methods
    rw [← hms, List.getElem?_append_left (List.getElem?_eq_some_iff.mp hm).1, hm]

theorem Grows.placed_later (h : d.Grows e) (hg : g.PlacedIn e f) : g.PlacedIn d f := by
  obtain hpage | ⟨k, m, s, hk, hm, hs⟩ := hg
  · exact Or.inl hpage
  · exact Or.inr ⟨k, m, s, Nat.le_trans h.methods.length_le hk, hm, hs⟩

end Draft

/-! ## The comparison -/

/-- What two runs are compared under. -/
structure Comparison where
  desk : Desk
  keys : Renaming
  injective : keys.Injective
  /-- Whether the second run takes notes. -/
  watches : Prop
  /-- Where notes are taken, nothing else is marked. -/
  unmarked : watches → desk.wrapper.document = none
  /-- The lambdas that hold something to be noted. -/
  holds : Ident → Prop
  /-- The texts that are noted. -/
  shows : String → Prop

/-- What the second run has for a tree of the first. -/
abbrev Comparison.onTree (c : Comparison) : Tree → Tree := Tree.rename c.keys

/-- A tree with a way of writing it for each of the two runs. -/
structure Couple where
  tree : Tree
  first : Rendition
  second : Rendition
  /-- Whether a note is taken for certain when the tree is written. -/
  must : Prop
  /-- How many notes are taken at most when the tree is written. -/
  most : Nat

/-- The piece of the first run. -/
def Couple.left (p : Couple) : Piece := (p.tree, p.first)

/-- The piece of the second run. -/
def Couple.right (ρ : Renaming) (p : Couple) : Piece := (p.tree.rename ρ, p.second)

namespace Comparison

/-- The draft of the second run, when that of the first is `d`. -/
def image (c : Comparison) (gs : List Passage) (d : Draft) : Draft :=
  { d.rename c.keys with passages := gs }

/-- Without notes the second run has the marks of the first. Once the method of a lambda with something to be
noted is written, there is a note. -/
structure Fits (c : Comparison) (gs : List Passage) (d : Draft) : Prop where
  marks : ¬c.watches → gs = d.passages
  promoted : c.watches → ∀ id ∈ d.promoted.map Prod.fst, c.holds id → gs ≠ []

/-- Between the two pages of the passage there is a text that is noted. -/
def Covers (c : Comparison) (g : Passage) : Prop := ∃ s, c.shows s ∧ g.stop.text = g.start.text ++ s

end Comparison

/-- What is known of the notes that are taken on the way from `d` to `e`, behind `gs`, while pieces are written: those
of `ls` for certain, and none more often than it is in `ms`. -/
structure Notes (c : Comparison) (ls ms : List Couple) (d e : Draft) (gs notes : List Passage) : Prop where
  must : (∃ p ∈ ls, p.must) → gs ++ notes ≠ []
  most : notes.length ≤ (ms.map (·.most)).sum
  covers : ∀ g ∈ notes, c.Covers g
  placed : ∀ g ∈ notes, g.PlacedIn d e

theorem Notes.none (c : Comparison) (ms : List Couple) (d e : Draft) (gs : List Passage) : Notes c [] ms d e gs [] :=
  ⟨by simp, by simp, by simp, by simp⟩

theorem Notes.append {c : Comparison} {ls ms ls' ms' : List Couple} {d e f : Draft} {gs notes notes' : List Passage}
    (h : Notes c ls ms d e gs notes) (h' : Notes c ls' ms' e f (gs ++ notes) notes') (hde : d.Grows e)
    (hef : e.Grows f) : Notes c (ls ++ ls') (ms ++ ms') d f gs (notes ++ notes') where
  must := by
    rintro ⟨p, hp, hmust⟩
    rw [← List.append_assoc]
    rcases List.mem_append.mp hp with hp | hp
    · exact List.append_ne_nil_of_left_ne_nil (h.must ⟨p, hp, hmust⟩) _
    · exact h'.must ⟨p, hp, hmust⟩
  most := by
    rw [List.length_append, List.map_append, List.sum_append]
    exact Nat.add_le_add h.most h'.most
  covers := List.forall_mem_append.mpr ⟨h.covers, h'.covers⟩
  placed := List.forall_mem_append.mpr
    ⟨fun g hg => hef.placed (h.placed g hg), fun g hg => hde.placed_later (h'.placed g hg)⟩

namespace Writing

variable {γ δ : Type} {c : Comparison} {ls ms ls' ms' : List Couple} {φ : α → β} {ψ : γ → δ}
  {x : Writing α} {y : Writing β} {f : α → Writing γ} {f' : β → Writing δ}

/-- From the draft `d`, and behind the notes `gs`, the second computation follows the first. -/
def FollowsFrom (c : Comparison) (d : Draft) (gs : List Passage) (ls ms : List Couple) (φ : α → β) (x : Writing α)
    (y : Writing β) : Prop :=
  match x c.desk d with
  | .error err => y c.desk (c.image gs d) = .error err
  | .ok (a, e) => ∃ notes, y c.desk (c.image gs d) = .ok (φ a, c.image (gs ++ notes) e) ∧
      c.Fits (gs ++ notes) e ∧ d.Grows e ∧ (c.watches → Notes c ls ms d e gs notes)

/-- The second computation follows the first. -/
def Follows (c : Comparison) (ls ms : List Couple) (φ : α → β) (x : Writing α) (y : Writing β) : Prop :=
  ∀ d gs, c.Fits gs d → FollowsFrom c d gs ls ms φ x y

/-- The same where the pieces that may be written are those that are written for certain. -/
abbrev Copies (c : Comparison) (ls : List Couple) (φ : α → β) (x : Writing α) (y : Writing β) : Prop :=
  Follows c ls ls φ x y

/-! ## Composition -/

theorem Follows.pure {a : α} {b : β} (h : b = φ a) : Copies c [] φ (Pure.pure a) (Pure.pure b) := by
  intro d gs hfits
  subst h
  exact ⟨[], by simp, by simpa using hfits, .refl d, fun _ => by simpa using Notes.none c [] d d gs⟩

theorem Follows.throw (err : ScriptError) :
    Follows c ls ms φ (throw err : Writing α) (throw err : Writing β) := fun _ _ _ => rfl

theorem Follows.bind (hx : Follows c ls ms φ x y) (hf : ∀ a, Follows c ls' ms' ψ (f a) (f' (φ a))) :
    Follows c (ls ++ ls') (ms ++ ms') ψ (x >>= f) (y >>= f') := by
  intro d gs hfits
  have hrun := hx d gs hfits
  unfold FollowsFrom at hrun ⊢
  rw [bind_apply, bind_apply]
  cases hresult : x c.desk d with
  | error err =>
    rw [hresult] at hrun
    simp only [hrun]
  | ok r =>
    obtain ⟨a, e⟩ := r
    rw [hresult] at hrun
    obtain ⟨notes, hy, hfits', hgrows, hnotes⟩ := hrun
    have hrest := hf a e (gs ++ notes) hfits'
    unfold FollowsFrom at hrest
    simp only [hy]
    cases hresult' : f a c.desk e with
    | error err =>
      rw [hresult'] at hrest
      exact hrest
    | ok r =>
      obtain ⟨b, e'⟩ := r
      rw [hresult'] at hrest
      obtain ⟨notes', hy', hfits'', hgrows', hnotes'⟩ := hrest
      refine ⟨notes ++ notes', ?_, ?_, hgrows.trans hgrows', fun hw => ?_⟩
      · rw [← List.append_assoc]
        exact hy'
      · rw [← List.append_assoc]
        exact hfits''
      · exact (hnotes hw).append (hnotes' hw) hgrows hgrows'

theorem Follows.pure_bind {a : α} {b : β} (h : Follows c ls ms ψ (f a) (f' b)) :
    Follows c ls ms ψ (Pure.pure a >>= f) (Pure.pure b >>= f') := by
  rw [LawfulMonad.pure_bind, LawfulMonad.pure_bind]
  exact h

/-- A step that writes no piece, and what comes after it. -/
theorem Follows.then (hx : Copies c [] φ x y) (hf : ∀ a, Follows c ls ms ψ (f a) (f' (φ a))) :
    Follows c ls ms ψ (x >>= f) (y >>= f') :=
  hx.bind hf

/-- A step that writes one piece, and what comes after it. -/
theorem Follows.piece {p : Couple} (hx : Copies c [p] φ x y)
    (hf : ∀ a, Follows c ls ms ψ (f a) (f' (φ a))) : Follows c (p :: ls) (p :: ms) ψ (x >>= f) (y >>= f') :=
  hx.bind hf

/-- The last step that writes pieces, and what comes after it. -/
theorem Follows.last (hx : Follows c ls ms φ x y) (hf : ∀ a, Copies c [] ψ (f a) (f' (φ a))) :
    Follows c ls ms ψ (x >>= f) (y >>= f') := by
  have h := hx.bind hf
  rwa [List.append_nil, List.append_nil] at h

/-- Fewer pieces are written for certain, and more may be written. -/
theorem Follows.weaken (h : Follows c ls ms φ x y) (hl : (∃ p ∈ ls', p.must) → ∃ p ∈ ls, p.must)
    (hm : (ms.map (·.most)).sum ≤ (ms'.map (·.most)).sum) : Follows c ls' ms' φ x y := by
  intro d gs hfits
  have hrun := h d gs hfits
  unfold FollowsFrom at hrun ⊢
  cases hresult : x c.desk d with
  | error err =>
    rw [hresult] at hrun
    exact hrun
  | ok r =>
    rw [hresult] at hrun
    obtain ⟨notes, hy, hfits', hgrows, hnotes⟩ := hrun
    refine ⟨notes, hy, hfits', hgrows, fun hw => ?_⟩
    have hn := hnotes hw
    exact ⟨fun hmust => hn.must (hl hmust), Nat.le_trans hn.most hm, hn.covers, hn.placed⟩

/-- Pieces that are not written at all may be counted. -/
theorem Follows.more (h : Follows c ls ms φ x y) (spare : List Couple) : Follows c ls (ms ++ spare) φ x y := by
  refine h.weaken id ?_
  rw [List.map_append, List.sum_append]
  exact Nat.le_add_right _ _

theorem Follows.ite {p q : Prop} [Decidable p] [Decidable q] {x x' : Writing α} {y y' : Writing β}
    (hpq : q ↔ p) (hx : p → Follows c ls ms φ x y) (hx' : ¬p → Follows c ls ms φ x' y') :
    Follows c ls ms φ (if p then x else x') (if q then y else y') := by
  by_cases hp : p
  · rw [if_pos hp, if_pos (hpq.mpr hp)]
    exact hx hp
  · rw [if_neg hp, if_neg (mt hpq.mp hp)]
    exact hx' hp

/-- What comes next may depend on where the two runs are. -/
theorem Follows.get_bind_from {f : Draft → Writing γ} {f' : Draft → Writing δ}
    (hf : ∀ d gs, c.Fits gs d → FollowsFrom c d gs ls ms ψ (f d) (f' (c.image gs d))) :
    Follows c ls ms ψ (get >>= f) (get >>= f') := by
  intro d gs hfits
  have h := hf d gs hfits
  unfold FollowsFrom at h ⊢
  simp only [bind_apply, get_apply]
  exact h

theorem Follows.get_bind {f : Draft → Writing γ} {f' : Draft → Writing δ}
    (hf : ∀ d gs, Follows c ls ms ψ (f d) (f' (c.image gs d))) : Follows c ls ms ψ (get >>= f) (get >>= f') :=
  .get_bind_from fun d gs hfits => hf d gs d gs hfits

theorem Follows.page_bind {f : Page → Writing γ} {f' : Page → Writing δ}
    (hf : ∀ p, Follows c ls ms ψ (f p) (f' p)) : Follows c ls ms ψ (page >>= f) (page >>= f') := by
  intro d gs hfits
  have h := hf d.page d gs hfits
  unfold FollowsFrom at h ⊢
  simp only [bind_apply, page_apply]
  exact h

theorem Follows.read_bind {f : Desk → Writing γ} {f' : Desk → Writing δ}
    (hf : Follows c ls ms ψ (f c.desk) (f' c.desk)) : Follows c ls ms ψ (read >>= f) (read >>= f') := by
  intro d gs hfits
  have h := hf d gs hfits
  unfold FollowsFrom at h ⊢
  simp only [bind_apply, read_apply]
  exact h

theorem Follows.of_step {f : Draft → α × Draft} {f' : Draft → β × Draft}
    (hf : ∀ d gs, f' (c.image gs d) = (φ (f d).1, c.image gs (f d).2))
    (hpassages : ∀ d, (f d).2.passages = d.passages) (hpromoted : ∀ d, (f d).2.promoted = d.promoted)
    (hgrows : ∀ d : Draft, d.Grows (f d).2) : Copies c [] φ (modifyGet f) (modifyGet f') := by
  intro d gs hfits
  unfold FollowsFrom
  simp only [modifyGet_apply, hf]
  refine ⟨[], by rw [List.append_nil], ?_, hgrows d, fun _ => Notes.none c [] _ _ gs⟩
  rw [List.append_nil]
  exact ⟨fun hw => by rw [hpassages, hfits.marks hw], fun hw => by rw [hpromoted]; exact hfits.promoted hw⟩

end Writing

end Scribe
