import Scribe.Proofs.Lexicon.Face
import Scribe.Proofs.Text.Page
import Scribe.Proofs.Tree.Becomes
import Scribe.Proofs.Tree.Map
import Scribe.Proofs.Writing.Run

/-!
# Two runs side by side

A tree is written at two desks that differ in their layouts, and perhaps in whether there is a document
for markers; and perhaps operations are bound late in one of the runs. `Draft.Alike` says that the drafts of
the two runs differ in positions, in what depends on positions and in whether late binding is noted only;
`Pairing.Alike` says of two computations that they keep it so, that they fail together and with the same
error, and that their results correspond.

What corresponds depends on the kind of result. Names and the like have to be equal, because they go into
the text; this is the relation `R` of `Pairing.Alike`. Trees need not correspond at all for the runs to go
on alike. What they have in common is stated apart (`V`), and under a condition: that the ranges of the
markers so far are related by `pt` (`Pairing.Trusts`). Marks are only ever added, so the condition may be
used backwards: what it says at the end of a run, it says all along.

A result can also be compared with the tree that was written. Where the pairing has a `whole`, the trees that
correspond are what a part of it may become, so that a run next to itself says what becomes of a tree.
-/

namespace Scribe

open Text (Page)

theorem Desk.agrees (desk : Desk) : desk.wrapper = { desk.wrapper with document := desk.wrapper.document } := rfl

/-- Two desks at which the same is written. -/
structure Pairing where
  left : Desk
  right : Desk
  /-- The wrappers agree in everything but the document. -/
  agree : right.wrapper = { left.wrapper with document := right.wrapper.document }
  /-- How the ranges of corresponding markers are related. -/
  pt : Span → Span → Prop
  /-- Operations may be bound late on the right. -/
  late : Prop
  /-- The tree of which parts are written on the left, where it matters what becomes of them. -/
  whole : Option Tree := none

namespace Pairing

variable (w : Pairing)

/-- The trees of the two runs are the same but for markers. -/
abbrev Respanned : Tree → Tree → Prop := Tree.Respanned w.left.wrapper.document w.pt

/-- The trees `t` and `u` of the two runs correspond, and `t` is what `s` may become. -/
structure Match (s t u : Tree) : Prop where
  respanned : w.Respanned t u
  becomes : ∀ whole ∈ w.whole, whole.Becomes s t

/-- The pages differ in nothing but their places, and at the same desk not even in these. -/
structure AlikePages (p q : Page) : Prop where
  alike : p.Alike q
  same : w.left = w.right → q = p

/-- The lexicons know the same types. Late binding may be noted in one of them only where it is allowed. -/
structure AlikeLexicons (lex lex' : Lexicon) : Prop where
  face : lex.face = lex'.face
  early : ¬w.late → lex' = lex

/-- Both runs bind the same and mark for the same document, and the ranges of their markers are related. -/
structure Trusts (d₁ d₂ : Draft) : Prop where
  early : ¬w.late
  document : w.left.wrapper.document = w.right.wrapper.document
  passages : ∀ g ∈ d₁.passages.zip d₂.passages, w.pt g.1.marker.span g.2.marker.span

end Pairing

/-- The drafts of the two runs differ in positions, in what depends on them and in what is noted of late
binding only. -/
structure Draft.Alike (w : Pairing) (d₁ d₂ : Draft) : Prop where
  page : w.AlikePages d₁.page d₂.page
  lexicon : w.AlikeLexicons d₁.lexicon d₂.lexicon
  rest : d₂ =
    { d₁ with
      page := d₂.page, promoted := d₂.promoted, passages := d₂.passages, lexicon := d₂.lexicon }
  /-- Runs for the same document mark the same. -/
  passages : w.left.wrapper.document = w.right.wrapper.document →
    d₁.passages.length = d₂.passages.length
  /-- Runs at the same desk mark the same ranges. -/
  ranges : w.left = w.right → d₂.passages = d₁.passages
  /-- The same lambdas have been moved. -/
  moved (id : Ident) : (d₁.promoted.lookup id).isSome = (d₂.promoted.lookup id).isSome
  /-- What stands for them corresponds. -/
  movedTo : w.Trusts d₁ d₂ → ∀ id t u, d₁.promoted.lookup id = some t →
    d₂.promoted.lookup id = some u → w.Respanned t u
  /-- What stands for them is what they may become. -/
  becomes : w.Trusts d₁ d₂ → ∀ whole ∈ w.whole, ∀ m ∈ d₁.promoted, whole.Moved m.1 m.2

namespace Draft.Alike

variable {w : Pairing} {d₁ d₂ : Draft}

theorem methods (h : Draft.Alike w d₁ d₂) : d₂.methods = d₁.methods := by
  rw [h.rest]

theorem undeclared (h : Draft.Alike w d₁ d₂) : d₂.undeclared = d₁.undeclared := by
  rw [h.rest]

theorem flow (h : Draft.Alike w d₁ d₂) : d₂.flow = d₁.flow := by
  rw [h.rest]

/-- Where nothing is bound late, the lexicons are the same. -/
theorem rest_of_early (h : Draft.Alike w d₁ d₂) (hearly : ¬w.late) :
    d₂ = { d₁ with page := d₂.page, promoted := d₂.promoted, passages := d₂.passages } := by
  have hrest := h.rest
  rwa [h.lexicon.early hearly] at hrest

end Draft.Alike

namespace Pairing.Match

variable {w : Pairing} {s t u : Tree}

theorem same (h : ∀ whole ∈ w.whole, whole.Becomes s t) : w.Match s t t := ⟨.refl t, h⟩

/-- What has neither parts nor variables stays as it is. -/
theorem leaf {n : Node Tree} (hchildren : n.children = []) (hvariables : n.variables = []) :
    w.Match (.mk n) (.mk n) (.mk n) :=
  same fun _ _ => .leaf hchildren hvariables

/-- A layer with what stands for its variables. -/
theorem layer {n m : Node Trees} (hnm : n.Written m) (h : ∀ p ∈ n.children, w.Match p.1 p.2.1 p.2.2) :
    w.Match (.mk (n.map (·.1))) (.mk (m.map (·.2.1))) (.mk (m.map (·.2.2))) where
  respanned := by
    have hchildren : ∀ p ∈ (m.map Prod.snd).children, w.Respanned p.1 p.2 := by
      rw [Node.children_map, hnm.children, List.forall_mem_map]
      exact fun p hp => (h p hp).respanned
    have hlayer := Tree.Respanned.layer _ hchildren
    rw [Node.map_map, Node.map_map] at hlayer
    exact hlayer
  becomes whole hwhole := by
    have hchildren : ∀ p ∈ (n.map fun p => (p.1, p.2.1)).children, whole.Becomes p.1 p.2 := by
      rw [Node.children_map, List.forall_mem_map]
      exact fun p hp => (h p hp).becomes whole hwhole
    have hlayer := Tree.Becomes.layer (hnm.map fun p => (p.1, p.2.1)) hchildren
    rw [Node.map_map, Node.map_map] at hlayer
    exact hlayer

theorem plain (n : Node Trees) (hn : n.isPlain = true) (h : ∀ p ∈ n.children, w.Match p.1 p.2.1 p.2.2) :
    w.Match (.mk (n.map (·.1))) (.mk (n.map (·.2.1))) (.mk (n.map (·.2.2))) :=
  layer (.plain hn) h

end Pairing.Match

namespace Pairing

variable {α β : Type} {w : Pairing} {R : α → α → Prop} {V : α → α → Prop} {R' V' : β → β → Prop}
  {x y : Writing α} {f g : α → Writing β}

/-- From drafts that are alike, either both computations fail with the same error, or both succeed with
drafts that are alike. Then the results are related by `R`, and, if the ranges of the markers are related
in the end, they were so at the beginning and the results are related by `V`. -/
def Alike (w : Pairing) (R V : α → α → Prop) (x y : Writing α) : Prop :=
  ∀ d₁ d₂, Draft.Alike w d₁ d₂ →
    (∃ err, x w.left d₁ = .error err ∧ y w.right d₂ = .error err) ∨
    ∃ a e₁ b e₂, x w.left d₁ = .ok (a, e₁) ∧ y w.right d₂ = .ok (b, e₂) ∧ R a b ∧
      Draft.Alike w e₁ e₂ ∧ (w.Trusts e₁ e₂ → w.Trusts d₁ d₂ ∧ V a b)

/-- The results are equal. -/
abbrev Same (w : Pairing) (x y : Writing α) : Prop := w.Alike Eq (fun _ _ => True) x y

/-- The results are equal, and something is known of them. -/
abbrev Giving (w : Pairing) (P : α → Prop) (x y : Writing α) : Prop := w.Alike Eq (fun a _ => P a) x y

/-- The results correspond, as far as markers do. -/
abbrev Twin (w : Pairing) (V : α → α → Prop) (x y : Writing α) : Prop :=
  w.Alike (fun _ _ => True) V x y

/-- The trees of both runs correspond, the left one being what `s` may become. -/
abbrev Mates (w : Pairing) (s : Tree) (x y : Writing Tree) : Prop := w.Twin (w.Match s) x y

/-! ## Sequences -/

theorem Alike.bind (hx : w.Alike R V x y) (hf : ∀ a b, R a b → w.Alike R' (fun c e => V a b → V' c e) (f a) (g b)) :
    w.Alike R' V' (x >>= f) (y >>= g) := by
  intro d₁ d₂ hd
  rcases hx d₁ d₂ hd with ⟨err, h₁, h₂⟩ | ⟨a, e₁, b, e₂, h₁, h₂, hab, he, hback⟩
  · refine Or.inl ⟨err, ?_, ?_⟩
    · rw [Writing.bind_apply, h₁]
    · rw [Writing.bind_apply, h₂]
  · rw [Writing.bind_apply, h₁, Writing.bind_apply, h₂]
    rcases hf a b hab e₁ e₂ he with h | ⟨c, f₁, e, f₂, hc, he', hce, hf', hback'⟩
    · exact Or.inl h
    · refine Or.inr ⟨c, f₁, e, f₂, hc, he', hce, hf', fun htrust => ?_⟩
      obtain ⟨hmid, hlast⟩ := hback' htrust
      obtain ⟨hstart, hfirst⟩ := hback hmid
      exact ⟨hstart, hlast hfirst⟩

/-- Equal results may be used alike, with what is known of them. -/
theorem Alike.bind_giving {P : α → Prop} (hx : w.Giving P x y)
    (hf : ∀ a, w.Alike R' (fun c e => P a → V' c e) (f a) (g a)) : w.Alike R' V' (x >>= f) (y >>= g) := by
  refine hx.bind fun a b hab => ?_
  subst hab
  exact hf a

theorem Alike.weaken {R₂ V₂ : α → α → Prop} (hR : ∀ {a b}, R a b → R₂ a b)
    (hV : ∀ {a b}, V a b → V₂ a b) (h : w.Alike R V x y) : w.Alike R₂ V₂ x y := by
  intro d₁ d₂ hd
  rcases h d₁ d₂ hd with h | ⟨a, e₁, b, e₂, h₁, h₂, hab, he, hback⟩
  · exact Or.inl h
  · exact Or.inr ⟨a, e₁, b, e₂, h₁, h₂, hR hab, he, fun ht => ⟨(hback ht).1, hV (hback ht).2⟩⟩

theorem Alike.bind_same (hx : w.Same x y) (hf : ∀ a, w.Alike R' V' (f a) (g a)) : w.Alike R' V' (x >>= f) (y >>= g) :=
  hx.bind_giving fun a => (hf a).weaken id fun h _ => h

theorem Alike.bind_twin (hx : w.Twin V x y) (hf : ∀ a b, w.Alike R' (fun c e => V a b → V' c e) (f a) (g b)) :
    w.Alike R' V' (x >>= f) (y >>= g) :=
  hx.bind fun a b _ => hf a b

theorem Alike.pure {a b : α} (hR : R a b) (hV : V a b) : w.Alike R V (Pure.pure a) (Pure.pure b) :=
  fun d₁ d₂ hd => Or.inr ⟨a, d₁, b, d₂, rfl, rfl, hR, hd, fun ht => ⟨ht, hV⟩⟩

/-- What two runs give of themselves only has to correspond. -/
theorem Alike.give {a b : α} (hV : V a b) : w.Twin V (Pure.pure a) (Pure.pure b) := .pure trivial hV

/-- Results that correspond because both runs bind the same and mark for the same document. -/
theorem Alike.pure_of_trust {a b : α} (hR : R a b)
    (hV : ¬w.late → w.left.wrapper.document = w.right.wrapper.document → V a b) :
    w.Alike R V (Pure.pure a) (Pure.pure b) :=
  fun d₁ d₂ hd => Or.inr ⟨a, d₁, b, d₂, rfl, rfl, hR, hd, fun ht => ⟨ht, hV ht.early ht.document⟩⟩

theorem Alike.pure_bind {a b : α} (h : w.Alike R' V' (f a) (g b)) :
    w.Alike R' V' (Pure.pure a >>= f) (Pure.pure b >>= g) := by
  intro d₁ d₂ hd
  exact h d₁ d₂ hd

theorem Alike.throw (err : ScriptError) : w.Alike R V (MonadExcept.throw err) (MonadExcept.throw err) :=
  fun _ _ _ => Or.inl ⟨err, rfl, rfl⟩

theorem Alike.ite_of {c : Prop} [Decidable c] {x' y' : Writing α} (h : c → w.Alike R V x y)
    (h' : ¬c → w.Alike R V x' y') : w.Alike R V (if c then x else x') (if c then y else y') := by
  split
  · next hc => exact h hc
  · next hc => exact h' hc

theorem Alike.ite {c : Prop} [Decidable c] {x' y' : Writing α} (h : w.Alike R V x y)
    (h' : w.Alike R V x' y') : w.Alike R V (if c then x else x') (if c then y else y') :=
  .ite_of (fun _ => h) fun _ => h'

/-! ## Reading the draft and the desk -/

theorem Alike.get_bind {f g : Draft → Writing β} (h : ∀ d₁ d₂, Draft.Alike w d₁ d₂ → w.Alike R' V' (f d₁) (g d₂)) :
    w.Alike R' V' (get >>= f) (get >>= g) :=
  fun d₁ d₂ hd => h d₁ d₂ hd d₁ d₂ hd

/-- A page may be looked at, as long as it does not matter where it is placed. -/
theorem Alike.page_bind {f g : Page → Writing β} (h : ∀ p q, w.AlikePages p q → w.Alike R' V' (f p) (g q)) :
    w.Alike R' V' (Writing.page >>= f) (Writing.page >>= g) :=
  fun d₁ d₂ hd => h d₁.page d₂.page hd.page d₁ d₂ hd

theorem Alike.read_bind {f g : Desk → Writing β} (h : w.Alike R' V' (f w.left) (g w.right)) :
    w.Alike R' V' (read >>= f) (read >>= g) :=
  fun d₁ d₂ hd => h d₁ d₂ hd

/-! ## Steps that leave moved lambdas and passages alone -/

theorem Trusts.of_passages {d₁ d₂ e₁ e₂ : Draft} (h : w.Trusts e₁ e₂)
    (h₁ : e₁.passages = d₁.passages) (h₂ : e₂.passages = d₂.passages) : w.Trusts d₁ d₂ :=
  ⟨h.early, h.document, by rw [← h₁, ← h₂]; exact h.passages⟩

/-- A step that does the same in both runs, and neither moves a lambda nor marks anything. -/
theorem Same.of_step
    (h : ∀ d₁ d₂, Draft.Alike w d₁ d₂ → ∃ a e₁ e₂, x w.left d₁ = .ok (a, e₁) ∧
      x w.right d₂ = .ok (a, e₂) ∧ w.AlikePages e₁.page e₂.page ∧ w.AlikeLexicons e₁.lexicon e₂.lexicon ∧
      e₁.promoted = d₁.promoted ∧ e₁.passages = d₁.passages ∧
      e₂ =
        { e₁ with
          page := e₂.page, promoted := d₂.promoted, passages := d₂.passages, lexicon := e₂.lexicon }) :
    w.Same x x := by
  intro d₁ d₂ hd
  obtain ⟨a, e₁, e₂, h₁, h₂, hpage, hlexicon, hpromoted, hpassages, hright⟩ := h d₁ d₂ hd
  replace hpassages := And.intro hpassages (congrArg Draft.passages hright)
  replace hpromoted := And.intro hpromoted (congrArg Draft.promoted hright)
  refine Or.inr ⟨a, e₁, a, e₂, h₁, h₂, rfl, ⟨hpage, hlexicon, ?_, ?_, ?_, ?_, ?_, ?_⟩, fun ht => ⟨?_, trivial⟩⟩
  · rw [hpassages.2, hpromoted.2]
    exact hright
  · rw [hpassages.1, hpassages.2]
    exact hd.passages
  · rw [hpassages.1, hpassages.2]
    exact hd.ranges
  · rw [hpromoted.1, hpromoted.2]
    exact hd.moved
  · intro ht
    rw [hpromoted.1, hpromoted.2]
    exact hd.movedTo (ht.of_passages hpassages.1 hpassages.2)
  · intro ht
    rw [hpromoted.1]
    exact hd.becomes (ht.of_passages hpassages.1 hpassages.2)
  · exact ht.of_passages hpassages.1 hpassages.2

/-- A change of the draft that has nothing to do with the page, the moved lambdas, the passages and the
lexicon. -/
theorem Same.modifyGet {f : Draft → α × Draft}
    (h : ∀ d page promoted passages lexicon, f { d with page, promoted, passages, lexicon } =
      ((f d).1, { (f d).2 with page, promoted, passages, lexicon })) :
    w.Same (modifyGet f) (modifyGet f) := by
  refine .of_step fun d₁ d₂ hd => ?_
  have h₁ := h d₁ d₁.page d₁.promoted d₁.passages d₁.lexicon
  have h₂ := h d₁ d₂.page d₂.promoted d₂.passages d₂.lexicon
  rw [← hd.rest] at h₂
  have hpage : (f d₁).2.page = d₁.page := congrArg (·.2.page) h₁
  have hlexicon : (f d₁).2.lexicon = d₁.lexicon := congrArg (·.2.lexicon) h₁
  refine ⟨(f d₁).1, (f d₁).2, (f d₂).2, rfl, ?_, ?_, ?_, congrArg (·.2.promoted) h₁,
    congrArg (·.2.passages) h₁, ?_⟩
  · show Except.ok (f d₂) = _
    rw [h₂]
  · rw [h₂, hpage]
    exact hd.page
  · rw [h₂, hlexicon]
    exact hd.lexicon
  · rw [h₂]

theorem Same.modify {f : Draft → Draft}
    (h : ∀ d page promoted passages lexicon, f { d with page, promoted, passages, lexicon } =
      { f d with page, promoted, passages, lexicon }) :
    w.Same (modify f) (modify f) := by
  have hf := Same.modifyGet (w := w) (f := fun d => ((), f d))
    fun d page promoted passages lexicon => congrArg (Prod.mk ()) (h d page promoted passages lexicon)
  exact hf

/-- A change of the page that does not look at its place. -/
theorem Same.onPage {f : Page → Page} (h : ∀ {p q}, Page.Alike p q → (f p).Alike (f q)) :
    w.Same (Writing.onPage f) (Writing.onPage f) := by
  refine .of_step fun d₁ d₂ hd => ⟨(), _, _, rfl, rfl, ?_, hd.lexicon, rfl, rfl, ?_⟩
  · exact ⟨h hd.page.alike, fun hdesk => congrArg f (hd.page.same hdesk)⟩
  · exact congrArg (fun d : Draft => { d with page := f d₂.page }) hd.rest

/-- A change of the lexicon that does not look at what is noted of late binding. -/
theorem Same.onLexicon {f : StateM Lexicon α} (h : Lexicon.FacesOnly f)
    (hx : ∀ desk d, x desk d = .ok ((f.run d.lexicon).1, { d with lexicon := (f.run d.lexicon).2 })) : w.Same x x := by
  refine .of_step fun d₁ d₂ hd => ?_
  obtain ⟨hresult, hface⟩ := h _ _ hd.lexicon.face
  refine ⟨_, _, { d₂ with lexicon := (f.run d₂.lexicon).2 }, hx _ _, ?_, hd.page, ⟨hface, fun hearly => ?_⟩,
    rfl, rfl, ?_⟩
  · rw [hx, hresult]
  · rw [hd.lexicon.early hearly]
  · exact congrArg (fun d : Draft => { d with lexicon := (f.run d₂.lexicon).2 }) hd.rest

/-- Where operations may be bound late, it makes no difference to note it on the right. -/
theorem Alike.markDynamic_bind {g : Unit → Writing α} (hlate : w.late) (h : w.Alike R V x (g ())) :
    w.Alike R V x (Writing.markDynamic >>= g) := by
  intro d₁ d₂ hd
  have hnoted : Draft.Alike w d₁ { d₂ with lexicon := d₂.lexicon.markDynamic } :=
    { page := hd.page
      lexicon := ⟨hd.lexicon.face, fun hearly => absurd hlate hearly⟩
      rest := congrArg (fun d : Draft => { d with lexicon := d₂.lexicon.markDynamic }) hd.rest
      passages := hd.passages
      ranges := hd.ranges
      moved := hd.moved
      movedTo := fun ht => absurd hlate ht.early
      becomes := fun ht => absurd hlate ht.early }
  rcases h _ _ hnoted with herr | ⟨a, e₁, b, e₂, h₁, h₂, hab, he, -⟩
  · exact Or.inl herr
  · exact Or.inr ⟨a, e₁, b, e₂, h₁, h₂, hab, he, fun ht => absurd hlate ht.early⟩

end Pairing

end Scribe
