import Scribe.Proofs.Reading.ArrayType
import Scribe.Proofs.Writing.Series
import Scribe.Proofs.Writing.Step.Tree

/-!
# The creation of arrays

An expression that creates an array names a type that is no array, has a bound for each dimension of the new array, and
then rank specifiers. The name with these specifiers is the type of the elements.

The elements of an array are written as the type inside all arrays, with an empty specifier for each of these. So what is
created is the array of the node exactly when the arrays inside it have one dimension each.
-/

namespace Scribe

/-- The parts of an expression that creates an array with given bounds. -/
structure ArrayCreation where
  name : String
  bounds : List String
  specifiers : String

namespace ArrayCreation

/-- How the expression is written. -/
def text (c : ArrayCreation) : String :=
  "new " ++ c.name ++ "[" ++ ", ".intercalate c.bounds ++ "]" ++ c.specifiers

/-- The type of the array that the expression creates. Its rank is the number of the bounds, and its elements have the
type that is written without them. -/
def creates (c : ArrayCreation) (names : String → Option Ty) : Option Ty :=
  if c.bounds = [] then none
  else (Reading.type? names (c.name ++ c.specifiers)).map (.array · c.bounds.length)

end ArrayCreation

/-! ## Empty specifiers -/

/-- As many empty specifiers as there are arrays. -/
theorem Reading.specifiers_replicate (depth : Nat) :
    specifiers (List.replicate depth 1) = String.join (List.replicate depth "[]") := by
  unfold specifiers
  rw [List.map_replicate]
  rfl

/-- Arrays with empty specifiers are the arrays of a type when each of these has one dimension. -/
theorem Ty.nested_replicate_iff (ty : Ty) :
    ty.unnest.1.nested (List.replicate ty.unnest.2 1) = ty ↔ ∀ rank ∈ ty.ranks, rank = 1 := by
  have hparts : ty.unnest.1.nested (List.replicate ty.unnest.2 1) = ty ↔ List.replicate ty.unnest.2 1 = ty.ranks := by
    rw [← nested_inj ty.ranks_unnest, nested_ranks]
  rw [hparts, eq_comm, List.eq_replicate_iff, length_ranks]
  exact and_iff_right rfl

/-- What is created with empty specifiers behind the bounds. -/
theorem ArrayCreation.creates_replicate {names : String → Option Ty} {name : String} {base : Ty}
    (h : Reading.IsName names name base) {bounds : List String} (hbounds : bounds ≠ []) (depth : Nat) :
    ArrayCreation.creates ⟨name, bounds, String.join (List.replicate depth "[]")⟩ names =
      some (.array (base.nested (List.replicate depth 1)) bounds.length) := by
  have hread := h.type?_specifiers fun rank (hrank : rank ∈ List.replicate depth 1) => by
    rw [List.eq_of_mem_replicate hrank]
    exact Nat.one_ne_zero
  rw [creates, if_neg hbounds, ← Reading.specifiers_replicate, hread]
  rfl

/-! ## What is written -/

namespace Writing

variable {desk : Desk}

/-- The text is what the value of the tree adds to a line. -/
def Adds (desk : Desk) (t : Tree) (text : String) : Prop :=
  ∃ d u e, d.page.owesIndent = false ∧ t.piece.value desk d = .ok (u, e) ∧ e.page.text = d.page.text ++ text

theorem arguments_text (left right : String) {ts us : List Tree} {d e : Draft} (hd : d.page.owesIndent = false)
    (h : arguments left right (ts.map Tree.piece) desk d = .ok (us, e)) :
    e.page.owesIndent = false ∧ ∃ texts, List.Forall₂ (Adds desk) ts texts ∧
      e.page.text = d.page.text ++ left ++ ", ".intercalate texts ++ right := by
  have hvalue (t : Tree) (ts : List Tree) (d : Draft) (u : Tree) (e : Draft) (_ : True)
      (hd : d.page.owesIndent = false) (h : t.piece.value desk d = .ok (u, e)) :
      True ∧ e.page.owesIndent = false ∧ ∃ text, Adds desk t text ∧ e.page.text = d.page.text ++ text := by
    obtain ⟨he, text, htext⟩ := (Piece.value_inline t.steps d u e h).2.settled hd
    rw [Text.Page.settle_of_settled hd] at htext
    exact ⟨trivial, he, text, ⟨d, u, e, hd, h, htext⟩, htext⟩
  have hwrite {p : Text.Page} (hp : p.owesIndent = false) (s : String) : (p.write s).owesIndent = false :=
    ((Text.Page.RunsOn.write p s).settled hp).1
  unfold arguments at h
  rw [List.map_map] at h
  obtain ⟨_, f, hleft, h⟩ := bind_eq_ok.mp h
  cases hleft
  obtain ⟨us', f, hitems, h⟩ := bind_eq_ok.mp h
  cases h
  obtain ⟨-, hf, texts, htexts, htext⟩ :=
    separated_texts (I := fun _ _ => True) (P := Adds desk) (fun _ _ h => h) hvalue trivial (hwrite hd left) hitems
  refine ⟨hwrite hf right, texts, htexts, ?_⟩
  rw [Text.Page.write_text_of_settled hf, htext, Text.Page.write_text_of_settled hd]

/-- Values in brackets fail with the error of one of them. -/
theorem exists_of_arguments_error {left right : String} {ts : List Tree} {d : Draft} {err : ScriptError}
    (h : arguments left right (ts.map Tree.piece) desk d = .error err) :
    ∃ t ∈ ts, ∃ d', t.piece.value desk d' = .error err := by
  unfold arguments at h
  rw [List.map_map] at h
  rcases bind_eq_error.mp h with h | ⟨_, f, -, h⟩
  · cases h
  rcases bind_eq_error.mp h with h | ⟨_, g, -, h⟩
  · obtain ⟨x, hx, d', herr⟩ := exists_of_separated_error h
    obtain ⟨t, ht, rfl⟩ := List.mem_map.mp hx
    exact ⟨t, ht, d', herr⟩
  · cases h

end Writing

namespace Tree

open Writing

variable {desk : Desk} {d : Draft}

/-- The run that writes an array with given bounds. -/
theorem write_newArray_bounds (element : Ty) (rank : Nat) (items : List Tree) (tail : Tail) :
    (Tree.mk (.newArray .bounds (.array element rank) items)).piece.write tail desk d =
      (do
        let us ← arguments "[" "]" (items.map piece)
        put (String.join (List.replicate element.unnest.2 "[]"))
        return Tree.mk (.newArray .bounds (.array element rank) us)) desk
        { d with
          page := (d.page.write "new ").write ((Lexicon.spell element.unnest.1).run d.lexicon).1
          lexicon := ((Lexicon.spell element.unnest.1).run d.lexicon).2 } := by
  rw [piece_mk]
  rfl

/-- **An array with bounds is created with vectors inside.** Writing a new array with a bound for each dimension fails with
the error of a bound only. Otherwise the text is an expression that creates an array from these bounds and from the name of
the type inside all arrays of the elements. Where this name is read as that type, as it always is for types that are made
from keywords, the new array has vectors in the place of the arrays inside, and it is an array of the type of the node
exactly when those are vectors themselves. -/
theorem newArray_bounds_creates (element : Ty) {items : List Tree} (hitems : items ≠ []) (tail : Tail) (desk : Desk)
    (d : Draft) :
    let ty : Ty := .array element items.length
    let run := (Tree.mk (.newArray .bounds ty items)).piece.write tail desk d
    (∃ err, run = .error err ∧ ∃ item ∈ items, ∃ d', item.piece.value desk d' = .error err) ∨
    ∃ (u : Tree) (e : Draft) (c : ArrayCreation), run = .ok (u, e) ∧ e.page.text = d.page.settle.text ++ c.text ∧
      c.name = ((Lexicon.spell element.unnest.1).run d.lexicon).1 ∧ List.Forall₂ (Adds desk) items c.bounds ∧
      (element.ofKeywords = true → ∀ names, Reading.IsName names c.name element.unnest.1) ∧
      ∀ names, Reading.IsName names c.name element.unnest.1 →
        c.creates names = some (.array (element.unnest.1.nested (List.replicate element.unnest.2 1)) items.length) ∧
        (c.creates names = some ty ↔ ∀ rank ∈ element.ranks, rank = 1) := by
  intro ty run
  have hrun : run = _ := write_newArray_bounds element items.length items tail
  generalize hname : ((Lexicon.spell element.unnest.1).run d.lexicon).1 = name at hrun
  have hpage : (d.page.write "new ").owesIndent = false := Text.Page.write_owesIndent (by decide) d.page
  have hstart := ((Text.Page.RunsOn.write (d.page.write "new ") name).settled hpage).1
  rw [hrun]
  cases hargs : arguments "[" "]" (items.map piece) desk
      { d with
        page := (d.page.write "new ").write name
        lexicon := ((Lexicon.spell element.unnest.1).run d.lexicon).2 } with
  | error err =>
    refine .inl ⟨err, ?_, exists_of_arguments_error hargs⟩
    rw [bind_apply, hargs]
  | ok r =>
    obtain ⟨us, f⟩ := r
    obtain ⟨hf, bounds, hbounds, htext⟩ := arguments_text "[" "]" hstart hargs
    generalize hspecifiers : String.join (List.replicate element.unnest.2 "[]") = specifiers
    refine .inr ⟨.mk (.newArray .bounds ty us), { f with page := f.page.write specifiers }, ⟨name, bounds, specifiers⟩,
      ?_, ?_, rfl, hbounds, fun hkeywords names => ?_, fun names hread => ?_⟩
    · rw [bind_apply, hargs]
      rfl
    · show (f.page.write _).text = _
      rw [Text.Page.write_text_of_settled hf, htext, Text.Page.write_text_of_settled hpage,
        Text.Page.write_text (by decide)]
      simp only [ArrayCreation.text, String.append_assoc]
    · obtain ⟨spelled, hspelled, -, hread⟩ := Ty.spelling_unnest hkeywords d.lexicon names
      rw [← hspelled, hname] at hread
      exact hread
    · have hne : bounds ≠ [] := by
        rintro rfl
        exact hitems (List.forall₂_nil_right_iff.mp hbounds)
      have hcreates := ArrayCreation.creates_replicate hread hne element.unnest.2
      rw [hspecifiers, ← hbounds.length_eq] at hcreates
      refine ⟨hcreates, ?_⟩
      rw [hcreates, ← element.nested_replicate_iff, Option.some.injEq]
      exact ⟨fun h => (Ty.array.inj h).1, fun h => congrArg (Ty.array · items.length) h⟩

/-- A vector of vectors of texts, with the bound three. -/
theorem newArray_bounds_creates_vectors :
    let ty : Ty := .array (.array (.prim .string) 1) 1
    let t : Tree := .mk (.newArray .bounds ty [.constant (.int 3)])
    ∃ (c : ArrayCreation) (u : Tree) (e : Draft), t.piece.write .discard ⟨{}, {}⟩ { page := {} } = .ok (u, e) ∧
      e.page.text = c.text ∧ c.text = "new string[3][]" ∧ c.creates (fun _ => none) = some ty := by
  intro ty t
  have hwritten : (t.piece.write .discard ⟨{}, {}⟩ { page := {} }).toOption.map (·.2.page.text) =
      some "new string[3][]" := by
    decide +kernel
  rcases @newArray_bounds_creates (.array (.prim .string) 1) [.constant (.int 3)] (by simp) .discard ⟨{}, {}⟩
      { page := {} } with ⟨err, herr, -⟩ | ⟨u, e, c, hrun, htext, -, -, hnames, hcreates⟩
  · rw [show t.piece.write .discard ⟨{}, {}⟩ { page := {} } = .error err from herr] at hwritten
    cases hwritten
  · rw [show t.piece.write .discard ⟨{}, {}⟩ { page := {} } = .ok (u, e) from hrun] at hwritten
    have hc : e.page.text = c.text := htext.trans String.empty_append
    refine ⟨c, u, e, hrun, hc, hc.symm.trans (Option.some.inj hwritten), ?_⟩
    exact (hcreates _ (hnames rfl _)).2.mpr (by decide)

/-- A vector of matrices is created as a vector of vectors. -/
theorem vector_of_matrices_created_otherwise :
    let ty : Ty := .array (.array .int 2) 1
    let t : Tree := .mk (.newArray .bounds ty [.constant (.int 3)])
    let c : ArrayCreation := ⟨"int", ["3"], "[]"⟩
    (t.toScript {}).toOption.map (·.text) = some c.text ∧
      c.creates (fun _ => none) = some (.array (.array .int 1) 1) ∧ c.creates (fun _ => none) ≠ some ty := by
  decide +kernel

end Tree

end Scribe
