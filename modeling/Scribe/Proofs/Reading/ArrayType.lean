import Scribe.Lexicon
import Scribe.Writing.Access

/-!
# Array types

How the text of an array type is read: the name of a type that is no array comes first, and behind it rank specifiers,
each with a comma less than its array has dimensions. They are listed from the outermost array inwards.

Types are spelled from the inside out: the specifier of an array stands behind everything that its element is spelled with
(`Lexicon.spell_specifiers`). So a text is read as the arrays of its type in the opposite order, and that is the type itself
exactly when its ranks are the same from both sides.
-/

namespace Scribe

/-! ## Nested arrays -/

namespace Ty

/-- The ranks of nested arrays, that of the outermost array first. -/
def ranks : Ty → List Nat
  | .array element rank => rank :: element.ranks
  | _ => []

/-- Arrays with the given ranks around a type, that of the outermost array first. -/
def nested (base : Ty) (ranks : List Nat) : Ty := ranks.foldr (fun rank ty => .array ty rank) base

variable {base : Ty}

@[simp] theorem nested_nil (base : Ty) : base.nested [] = base := rfl

@[simp] theorem nested_cons (base : Ty) (rank : Nat) (ranks : List Nat) :
    base.nested (rank :: ranks) = .array (base.nested ranks) rank := rfl

/-- A type is the arrays that it consists of around the type inside. -/
theorem nested_ranks : ∀ ty : Ty, ty.unnest.1.nested ty.ranks = ty
  | .prim _ | .nullable _ | .byRef _ | .named _ _ _ => rfl
  | .array element rank => congrArg (Ty.array · rank) (nested_ranks element)

theorem length_ranks : ∀ ty : Ty, ty.ranks.length = ty.unnest.2
  | .prim _ | .nullable _ | .byRef _ | .named _ _ _ => rfl
  | .array element _ => congrArg (· + 1) (length_ranks element)

/-- The type inside nested arrays is no array. -/
theorem ranks_unnest : ∀ ty : Ty, ty.unnest.1.ranks = []
  | .prim _ | .nullable _ | .byRef _ | .named _ _ _ => rfl
  | .array element _ => ranks_unnest element

theorem ranks_nested (h : base.ranks = []) (ranks : List Nat) : (base.nested ranks).ranks = ranks := by
  induction ranks with
  | nil => exact h
  | cons rank ranks ih => rw [nested_cons, Ty.ranks, ih]

/-- Arrays around the same type are told apart by their ranks. -/
theorem nested_inj (h : base.ranks = []) {ranks ranks' : List Nat} :
    base.nested ranks = base.nested ranks' ↔ ranks = ranks' := by
  constructor
  · intro heq
    rw [← ranks_nested h ranks, heq, ranks_nested h]
  · rintro rfl
    rfl

/-- Whether the type is a keyword, a keyword for values that is made nullable, or an array of such a type that has
dimensions. -/
def ofKeywords : Ty → Bool
  | .prim _ => true
  | .nullable (.prim p) => (Ty.prim p).excludesNull
  | .array element rank => rank != 0 && element.ofKeywords
  | _ => false

end Ty

/-- The types that are spelled with a keyword. -/
def Primitive.all : List Primitive :=
  [.void, .bool, .byte, .sbyte, .char, .short, .ushort, .int, .uint, .long, .ulong, .float, .double, .decimal, .object,
   .string]

namespace Reading

/-! ## The reader -/

/-- Reads rank specifiers up to the end of the text. Inside of one, the first argument is the number of dimensions so
far. -/
def specifiers? : Option Nat → List Char → Option (List Nat)
  | none, [] => some []
  | none, '[' :: cs => specifiers? (some 1) cs
  | some rank, ',' :: cs => specifiers? (some (rank + 1)) cs
  | some rank, ']' :: cs => (specifiers? none cs).map (rank :: ·)
  | _, _ => none

/-- How deep in angle brackets the text is behind a character. -/
def angled (depth : Nat) (c : Char) : Nat :=
  if c = '<' then depth + 1 else if c = '>' then depth - 1 else depth

/-- Cuts a text in front of the first square bracket that stands outside of angle brackets. -/
def cut (depth : Nat) : List Char → List Char × List Char
  | [] => ([], [])
  | c :: cs =>
    if c = '[' ∧ depth = 0 then ([], c :: cs)
    else
      let rest := cut (angled depth c) cs
      (c :: rest.1, rest.2)

/-- Reads the keyword of a type. -/
def keyword? (cs : List Char) : Option Primitive := Primitive.all.find? (·.keyword.toList == cs)

/-- Reads a name: a keyword, or else what `names` has for it. -/
def typeName? (names : String → Option Ty) (cs : List Char) : Option Ty :=
  match keyword? cs with
  | some p => some (.prim p)
  | none => names (String.ofList cs)

/-- Reads a type that is no array. A question mark makes a type of values nullable. -/
def elementType? (names : String → Option Ty) (cs : List Char) : Option Ty :=
  if cs.getLast? = some '?' then ((typeName? names cs.dropLast).filter (·.excludesNull)).map .nullable
  else typeName? names cs

/-- Reads a type. The rank specifiers are listed from the outermost array inwards. -/
def type? (names : String → Option Ty) (text : String) : Option Ty := do
  let (name, rest) := cut 0 text.toList
  let base ← elementType? names name
  let ranks ← specifiers? none rest
  return base.nested ranks

/-! ## Rank specifiers -/

/-- The specifier of an array of a given rank. -/
def specifier (rank : Nat) : String := "[" ++ commas (rank - 1) ++ "]"

/-- Rank specifiers one behind the other. -/
def specifiers (ranks : List Nat) : String := String.join (ranks.map specifier)

@[simp] theorem specifiers_nil : specifiers [] = "" := by simp [specifiers]

@[simp] theorem specifiers_cons (rank : Nat) (ranks : List Nat) :
    specifiers (rank :: ranks) = specifier rank ++ specifiers ranks := by
  simp [specifiers]

theorem specifiers_append (ranks ranks' : List Nat) :
    specifiers (ranks ++ ranks') = specifiers ranks ++ specifiers ranks' := by
  induction ranks with
  | nil => simp
  | cons rank ranks ih => simp [ih, String.append_assoc]

theorem specifiers?_commas (n rank : Nat) (cs : List Char) :
    specifiers? (some rank) (List.replicate n ',' ++ ']' :: cs) =
      (specifiers? none cs).map ((rank + n) :: ·) := by
  induction n generalizing rank with
  | zero => rfl
  | succ n ih =>
    have hrank : rank + 1 + n = rank + (n + 1) := by omega
    rw [List.replicate_succ, List.cons_append, specifiers?, ih, hrank]

theorem specifiers?_specifier {rank : Nat} (h : rank ≠ 0) (cs : List Char) :
    specifiers? none ((specifier rank).toList ++ cs) = (specifiers? none cs).map (rank :: ·) := by
  have htext : (specifier rank).toList ++ cs = '[' :: (List.replicate (rank - 1) ',' ++ ']' :: cs) := by
    simp [specifier, commas]
  have hrank : 1 + (rank - 1) = rank := by omega
  rw [htext, specifiers?, specifiers?_commas, hrank]

/-- Rank specifiers are read as the ranks that they were made for. -/
theorem specifiers?_specifiers {ranks : List Nat} (h : ∀ rank ∈ ranks, rank ≠ 0) :
    specifiers? none (specifiers ranks).toList = some ranks := by
  induction ranks with
  | nil => simp [specifiers?]
  | cons rank ranks ih =>
    rw [List.forall_mem_cons] at h
    rw [specifiers_cons, String.toList_append, specifiers?_specifier h.1, ih h.2]
    rfl

theorem head?_specifiers (ranks : List Nat) : ∀ c ∈ (specifiers ranks).toList.head?, c = '[' := by
  intro c hc
  cases ranks with
  | nil => simp at hc
  | cons rank ranks => simpa [specifier] using hc.symm

/-! ## Names in front of rank specifiers -/

/-- Whether the text has no square bracket outside of angle brackets and closes all angle brackets. -/
def isWhole (depth : Nat) : List Char → Bool
  | [] => depth == 0
  | c :: cs => !(c == '[' && depth == 0) && isWhole (angled depth c) cs

/-- Whether `name` names a type, which is `base`, and has no rank specifiers. -/
def IsName (names : String → Option Ty) (name : String) (base : Ty) : Prop :=
  isWhole 0 name.toList = true ∧ elementType? names name.toList = some base

/-- A whole text is cut off where the brackets begin. -/
theorem cut_append {depth : Nat} {cs ds : List Char} (h : isWhole depth cs = true) (hds : ∀ c ∈ ds.head?, c = '[') :
    cut depth (cs ++ ds) = (cs, ds) := by
  induction cs generalizing depth with
  | nil =>
    have hdepth : depth = 0 := by simpa [isWhole] using h
    cases ds with
    | nil => rfl
    | cons d ds =>
      have hd : d = '[' := hds d rfl
      simp [cut, hd, hdepth]
  | cons c cs ih =>
    simp only [isWhole, Bool.and_eq_true, Bool.not_eq_true', Bool.and_eq_false_iff, beq_eq_false_iff_ne] at h
    have hgoes : ¬(c = '[' ∧ depth = 0) := by
      rintro ⟨hc, hdepth⟩
      exact h.1.elim (· hc) (· hdepth)
    rw [List.cons_append, cut, if_neg hgoes, ih h.2]

/-- A name that stands for a type, with rank specifiers behind it. -/
theorem IsName.type?_specifiers {names : String → Option Ty} {name : String} {base : Ty} (h : IsName names name base)
    {ranks : List Nat} (hranks : ∀ rank ∈ ranks, rank ≠ 0) :
    type? names (name ++ specifiers ranks) = some (base.nested ranks) := by
  unfold type?
  rw [String.toList_append, cut_append h.1 (head?_specifiers ranks)]
  simp [h.2, specifiers?_specifiers hranks]

/-- Keywords, and keywords for values with a question mark, are read whatever else there are names for. -/
theorem isName_keyword (names : String → Option Ty) (p : Primitive) : IsName names p.keyword (.prim p) := by
  cases p <;> exact ⟨by decide +kernel, rfl⟩

theorem isName_nullable (names : String → Option Ty) {p : Primitive} (h : (Ty.prim p).excludesNull = true) :
    IsName names (p.keyword ++ "?") (.nullable (.prim p)) := by
  cases p <;> first | exact ⟨by decide +kernel, rfl⟩ | cases h

/-! ## Spellings -/

end Reading

open Reading (specifier specifiers)

/-- The specifier of an array stands behind those of its element. -/
theorem Lexicon.spell_specifiers (lex : Lexicon) : ∀ ty : Ty,
    ((spell ty).run lex).1 = ((spell ty.unnest.1).run lex).1 ++ specifiers ty.ranks.reverse
  | .prim _ | .nullable _ | .byRef _ | .named _ _ _ => by simp [Ty.unnest, Ty.ranks]
  | .array element rank => by
    have hspell : ((spell (.array element rank)).run lex).1 = ((spell element).run lex).1 ++ specifier rank := by
      rw [spell]
      show ((spell element).run lex).1 ++ "[" ++ commas (rank - 1) ++ "]" = _
      simp only [specifier, String.append_assoc]
    have hranks : specifiers (Ty.array element rank).ranks.reverse =
        specifiers element.ranks.reverse ++ specifier rank := by
      rw [Ty.ranks, List.reverse_cons, Reading.specifiers_append, Reading.specifiers_cons, Reading.specifiers_nil,
        String.append_empty]
    rw [hspell, spell_specifiers lex element, hranks, String.append_assoc]
    rfl

/-- Full names are put together in the same way. -/
theorem Ty.fullName?_specifiers : ∀ ty : Ty, (∀ rank ∈ ty.ranks, rank ≠ 0) →
    ty.fullName? = ty.unnest.1.fullName?.map (· ++ specifiers ty.ranks.reverse)
  | .prim _, _ | .nullable _, _ | .byRef _, _ | .named _ _ _, _ => by simp [Ty.unnest, Ty.ranks]
  | .array _ 0, h => absurd rfl (h 0 List.mem_cons_self)
  | .array element (count + 1), h => by
    have hinner := fullName?_specifiers element fun rank hrank => h rank (List.mem_cons_of_mem _ hrank)
    rw [fullName?, hinner, Ty.ranks, List.reverse_cons, Reading.specifiers_append]
    cases hbase : element.unnest.1.fullName? <;> simp [Ty.unnest, hbase, specifier, String.append_assoc]

namespace Ty

/-- Every array of such a type has dimensions. -/
theorem ranks_of_ofKeywords : ∀ {ty : Ty}, ty.ofKeywords = true → ∀ rank ∈ ty.ranks, rank ≠ 0
  | .array element rank, h => by
    simp only [ofKeywords, Bool.and_eq_true, bne_iff_ne] at h
    exact List.forall_mem_cons.mpr ⟨h.1, ranks_of_ofKeywords h.2⟩
  | .prim _, _ | .nullable _, _ | .byRef _, _ | .named _ _ _, _ => List.forall_mem_nil _

/-- The type inside is a keyword, or a keyword with a question mark. -/
theorem unnest_of_ofKeywords : ∀ {ty : Ty}, ty.ofKeywords = true →
    (∃ p, ty.unnest.1 = .prim p) ∨ ∃ p, ty.unnest.1 = .nullable (.prim p) ∧ (Ty.prim p).excludesNull = true
  | .prim p, _ => .inl ⟨p, rfl⟩
  | .nullable (.prim p), h => .inr ⟨p, rfl, by simpa only [ofKeywords] using h⟩
  | .array element rank, h => by
    simp only [ofKeywords, Bool.and_eq_true] at h
    exact @unnest_of_ofKeywords element h.2
  | .nullable (.nullable _), h | .nullable (.array _ _), h | .nullable (.byRef _), h | .nullable (.named _ _ _), h
  | .byRef _, h | .named _ _ _, h => by simp [ofKeywords] at h

/-- The type inside has one spelling, which is also its full name and is read as the type. -/
theorem spelling_unnest {ty : Ty} (h : ty.ofKeywords = true) (lex : Lexicon) (names : String → Option Ty) :
    ∃ name, ((Lexicon.spell ty.unnest.1).run lex).1 = name ∧ ty.unnest.1.fullName? = some name ∧
      Reading.IsName names name ty.unnest.1 := by
  rcases unnest_of_ofKeywords h with ⟨p, hp⟩ | ⟨p, hp, hvalue⟩
  · rw [hp]
    exact ⟨p.keyword, rfl, rfl, Reading.isName_keyword names p⟩
  · rw [hp]
    exact ⟨p.keyword ++ "?", rfl, rfl, Reading.isName_nullable names hvalue⟩

/-- **Arrays are read in the opposite order.** The spelling of a type that is made from keywords, which is also its full
name, denotes the type exactly when its ranks are the same from both sides. -/
theorem keyword_spelling_denotes_iff {ty : Ty} (h : ty.ofKeywords = true) (lex : Lexicon) (names : String → Option Ty) :
    ∃ text, ((Lexicon.spell ty).run lex).1 = text ∧ ty.fullName? = some text ∧
      Reading.type? names text = some (ty.unnest.1.nested ty.ranks.reverse) ∧
      (Reading.type? names text = some ty ↔ ty.ranks.reverse = ty.ranks) := by
  obtain ⟨name, hspell, hfull, hname⟩ := spelling_unnest h lex names
  have hranks := ranks_of_ofKeywords h
  have hread : Reading.type? names (name ++ specifiers ty.ranks.reverse) = some (ty.unnest.1.nested ty.ranks.reverse) :=
    hname.type?_specifiers fun rank hrank => hranks rank (List.mem_reverse.mp hrank)
  refine ⟨name ++ specifiers ty.ranks.reverse, ?_, ?_, hread, ?_⟩
  · rw [Lexicon.spell_specifiers, hspell]
  · rw [fullName?_specifiers ty hranks, hfull]
    rfl
  · rw [hread, Option.some.injEq, ← nested_inj ty.ranks_unnest, nested_ranks]

/-- A vector of matrices of vectors, whose ranks are the same from both sides. -/
theorem keyword_spelling_denotes_iff_symmetric :
    let ty : Ty := .array (.array (.array (.nullable (.prim .long)) 1) 2) 1
    ty.ofKeywords = true ∧ ((Lexicon.spell ty).run {}).1 = "long?[][,][]" ∧
      Reading.type? (fun _ => none) "long?[][,][]" = some ty := by
  intro ty
  obtain ⟨text, hspell, -, -, hiff⟩ := @keyword_spelling_denotes_iff ty rfl {} fun _ => none
  have htext : ((Lexicon.spell ty).run {}).1 = "long?[][,][]" := by decide
  obtain rfl := hspell.symm.trans htext
  exact ⟨rfl, htext, hiff.mpr rfl⟩

/-- A vector of matrices is spelled as a matrix of vectors. -/
theorem vector_of_matrices_spelled_otherwise :
    let ty : Ty := .array (.array .int 2) 1
    ((Lexicon.spell ty).run {}).1 = "int[,][]" ∧ ty.fullName? = some "int[,][]" ∧
      Reading.type? (fun _ => none) "int[,][]" = some (.array (.array .int 1) 2) ∧
      Reading.type? (fun _ => none) "int[,][]" ≠ some ty := by
  decide

end Ty

end Scribe
