import Scribe.Proofs.Reading.Expression
import Scribe.Proofs.Writing.Names

/-!
# Names are read back

A plain name is written as it is, or behind an `@` when it is a word of the language; either way it is
read as the same name. Numbered names are plain. So the variables of a script are told apart by the names
that are read, as long as own names are told apart and none of them looks like a numbered one.
-/

namespace Scribe

namespace Reading

/-- Whether the text is a name that can be written: a word that starts neither with a digit nor with
`@`. -/
def isPlainName (s : String) : Bool :=
  isWord s.toList && !(s.toList.head?.any fun c => c.isDigit || c == '@')

theorem keywords_reserved : ∀ s ∈ keywords, Identifier.isReserved s = true := by
  decide +kernel

/-- What a name that is written is read as. -/
def nameOf (s : String) : String := (name? s.toList).getD ""

section PlainName

variable {s : String}

theorem isPlainName_iff :
    isPlainName s = true ↔
      isWord s.toList = true ∧ ∀ c ∈ s.toList.head?, c.isDigit = false ∧ c ≠ '@' := by
  unfold isPlainName
  cases s.toList.head? <;> simp

/-- A word that starts like a name, and is neither of the truth values, is read as a name. -/
theorem atom?_of_name {w : List Char} {s : String} (h : name? w = some s) (hdigit : w.head?.any Char.isDigit = false)
    (htrue : w ≠ ['t', 'r', 'u', 'e']) (hfalse : w ≠ ['f', 'a', 'l', 's', 'e']) : atom? w = some (.name s) := by
  unfold atom?
  rw [if_neg htrue, if_neg hfalse, hdigit, h]
  rfl

/-- A plain name that is no keyword is read as it is. -/
theorem atom?_of_plain (h : isPlainName s = true) (hs : Identifier.isReserved s = false) :
    name? s.toList = some s ∧ atom? s.toList = some (.name s) := by
  obtain ⟨-, hhead⟩ := isPlainName_iff.mp h
  have hunlike {t : String} (ht : Identifier.isReserved t = true) : s.toList ≠ t.toList := by
    intro heq
    rw [String.toList_inj.mp heq, ht] at hs
    cases hs
  have hname : name? s.toList = some s := by
    have hkeyword : keywords.contains (String.ofList s.toList) = false := by
      rw [String.ofList_toList]
      refine Bool.eq_false_iff.mpr fun hmem => ?_
      rw [keywords_reserved s (List.contains_iff_mem.mp hmem)] at hs
      cases hs
    unfold name?
    split
    · next w heq =>
      rw [heq] at hhead
      exact absurd rfl (hhead '@' rfl).2
    · rw [hkeyword, String.ofList_toList]
      rfl
  have hdigit : s.toList.head?.any Char.isDigit = false := by
    cases hfirst : s.toList.head? with
    | none => rfl
    | some c => exact (hhead c hfirst).1
  exact ⟨hname, atom?_of_name hname hdigit (hunlike (t := "true") (by decide))
    (hunlike (t := "false") (by decide))⟩

/-- Behind an `@`, a name is read as it is. -/
theorem atom?_escaped (s : String) : name? ("@" ++ s).toList = some s ∧ atom? ("@" ++ s).toList = some (.name s) := by
  have hchars : ("@" ++ s).toList = '@' :: s.toList := by simp
  have hname : name? ('@' :: s.toList) = some s := by rw [name?, String.ofList_toList]
  rw [hchars]
  exact ⟨hname, atom?_of_name hname rfl (by simp) (by simp)⟩

/-- **A plain name is read back.** -/
theorem escape_read (h : isPlainName s = true) :
    isWord (Identifier.escape s).toList = true ∧ nameOf (Identifier.escape s) = s ∧
      atom? (Identifier.escape s).toList = some (.name s) := by
  obtain ⟨hword, -⟩ := isPlainName_iff.mp h
  unfold Identifier.escape nameOf
  cases hs : Identifier.isReserved s with
  | true =>
    obtain ⟨hname, hatom⟩ := atom?_escaped s
    refine ⟨?_, by rw [if_pos rfl, hname]; rfl, by rw [if_pos rfl, hatom]⟩
    obtain ⟨-, hall⟩ := isWord_iff.mp hword
    have hchars : ("@" ++ s).toList = '@' :: s.toList := by simp
    rw [if_pos rfl, hchars]
    refine isWord_iff.mpr ⟨List.cons_ne_nil _ _, fun c hc => ?_⟩
    rcases List.mem_cons.mp hc with rfl | hc
    · decide
    · exact hall c hc
  | false =>
    obtain ⟨hname, hatom⟩ := atom?_of_plain h hs
    exact ⟨hword, by rw [if_neg Bool.false_ne_true, hname]; rfl, by rw [if_neg Bool.false_ne_true, hatom]⟩

/-- A plain name with a number behind it is plain, and no keyword. -/
theorem isPlainName_numbered (h : isPlainName s = true) (k : Nat) :
    isPlainName (s ++ toString k) = true ∧ Identifier.isReserved (s ++ toString k) = false := by
  obtain ⟨hword, hhead⟩ := isPlainName_iff.mp h
  obtain ⟨hne, hchars⟩ := isWord_iff.mp hword
  have hall : ∀ c ∈ Nat.toDigits 10 k, c.isDigit = true := fun c hc =>
    Nat.isDigit_of_mem_toDigits (by decide) (by decide) hc
  have happend : (s ++ toString k).toList = s.toList ++ Nat.toDigits 10 k := by simp
  constructor
  · refine isPlainName_iff.mpr ⟨?_, fun c hc => hhead c ?_⟩
    · rw [happend]
      refine isWord_iff.mpr ⟨List.append_ne_nil_of_left_ne_nil hne _, fun c hc => ?_⟩
      rcases List.mem_append.mp hc with hc | hc
      · exact hchars c hc
      · exact isDigit_word (hall c hc)
    · rwa [happend, List.head?_append_of_ne_nil _ hne] at hc
  · -- No word of the language ends with a digit.
    have hlast : ∀ s ∈ Identifier.reserved, s.toList.getLast?.any Char.isDigit = false := by
      decide +kernel
    refine Bool.eq_false_iff.mpr fun hmem => ?_
    unfold Identifier.isReserved at hmem
    have hnone := hlast _ (List.contains_iff_mem.mp hmem)
    obtain ⟨cs, c, hcons⟩ := (List.eq_nil_or_concat (Nat.toDigits 10 k)).resolve_left Nat.toDigits_ne_nil
    rw [hcons] at hall
    rw [happend, hcons] at hnone
    exact absurd (hall c (by simp)) (by simpa using hnone)

end PlainName

end Reading

/-! ## The names of a tree's variables -/

open Reading (isPlainName nameOf isWord atom?)

/-- Own names are plain, each variable has one name, and names tell variables apart; where variables
without names occur, no own name looks like a numbered one. -/
structure WellNamed (vs : List Variable) : Prop where
  plain : ∀ v ∈ vs, ∀ s, v.name = some s → isPlainName s = true
  one : Naming.OneName vs
  apart : ∀ v ∈ vs, ∀ w ∈ vs, ∀ s, v.name = some s → w.name = some s → v.id = w.id
  unnumbered : ∀ v ∈ vs, ∀ w ∈ vs, v.name = none → ∀ k : Nat, w.name ≠ some ("p" ++ toString k)

/-- The names `ν` are words that are read as the names `μ`. -/
def NamesRead (ν μ : Ident → String) (vs : List Variable) : Prop :=
  ∀ v ∈ vs, isWord (ν v.id).toList = true ∧ atom? (ν v.id).toList = some (.name (μ v.id))

/-- The names `μ` tell the variables apart, and variables with own names go by these. -/
structure NamesApart (μ : Ident → String) (vs : List Variable) : Prop where
  own : ∀ v ∈ vs, ∀ s, v.name = some s → μ v.id = s
  injective : ∀ v ∈ vs, ∀ w ∈ vs, μ v.id = μ w.id → v.id = w.id

/-- What a variable is read as. -/
def Naming.readAs (n : Naming) (i : Ident) : String := nameOf (n.ofVariable i)

section Honest

variable {n : Naming} {vs : List Variable}

/-- Plain names are enough for names to be read. -/
theorem Naming.Honest.read_of_plain (h : n.Honest vs) (hplain : ∀ v ∈ vs, ∀ s, v.name = some s → isPlainName s = true)
    (hknows : ∀ v ∈ vs, n.Knows v.id) : NamesRead n.ofVariable n.readAs vs := by
  intro v hv
  unfold Naming.readAs
  cases hname : v.name with
  | some s =>
    obtain ⟨hword, hread, hatom⟩ := Reading.escape_read (hplain v hv s hname)
    rw [h.own v hv (hknows v hv) s hname, hread]
    exact ⟨hword, hatom⟩
  | none =>
    obtain ⟨k, -, hnumber⟩ := h.numbered v hv (hknows v hv) hname
    obtain ⟨hplain, hfree⟩ := Reading.isPlainName_numbered (s := "p") (by decide) k
    obtain ⟨hread, hatom⟩ := Reading.atom?_of_plain hplain hfree
    rw [hnumber, nameOf, hread]
    exact ⟨(Reading.isPlainName_iff.mp hplain).1, hatom⟩

theorem Naming.Honest.read (h : n.Honest vs) (hvs : WellNamed vs) (hknows : ∀ v ∈ vs, n.Knows v.id) :
    NamesRead n.ofVariable n.readAs vs :=
  h.read_of_plain hvs.plain hknows

/-- A variable with a plain name of its own is read as this name. -/
theorem Naming.Honest.readAs_own (h : n.Honest vs) {v : Variable} (hv : v ∈ vs) (hknows : n.Knows v.id) {s : String}
    (hs : v.name = some s) (hplain : isPlainName s = true) : n.readAs v.id = s := by
  unfold Naming.readAs
  rw [h.own v hv hknows s hs]
  exact (Reading.escape_read hplain).2.1

theorem Naming.Honest.namesApart (h : n.Honest vs) (hvs : WellNamed vs) (hknows : ∀ v ∈ vs, n.Knows v.id) :
    NamesApart n.readAs vs := by
  have hown {v : Variable} (hv : v ∈ vs) {s : String} (hs : v.name = some s) : n.readAs v.id = s :=
    h.readAs_own hv (hknows v hv) hs (hvs.plain v hv s hs)
  have hnumbered {v : Variable} (hv : v ∈ vs) (hs : v.name = none) :
      (∃ k : Nat, n.readAs v.id = "p" ++ toString k) ∧ n.readAs v.id = n.ofVariable v.id := by
    obtain ⟨k, -, hnumber⟩ := h.numbered v hv (hknows v hv) hs
    obtain ⟨hplain, hfree⟩ := Reading.isPlainName_numbered (s := "p") (by decide) k
    have hread : n.readAs v.id = "p" ++ toString k := by
      unfold Naming.readAs
      rw [hnumber, nameOf, (Reading.atom?_of_plain hplain hfree).1]
      rfl
    exact ⟨⟨k, hread⟩, hread.trans hnumber.symm⟩
  refine ⟨fun v hv s hs => hown hv hs, fun v hv w hw heq => ?_⟩
  cases hvname : v.name with
  | some s =>
    cases hwname : w.name with
    | some t =>
      rw [hown hv hvname, hown hw hwname] at heq
      exact hvs.apart v hv w hw s hvname (heq ▸ hwname)
    | none =>
      obtain ⟨k, hk⟩ := (hnumbered hw hwname).1
      rw [hown hv hvname, hk] at heq
      exact absurd (heq ▸ hvname) (hvs.unnumbered w hw v hv hwname k)
  | none =>
    cases hwname : w.name with
    | some t =>
      obtain ⟨k, hk⟩ := (hnumbered hv hvname).1
      rw [hown hw hwname, hk] at heq
      exact absurd (heq ▸ hwname) (hvs.unnumbered v hv w hw hvname k)
    | none =>
      rw [(hnumbered hv hvname).2, (hnumbered hw hwname).2] at heq
      exact h.apart v hv w hw (hknows v hv) (hknows w hw) hvname hwname heq

end Honest

end Scribe
