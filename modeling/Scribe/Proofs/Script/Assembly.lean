import Scribe.Proofs.Text.Page
import Scribe.Script.Assembly

/-!
# Where the parts of a script begin

A layout is right about a script when its positions lead to the main part and to each of the methods.
The layout that is measured while a script is put together is right about it. The reason is that no
blanks are owed where a part is added, so that parts are added as they are.
-/

namespace Scribe

open Text (Page Position)

variable {origin : Position}

/-- The positions of the layout are those of the main part and of the methods behind it in a text. -/
structure Layout.Locates (layout : Layout) (text body : String) (methods : List String) : Prop where
  length : layout.methods.length = methods.length
  parts : ∃ before behind, text = before ++ String.join (body :: methods) ++ behind ∧
    ∀ k ≤ methods.length, (layout.main :: layout.methods)[k]? =
      some (({} : Position).advance (before ++ String.join ((body :: methods).take k)))

namespace Layout.Locates

variable {layout : Layout} {text body : String} {methods : List String}

/-- The part of a number stands where the layout says, and the parts with smaller numbers in front of it. -/
theorem part (h : layout.Locates text body methods) {k : Nat} {m : String} (hk : (body :: methods)[k]? = some m) :
    ∃ before behind, text = before ++ m ++ behind ∧
      (layout.main :: layout.methods)[k]? = some (({} : Position).advance before) ∧
      ∀ j m', j < k → (body :: methods)[j]? = some m' → ∃ first between, before = first ++ m' ++ between ∧
        (layout.main :: layout.methods)[j]? = some (({} : Position).advance first) := by
  obtain ⟨before, behind, htext, hparts⟩ := h.parts
  have hjoin {j : Nat} {m : String} {parts : List String} (hj : parts[j]? = some m) :
      String.join parts = String.join (parts.take j) ++ m ++ String.join (parts.drop (j + 1)) := by
    obtain ⟨hlt, rfl⟩ := List.getElem?_eq_some_iff.mp hj
    have hsplit : parts = parts.take j ++ parts[j] :: parts.drop (j + 1) := by
      rw [← List.drop_eq_getElem_cons hlt, List.take_append_drop]
    rw [String.append_assoc, ← String.join_cons, ← String.join_append, ← hsplit]
  have hle {j : Nat} {m : String} (hj : (body :: methods)[j]? = some m) : j ≤ methods.length :=
    Nat.le_of_lt_succ (List.getElem?_eq_some_iff.mp hj).1
  refine ⟨_, String.join ((body :: methods).drop (k + 1)) ++ behind, ?_, hparts k (hle hk), fun j m' hj hm' => ?_⟩
  · rw [htext, hjoin hk]
    simp only [String.append_assoc]
  · have htake : ((body :: methods).take k)[j]? = some m' := by rw [List.getElem?_take_of_lt hj, hm']
    refine ⟨_, String.join (((body :: methods).take k).drop (j + 1)), ?_, hparts j (hle hm')⟩
    rw [hjoin htake, List.take_take, Nat.min_eq_left (Nat.le_of_lt hj)]
    simp only [String.append_assoc]

theorem main (h : layout.Locates text body methods) : ∃ before behind, text = before ++ body ++ behind ∧
    layout.main = ({} : Position).advance before := by
  obtain ⟨before, behind, htext, hmain, -⟩ := h.part (k := 0) rfl
  exact ⟨before, behind, htext, Option.some.inj hmain⟩

theorem method (h : layout.Locates text body methods) (k : Nat) (m : String) (hm : methods[k]? = some m) :
    ∃ before behind, text = before ++ m ++ behind ∧
      layout.methods[k]? = some (({} : Position).advance before) := by
  obtain ⟨before, behind, htext, horigin, -⟩ := h.part (k := k + 1) hm
  exact ⟨before, behind, htext, horigin⟩

end Layout.Locates

namespace Text.Page

variable {p : Page}

theorem push_empty (p : Page) : p.push "" = p := by
  simp [push]

/-- Where no blanks are owed, a text is added as it is. -/
theorem append_of_settled (h : p.owesIndent = false) (s : String) : p.append s = p.push s := by
  unfold append
  split
  · next hs =>
    rw [show s = "" from String.toList_eq_nil_iff.mp hs, push_empty]
  · rw [show ({ p with owesIndent := false } : Page) = p by rw [← h]]
  · rw [settle_of_settled h]

/-- A text is left without owed blanks, also by an append. -/
theorem append_owesIndent {s : String} (hs : s ≠ "") (p : Page) : (p.append s).owesIndent = false := by
  unfold append
  split
  · next h => exact absurd (String.toList_eq_nil_iff.mp h) hs
  · rfl
  · rw [push_owesIndent, settle_owesIndent]

theorem StartsAt.append (h : p.StartsAt origin) (s : String) : (p.append s).StartsAt origin := by
  unfold Page.append
  split
  · exact h
  · exact StartsAt.push h s
  · exact h.settle.push s

theorem StartsAt.writeLine (h : p.StartsAt origin) (s : String) : (p.writeLine s).StartsAt origin :=
  h.newline.write s

theorem StartsAt.openBrace (h : p.StartsAt origin) : (p.openBrace false).StartsAt origin := by
  show (p.writeLine "\x7b").StartsAt origin
  exact StartsAt.writeLine h _

theorem openBrace_owesIndent (p : Page) : (p.openBrace false).owesIndent = false := by
  show (p.newline.write "\x7b").owesIndent = false
  exact write_owesIndent (by decide) _

theorem StartsAt.foldl {α : Type} {f : Page → α → Page} (hf : ∀ {p} a, Page.StartsAt p origin → (f p a).StartsAt origin)
    (as : List α) (h : p.StartsAt origin) : (as.foldl f p).StartsAt origin := by
  induction as generalizing p with
  | nil => exact h
  | cons a as ih => exact ih (hf a h)

end Text.Page

namespace Script

variable {p : Page}

/-! ## Adding the parts -/

/-- Parts are added to a page that starts the script and owes no blanks. -/
structure Ready (p : Page) : Prop where
  starts : p.StartsAt {}
  settled : p.owesIndent = false

theorem Ready.append (h : Ready p) (s : String) : Ready (p.append s) where
  starts := h.starts.append s
  settled := by rw [Page.append_of_settled h.settled, Page.push_owesIndent, h.settled]

theorem Ready.append_text (h : Ready p) (s : String) : (p.append s).text = p.text ++ s := by
  rw [Page.append_of_settled h.settled]
  rfl

theorem Ready.position (h : Ready p) : p.position = ({} : Position).advance p.text := by
  rw [Page.position_of_settled h.settled]
  exact h.starts

theorem appendMethods_text (h : Ready p) (methods : List String) :
    (appendMethods p methods).1.text = p.text ++ String.join methods := by
  induction methods generalizing p with
  | nil => simp [appendMethods]
  | cons m methods ih =>
    simp only [appendMethods]
    rw [ih (h.append m), h.append_text, String.join_cons, String.append_assoc]

theorem appendMethods_length (p : Page) (methods : List String) :
    (appendMethods p methods).2.length = methods.length := by
  induction methods generalizing p with
  | nil => rfl
  | cons m methods ih => simp only [appendMethods, List.length_cons, ih]

/-- The position of a method is behind everything in front of it. -/
theorem appendMethods_position (h : Ready p) {methods : List String} {k : Nat} (hk : k < methods.length) :
    (appendMethods p methods).2[k]? =
      some (({} : Position).advance (p.text ++ String.join (methods.take k))) := by
  induction methods generalizing p k with
  | nil => cases hk
  | cons first methods ih =>
    cases k with
    | zero => simp [appendMethods, h.position]
    | succ k =>
      have hrest := ih (h.append first) (Nat.lt_of_succ_lt_succ hk)
      rw [h.append_text, String.append_assoc, ← String.join_cons, ← List.take_succ_cons] at hrest
      exact hrest

/-- The layout that is measured while the parts are added locates them, whatever follows. -/
theorem appendParts_locates (h : Ready p) (body : String) (methods : List String) (rest : String) :
    (appendParts p body methods).2.Locates ((appendParts p body methods).1.text ++ rest) body methods where
  length := appendMethods_length _ _
  parts := by
    -- the body is added like one more method
    refine ⟨p.text, rest, ?_, fun k hk => ?_⟩
    · rw [← appendMethods_text h]
      rfl
    · have hlt : k < (body :: methods).length := Nat.lt_succ_of_le hk
      exact appendMethods_position h hlt

/-! ## The class around the parts -/

theorem paragraph_startsAt (h : p.StartsAt {}) (lines : List String) : (paragraph p lines).StartsAt {} := by
  have hlines := Page.StartsAt.foldl (fun s h => Page.StartsAt.writeLine h s) lines h
  unfold paragraph
  dsimp only
  split
  · exact hlines
  · exact hlines.newline

theorem openNamespace_startsAt (h : p.StartsAt {}) (w : Wrapper) : (openNamespace w p).StartsAt {} := by
  unfold openNamespace
  split
  · exact Page.StartsAt.openBrace (Page.StartsAt.writeLine h _)
  · exact h

theorem openClass_ready (h : p.StartsAt {}) (w : Wrapper) (typeName : String) (bases : List String) :
    Ready (openClass w typeName bases p) := by
  unfold openClass
  refine ⟨Page.StartsAt.openBrace ?_, Page.openBrace_owesIndent _⟩
  split
  · exact Page.StartsAt.writeLine h _
  · exact (Page.StartsAt.writeLine h _).write _

theorem writeFields_ready (h : Ready p) (w : Wrapper) (fields : List (String × String)) :
    Ready (writeFields w fields p) := by
  unfold writeFields
  dsimp only
  split
  · next hnone =>
    rw [List.isEmpty_iff.mp hnone]
    exact h
  · refine ⟨Page.StartsAt.append (.foldl (fun _ h => Page.StartsAt.writeLine h _) fields h.starts) _, ?_⟩
    exact Page.append_owesIndent (by decide) _

theorem closeBrace_text (p : Page) : ∃ rest, p.closeBrace.text = p.text ++ rest := by
  obtain ⟨s, hs⟩ := p.dedent.exists_newline_text
  obtain ⟨t, ht⟩ := p.dedent.newline.exists_write_text "\x7d"
  refine ⟨s ++ t, ?_⟩
  show (p.dedent.newline.write "\x7d").text = _
  rw [ht, hs, String.append_assoc]
  rfl

theorem closeClass_text (w : Wrapper) (p : Page) : ∃ rest, (closeClass w p).text = p.text ++ rest := by
  unfold closeClass
  split
  · obtain ⟨s, hs⟩ := closeBrace_text p
    obtain ⟨t, ht⟩ := closeBrace_text p.closeBrace
    exact ⟨s ++ t, by rw [ht, hs, String.append_assoc]⟩
  · exact closeBrace_text p

theorem inClass_locates (w : Wrapper) (typeName : String) (namespaces : List String) (aliases : List (String × String))
    (bases : List String) (fields : List (String × String)) (body : String) (methods : List String) :
    let script := inClass w typeName namespaces aliases bases fields body methods
    script.2.Locates script.1 body methods := by
  have hopen := openNamespace_startsAt (paragraph_startsAt (paragraph_startsAt
    (Page.startsAt_document 0) (namespaces.map fun ns => "using " ++ ns ++ ";"))
    (aliases.map fun a => "using " ++ a.1 ++ " = " ++ a.2 ++ ";")) w
  have hready := writeFields_ready (openClass_ready hopen w typeName bases) w fields
  obtain ⟨rest, hrest⟩ := closeClass_text w (appendParts _ body methods).1
  intro script
  have htext : script.1 = (appendParts _ body methods).1.text ++ rest := hrest
  rw [htext]
  exact appendParts_locates hready body methods rest

theorem bare_locates (body : String) (methods : List String) :
    (bare body methods).2.Locates (bare body methods).1 body methods := by
  have hready : Ready (Page.document 0) := ⟨Page.startsAt_document 0, rfl⟩
  have h := appendParts_locates hready body methods ""
  rw [String.append_empty] at h
  exact h

end Script

/-! ## The script as a whole -/

namespace Draft

variable {d : Draft} {w : Wrapper} {tree : Tree} {script : Script} {layout : Layout}

/-- The declarations of fields, given the spellings of their types. -/
def declarations (d : Draft) (types : List String) : List (String × String) :=
  Text.stableSort Text.pairBefore ((d.fields.map (·.name)).zip types)

/-- The bases and the types of the fields as they are spelled, and the lexicon behind them. -/
def spelled (d : Draft) (w : Wrapper) : List String × List String × Lexicon :=
  let bases := (w.orderedBases.mapM Lexicon.spell).run d.lexicon
  (bases.1, (d.fields.mapM fun f => Lexicon.spell f.ty).run bases.2)

/-- The text of the script and where its parts begin, unless a class needs a full name that there is not. -/
def text? (d : Draft) (w : Wrapper) : Option (String × Layout) :=
  let lexicon := (d.spelled w).2.2
  match w.typeName with
  | some typeName => lexicon.aliases?.map fun aliases =>
    Script.inClass w typeName lexicon.namespaces aliases (d.spelled w).1 (d.declarations (d.spelled w).2.1) d.page.text
      d.methods
  | none => some (Script.bare d.page.text d.methods)

/-- The script with this text. -/
def scriptOf (d : Draft) (w : Wrapper) (tree : Tree) (text : String) : Script :=
  let lexicon := (d.spelled w).2.2
  { text, tree, fields := d.fields, namespaces := lexicon.namespaces, assemblies := lexicon.assemblies,
    usesDynamic := lexicon.usesDynamic, markers := d.passages.map Passage.marker }

theorem assemble_eq (d : Draft) (w : Wrapper) (tree : Tree) :
    d.assemble w tree = match d.text? w with
      | some (text, layout) => .ok (d.scriptOf w tree text, layout)
      | none => .error .noFullName := by
  unfold assemble text? scriptOf spelled declarations
  generalize (w.orderedBases.mapM Lexicon.spell).run d.lexicon = spelled
  obtain ⟨bases, lexicon⟩ := spelled
  dsimp only
  generalize (d.fields.mapM fun f => Lexicon.spell f.ty).run lexicon = spelled
  obtain ⟨types, lexicon⟩ := spelled
  dsimp only
  cases w.typeName with
  | none => rfl
  | some typeName => cases lexicon.aliases? <;> rfl

theorem assemble_ok (h : d.assemble w tree = .ok (script, layout)) :
    d.text? w = some (script.text, layout) ∧ script = d.scriptOf w tree script.text := by
  rw [assemble_eq] at h
  cases htext : d.text? w with
  | none =>
    rw [htext] at h
    cases h
  | some r =>
    rw [htext] at h
    cases h
    exact ⟨rfl, rfl⟩

theorem text?_inClass {typeName text : String} (hclass : w.typeName = some typeName)
    (h : d.text? w = some (text, layout)) : ∃ aliases, Script.inClass w typeName (d.spelled w).2.2.namespaces aliases
      (d.spelled w).1 (d.declarations (d.spelled w).2.1) d.page.text d.methods = (text, layout) := by
  simp only [text?, hclass] at h
  obtain ⟨aliases, -, heq⟩ := Option.map_eq_some_iff.mp h
  exact ⟨aliases, heq⟩

/-- **The measured layout is right about the script.** -/
theorem assemble_locates (h : d.assemble w tree = .ok (script, layout)) :
    layout.Locates script.text d.page.text d.methods ∧ (w.typeName = none → layout.main = {}) := by
  have htext := (assemble_ok h).1
  cases htype : w.typeName with
  | none =>
    simp only [text?, htype, Option.some.injEq] at htext
    have hbare := Script.bare_locates d.page.text d.methods
    rw [htext] at hbare
    exact ⟨hbare, fun _ => (congrArg (·.2.main) htext).symm⟩
  | some typeName =>
    obtain ⟨aliases, heq⟩ := text?_inClass htype htext
    have hclass := Script.inClass_locates w typeName (d.spelled w).2.2.namespaces aliases (d.spelled w).1
      (d.declarations (d.spelled w).2.1) d.page.text d.methods
    rw [heq] at hclass
    exact ⟨hclass, nofun⟩

end Draft

end Scribe
