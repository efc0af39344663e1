import Scribe.Build
import Scribe.Proofs.Script.Fields

/-!
# The text of a class

The script of a lambda in a class has these parts, one behind the other: the imports, the lines that open the
namespace and the class, a line for each field, the entry method, and the rest of the class. `ClassText.text` is a
printer for them, and `Lambda.toScript_class` says that it prints the script of every lambda in every class.
-/

namespace Scribe

open Text (Page)
open Text.Page (blanks)

/-- The parts of a class with an entry method. -/
structure ClassText where
  namespaces : List String
  aliases : List (String × String)
  /-- The namespace around the class. -/
  space : Option String
  isInternal : Bool
  isStatic : Bool
  name : String
  bases : List String
  /-- The names of the fields with their types, in the order of their lines. -/
  fields : List (String × String)
  /-- The type of the result of the entry method. -/
  result : String
  entry : String
  /-- What stands behind the parenthesis that opens the parameters of the entry method. -/
  rest : String

namespace ClassText

variable (c : ClassText)

/-- The name of the class, behind that of its namespace. -/
def qualifiedName : String :=
  match c.space with
  | some space => space ++ "." ++ c.name
  | none => c.name

/-- Lines and, if there are any, a blank line behind them. -/
def paragraph (lines : List String) : String :=
  String.join (lines.map (· ++ "\n")) ++ if lines.isEmpty then "" else "\n"

def imports : String :=
  paragraph (c.namespaces.map fun ns => "using " ++ ns ++ ";") ++
    paragraph (c.aliases.map fun (name, full) => "using " ++ name ++ " = " ++ full ++ ";")

/-- The line of the class, without what it is derived from. -/
def introduction : String :=
  (if c.isInternal then "internal " else "public ") ++ (if c.isStatic then "static class " else "class ") ++ c.name

/-- The line of the class. -/
def head : String :=
  c.introduction ++ if c.bases.isEmpty then "" else " : " ++ ", ".intercalate c.bases

/-- The lines that open the namespace and the class. -/
def opening : String :=
  match c.space with
  | some space =>
    "namespace " ++ space ++ "\n\x7b" ++ ("\n" ++ (blanks 1 ++ c.head)) ++ ("\n" ++ (blanks 1 ++ "\x7b"))
  | none => c.head ++ "\n\x7b"

/-- The level of the members. -/
def level : Nat := if c.space.isSome then 2 else 1

/-- The line of a field. -/
def declaration (name ty : String) : String :=
  (if c.isStatic then "public static " else "public ") ++ ty ++ " " ++ name ++ ";"

/-- A line for each field and, if there are any, a blank line behind them. -/
def declarations : String :=
  String.join (c.fields.map fun (name, ty) => "\n" ++ (blanks c.level ++ c.declaration name ty)) ++
    if c.fields.isEmpty then "" else "\n"

/-- The line of the entry method, up to its parameters. -/
def entryHead : String :=
  "\n" ++ (blanks c.level ++ ("public " ++ (if c.isStatic then "static " else "") ++ c.result ++ " " ++ c.entry ++ "("))

/-- The text of the class. -/
def text : String := c.imports ++ c.opening ++ c.declarations ++ c.entryHead ++ c.rest

theorem introduction_ne : c.introduction ≠ "" := by
  have hclass : (if c.isStatic then "static class " else "class ") ≠ "" := by split <;> decide
  simp [introduction, hclass]

theorem opening_ne : c.opening ≠ "" := by
  unfold opening
  split <;> simp

end ClassText

/-! ## Lines of a page -/

namespace Text.Page

variable {p : Page}

theorem blanks_zero : blanks 0 = "" := rfl

theorem writeLine_text_ne {s : String} (hs : s ≠ "") (p : Page) : (p.writeLine s).text ≠ "" := write_text_ne hs _

theorem openBrace_level (p : Page) : (p.openBrace false).level = p.level + 1 := by
  show (p.writeLine "\x7b").level + 1 = _
  rw [writeLine_level]

theorem foldl_writeLine_level (lines : List String) (p : Page) : (lines.foldl writeLine p).level = p.level := by
  induction lines generalizing p with
  | nil => rfl
  | cons line lines ih => rw [List.foldl_cons, ih, writeLine_level]

theorem foldl_writeLine_text {lines : List String} (hlines : ∀ l ∈ lines, l ≠ "") (h : p.text ≠ "") :
    (lines.foldl writeLine p).text = p.text ++ String.join (lines.map fun line => "\n" ++ (p.margin ++ line)) := by
  induction lines generalizing p with
  | nil => simp
  | cons line lines ih =>
    rw [List.forall_mem_cons] at hlines
    have hmargin : (p.writeLine line).margin = p.margin := margin_congr (p.writeLine_level line)
    rw [List.foldl_cons, ih hlines.2 (writeLine_text_ne hlines.1 p), hmargin, writeLine_text hlines.1, newline_text h,
      List.map_cons, String.join_cons]
    simp only [String.append_assoc]

/-- Lines at the margin, as they stand in front of the next line. -/
theorem foldl_writeLine_newline {lines : List String} (hlines : ∀ l ∈ lines, l ≠ "") (h : p.level = 0) :
    (lines.foldl writeLine p).newline.text = p.newline.text ++ String.join (lines.map (· ++ "\n")) := by
  induction lines generalizing p with
  | nil => simp
  | cons line lines ih =>
    rw [List.forall_mem_cons] at hlines
    have hmargin : p.margin = "" := by rw [margin, h, blanks_zero]
    rw [List.foldl_cons, ih hlines.2 (by rw [writeLine_level, h]), newline_text (writeLine_text_ne hlines.1 p),
      writeLine_text hlines.1, hmargin, List.map_cons, String.join_cons, String.empty_append]
    simp only [String.append_assoc]

end Text.Page

namespace Script

variable {p : Page}

/-- A paragraph, as it stands in front of the next line. -/
theorem paragraph_newline {lines : List String} (hlines : ∀ l ∈ lines, l ≠ "") (h : p.level = 0) :
    (paragraph p lines).newline.text = p.newline.text ++ ClassText.paragraph lines ∧ (paragraph p lines).level = 0 := by
  have hfold := Page.foldl_writeLine_newline hlines h
  have hlevel : (lines.foldl Page.writeLine p).level = 0 := (Page.foldl_writeLine_level lines p).trans h
  unfold paragraph ClassText.paragraph
  cases lines with
  | nil => exact ⟨by simp, h⟩
  | cons line lines =>
    simp only [List.isEmpty_cons, Bool.false_eq_true, if_false]
    refine ⟨?_, by rw [Page.newline_level, hlevel]⟩
    have hne : ((line :: lines).foldl Page.writeLine p).newline.text ≠ "" := by
      rw [hfold, List.map_cons, String.join_cons]
      simp
    rw [Page.newline_text hne, hfold, String.append_assoc]

theorem openClass_text (c : ClassText) {w : Wrapper} (hinternal : c.isInternal = w.isInternal)
    (hstatic : c.isStatic = w.isStatic) (p : Page) :
    (openClass w c.name c.bases p).text = p.newline.text ++ (p.margin ++ c.head) ++ ("\n" ++ (p.margin ++ "\x7b")) ∧
      (openClass w c.name c.bases p).level = p.level + 1 := by
  let bases := if c.bases.isEmpty then "" else " : " ++ ", ".intercalate c.bases
  have hopen : openClass w c.name c.bases p = ((p.writeLine c.introduction).write bases).openBrace false := by
    unfold openClass ClassText.introduction
    rw [← hinternal, ← hstatic]
    dsimp only [bases]
    split
    · rfl
    · rfl
  have hsettled : (p.writeLine c.introduction).owesIndent = false := Page.write_owesIndent c.introduction_ne _
  have htext : ((p.writeLine c.introduction).write bases).text = p.newline.text ++ (p.margin ++ c.head) := by
    rw [Page.write_text_of_settled hsettled, Page.writeLine_text c.introduction_ne]
    simp only [ClassText.head, bases, String.append_assoc]
  have hmargin : ((p.writeLine c.introduction).write bases).margin = p.margin := Page.margin_congr (by simp)
  have hne : ((p.writeLine c.introduction).write bases).text ≠ "" := by
    rw [htext]
    simp [ClassText.head, c.introduction_ne]
  rw [hopen]
  refine ⟨?_, by rw [Page.openBrace_level, Page.write_level, Page.writeLine_level]⟩
  rw [Page.openBrace_text hne, htext, hmargin]

/-- The lines that open a namespace and a class, at the margin. -/
theorem opening_text (c : ClassText) {w : Wrapper} (hspace : c.space = w.space?)
    (hinternal : c.isInternal = w.isInternal) (hstatic : c.isStatic = w.isStatic) (h : p.level = 0) :
    (openClass w c.name c.bases (openNamespace w p)).text = p.newline.text ++ c.opening ∧
      (openClass w c.name c.bases (openNamespace w p)).level = c.level := by
  have hmargin : p.margin = "" := by rw [Page.margin, h, Page.blanks_zero]
  obtain ⟨htext, hlevel⟩ := openClass_text c hinternal hstatic (openNamespace w p)
  rw [htext, hlevel]
  unfold openNamespace ClassText.opening ClassText.level
  rw [← hspace]
  cases c.space with
  | none =>
    refine ⟨?_, by simp [h]⟩
    simp only [hmargin, String.empty_append, String.append_assoc]
    rfl
  | some space =>
    have hname : "namespace " ++ space ≠ "" := by simp
    have hbrace : ((p.writeLine ("namespace " ++ space)).openBrace false).text =
        p.newline.text ++ ("namespace " ++ space ++ "\n\x7b") := by
      have hmargin' : (p.writeLine ("namespace " ++ space)).margin = "" :=
        (Page.margin_congr (p.writeLine_level _)).trans hmargin
      rw [Page.openBrace_text (Page.writeLine_text_ne hname p), Page.writeLine_text hname, hmargin, hmargin']
      simp only [String.empty_append, String.append_assoc]
      rfl
    have hlevel : ((p.writeLine ("namespace " ++ space)).openBrace false).level = 1 := by
      rw [Page.openBrace_level, Page.writeLine_level, h]
    have hne : ((p.writeLine ("namespace " ++ space)).openBrace false).text ≠ "" := by
      rw [hbrace]
      simp
    refine ⟨?_, congrArg (· + 1) hlevel⟩
    show ((p.writeLine ("namespace " ++ space)).openBrace false).newline.text ++ _ ++ _ = _
    rw [Page.newline_text hne, hbrace, Page.margin, hlevel]
    simp only [String.append_assoc]

theorem writeFields_text (c : ClassText) {w : Wrapper} (hstatic : c.isStatic = w.isStatic) (hp : p.text ≠ "")
    (hlevel : p.level = c.level) : (writeFields w c.fields p).text = p.text ++ c.declarations := by
  let lines := c.fields.map fun f => c.declaration f.1 f.2
  have hlines : ∀ l ∈ lines, l ≠ "" := by
    intro l hl
    obtain ⟨f, -, rfl⟩ := List.mem_map.mp hl
    simp [ClassText.declaration]
  have hwrite : writeFields w c.fields p =
      if c.fields.isEmpty then lines.foldl Page.writeLine p else (lines.foldl Page.writeLine p).append "\n" := by
    dsimp only [lines]
    rw [List.foldl_map]
    unfold writeFields ClassText.declaration
    rw [← hstatic]
  have hfold : (lines.foldl Page.writeLine p).text =
      p.text ++ String.join (c.fields.map fun f => "\n" ++ (blanks c.level ++ c.declaration f.1 f.2)) := by
    rw [Page.foldl_writeLine_text hlines hp, List.map_map, Page.margin, hlevel]
    rfl
  rw [hwrite, ClassText.declarations]
  split
  · rw [hfold, String.append_empty]
  · show (lines.foldl Page.writeLine p).text ++ "\n" = _
    rw [hfold, String.append_assoc]

/-- **The parts of a class** up to its methods. -/
theorem inClass_text (c : ClassText) {w : Wrapper} (hspace : c.space = w.space?)
    (hinternal : c.isInternal = w.isInternal) (hstatic : c.isStatic = w.isStatic) (body : String)
    (methods : List String) :
    ∃ rest, (inClass w c.name c.namespaces c.aliases c.bases c.fields body methods).1 =
      c.imports ++ c.opening ++ c.declarations ++ body ++ rest := by
  let usings := c.namespaces.map fun ns => "using " ++ ns ++ ";"
  let renamings := c.aliases.map fun (name, full) => "using " ++ name ++ " = " ++ full ++ ";"
  have husings : ∀ l ∈ usings, l ≠ "" := by
    intro l hl
    obtain ⟨ns, -, rfl⟩ := List.mem_map.mp hl
    simp
  have hrenamings : ∀ l ∈ renamings, l ≠ "" := by
    intro l hl
    obtain ⟨f, -, rfl⟩ := List.mem_map.mp hl
    simp
  -- usings and renamings are a paragraph each
  let imports := paragraph (paragraph (Page.document 0) usings) renamings
  obtain ⟨hfirst, hlevel⟩ := paragraph_newline (p := Page.document 0) husings rfl
  obtain ⟨hsecond, hlevel⟩ := paragraph_newline hrenamings hlevel
  have himports : imports.newline.text = c.imports := by
    rw [hsecond, hfirst]
    exact congrArg (· ++ _) String.empty_append
  obtain ⟨hopening, hmembers⟩ := opening_text c hspace hinternal hstatic hlevel
  let members := writeFields w c.fields (openClass w c.name c.bases (openNamespace w imports))
  have hmembersText : members.text = c.imports ++ c.opening ++ c.declarations := by
    have hne : (openClass w c.name c.bases (openNamespace w imports)).text ≠ "" := by
      rw [hopening]
      simp [c.opening_ne]
    rw [writeFields_text c hstatic hne hmembers, hopening, himports]
  have hready : Ready members := by
    have hstarts : imports.StartsAt {} := paragraph_startsAt (paragraph_startsAt (Page.startsAt_document 0) _) _
    exact writeFields_ready (openClass_ready (openNamespace_startsAt hstarts w) w _ _) w _
  have hparts : (appendParts members body methods).1.text = members.text ++ body ++ String.join methods := by
    show (appendMethods (members.append body) methods).1.text = _
    rw [appendMethods_text (hready.append body), hready.append_text]
  obtain ⟨rest, hrest⟩ := closeClass_text w (appendParts members body methods).1
  refine ⟨String.join methods ++ rest, ?_⟩
  show (closeClass w (appendParts members body methods).1).text = _
  rw [hrest, hparts, hmembersText]
  simp only [String.append_assoc]

end Script

/-! ## The entry method -/

section Entry

open Writing
open Draft (LeadsTo)

variable {desk : Desk} {d e : Draft} {body : Piece} {u : Tree}

/-- In a class, the page of a lambda starts with the line of the entry method. -/
theorem Lambda.draft_text {l : Lambda} {typeName : String} (htype : desk.wrapper.typeName = some typeName)
    (h : l.tree.draft desk = .ok (u, e)) :
    ∃ result rest, e.page.text = "\n" ++ (blanks desk.wrapper.memberLevel ++ ("public " ++
      (if desk.wrapper.isStatic then "static " else "") ++ result ++ " " ++ desk.wrapper.entryName ++ "(")) ++
      rest := by
  let start : Draft := { page := desk.firstPage }
  have hpage : desk.firstPage = .part desk.wrapper.memberLevel desk.layout.main := by
    rw [Desk.firstPage, htype]
  have hrun : method (.entry l.sig.id) "public " desk.wrapper.entryName l.sig l.body.piece desk start = .ok (u, e) := h
  rw [method_eq] at hrun
  obtain ⟨s, hs⟩ := (methodRest_stepwise _ _ l.sig l.body.steps _ u e hrun).text
  refine ⟨((Lexicon.spell l.sig.result).run start.lexicon).1, s, hs.trans (congrArg (· ++ s) ?_)⟩
  rw [start.headed_text]
  show desk.firstPage.newline.text ++ (desk.firstPage.margin ++ _) = _
  rw [hpage]
  rfl

end Entry

/-- **The script of a lambda in a class.** Its text is a class with the name and namespace of the wrapper, in which
the fields of the script are declared in the order of their names, and then the entry method. -/
theorem Lambda.toScript_class {l : Lambda} {w : Wrapper} {script : Script} {typeName : String}
    (htype : w.typeName = some typeName) (h : l.tree.toScript w = .ok script) :
    ∃ c : ClassText, script.text = c.text ∧ c.space = w.space? ∧ c.name = typeName ∧ c.entry = w.entryName ∧
      c.isStatic = w.isStatic ∧ (c.fields.map Prod.fst).Pairwise (· ≤ ·) ∧
      (c.fields.map Prod.fst).Perm (script.fields.map (·.name)) := by
  obtain ⟨k, layout, u, d, hdraft, hassemble⟩ := Tree.exists_draft_of_toScript h
  obtain ⟨hfields, hclass⟩ := d.assemble_fields hassemble
  obtain ⟨namespaces, aliases, bases, types, hlength, htext⟩ := hclass typeName htype
  obtain ⟨result, after, hbody⟩ := Lambda.draft_text htype hdraft
  let c : ClassText :=
    { namespaces, aliases, bases, result
      space := w.space?, isInternal := w.isInternal, isStatic := w.isStatic, name := typeName
      fields := d.declarations types, entry := w.entryName, rest := "" }
  obtain ⟨rest, hrest⟩ := Script.inClass_text c rfl rfl rfl d.page.text d.methods
  have hlevel : c.level = w.memberLevel := by
    unfold ClassText.level Wrapper.memberLevel
    rw [htype]
    cases hspace : w.space? <;> simp [c, hspace]
  refine ⟨{ c with rest := after ++ rest }, ?_, rfl, rfl, rfl, rfl, Text.stableSort_fst_pairwise _, ?_⟩
  · have hentry : c.entryHead = "\n" ++ (blanks w.memberLevel ++ ("public " ++
        (if w.isStatic then "static " else "") ++ result ++ " " ++ w.entryName ++ "(")) := by
      rw [ClassText.entryHead, hlevel]
    show script.text = c.imports ++ c.opening ++ c.declarations ++ c.entryHead ++ (after ++ rest)
    rw [htext, hentry,
      show (Script.inClass w typeName namespaces aliases bases _ d.page.text d.methods).1 = _ from hrest, hbody]
    simp only [String.append_assoc]
  · rw [hfields]
    exact d.declarations_perm hlength

end Scribe
