import Scribe.Script.Assembly
import Scribe.Writing.Node

/-!
# Scripts of trees

`Tree.toScript` is the way from a tree to its script.

Markers need to know where the page they are written on begins in the whole script, and that depends on
imports and fields, which are complete only at the end. So a script with markers is written twice: the
first pass measures where the parts begin, and the second one uses it. Both passes write the same text.
-/

namespace Scribe

open Text (Page)

/-- The page on which the main part is written. -/
def Desk.firstPage (desk : Desk) : Page :=
  match desk.wrapper.typeName with
  | some _ => .part desk.wrapper.memberLevel desk.layout.main
  | none => .document desk.wrapper.memberLevel

/-- Writes a tree on an empty page, and gives the tree as it stands after the writing. -/
def Tree.draft (t : Tree) (desk : Desk) : Except ScriptError (Tree × Draft) :=
  (t.writeRoot.run desk).run { page := desk.firstPage }

/-- Writes a script once, with the given layout for the markers, and tells the layout that the script
has in the end. -/
def Tree.pass (t : Tree) (desk : Desk) : Except ScriptError (Script × Layout) := do
  let (tree, draft) ← t.draft desk
  draft.assemble desk.wrapper tree

/-- Writes the script of a tree. -/
def Tree.toScript (t : Tree) (w : Wrapper) : Except ScriptError Script := do
  let (script, layout) ← t.pass ⟨w, {}⟩
  match w.document with
  | none => return script
  | some _ =>
    let (script, _) ← t.pass ⟨w, layout⟩
    return script

end Scribe
