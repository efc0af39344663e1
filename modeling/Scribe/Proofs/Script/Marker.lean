import Scribe.Proofs.Script.Layout
import Scribe.Proofs.Text.Excerpt
import Scribe.Proofs.Writing.Passage

/-!
# Markers point at what they mark

Every marker of a script leads to the text that was written for its statement or its test: its line and
column lead to its offset, and it cuts that text out of the script.

Three facts meet here. A passage stands on the main page or in a method, and its positions count from
where that part begins as far as the layout knows. The measured layout is right about the script. And the
last pass was started with the layout that it measures.
-/

namespace Scribe

open Text (Position byteOffset?)

namespace Passage

variable {g : Passage} {origin : Position} {part text script before behind : String}

/-- The positions of a passage, in a script that has its part behind `before`. -/
theorem positions (hs : g.StandsIn (({} : Position).advance before) part) (hc : g.Covers text) :
    g.start.position = ({} : Position).advance (before ++ g.start.settle.text) ∧
      g.stop.position = ({} : Position).advance (before ++ g.start.settle.text ++ text) := by
  constructor
  · rw [Text.Page.position_eq_settle, Position.advance_append]
    exact hs.start.settle
  · rw [Text.Page.position_of_settled hc.settled, String.append_assoc, ← hc.stop_text,
      Position.advance_append]
    exact hs.stop

/-- **The marker of a passage leads to the text of the passage,** in every script that has its part where
the layout says. -/
theorem marker_leads (hs : g.StandsIn origin part) (hc : g.Covers text)
    (hscript : script = before ++ part ++ behind) (horigin : origin = ({} : Position).advance before) :
    byteOffset? script.toList g.marker.span.startLine g.marker.span.startColumn = some g.marker.offset ∧
      g.marker.slice? script = some text := by
  subst horigin
  obtain ⟨hstart, hstop⟩ := positions hs hc
  obtain ⟨rest, hrest⟩ := hs.stop_text
  have hsplit : script = (before ++ g.start.settle.text) ++ text ++ (rest ++ behind) := by
    rw [hscript, hrest, hc.stop_text]
    simp only [String.append_assoc]
  constructor
  · show byteOffset? script.toList g.start.position.line g.start.position.column
      = some g.start.position.offset
    rw [hstart, Position.advance_offset, Nat.zero_add, hsplit, String.append_assoc]
    exact Position.byteOffset?_advance _ _
  · show (Marker.between g.start.position g.stop.position).slice? script = some text
    rw [hstart, hstop, hsplit]
    exact Marker.slice?_between _ _ _

end Passage

/-- With a document, a script is the result of a pass that was started with the layout that it
measures. -/
theorem Tree.exists_pass {t : Tree} {w : Wrapper} {script : Script} (h : t.toScript w = .ok script)
    (hdocument : w.document ≠ none) : ∃ layout, t.pass ⟨w, layout⟩ = .ok (script, layout) := by
  unfold Tree.toScript at h
  cases hfirst : t.pass ⟨w, {}⟩ with
  | error err =>
    rw [hfirst] at h
    cases h
  | ok r =>
    obtain ⟨first, layout⟩ := r
    obtain ⟨second, hsecond⟩ := Tree.pass_again hfirst
    rw [hfirst] at h
    cases hd : w.document with
    | none => exact absurd hd hdocument
    | some name =>
      simp only [hd, bind, Except.bind, hsecond] at h
      cases h
      exact ⟨layout, hsecond⟩

/-- **Every marker points at its own text.** The script has been put together from a draft `d`. Each of
its markers belongs to a passage of the draft, which is a statement or a test; the line and the column of
the marker lead to its offset, and the marker cuts exactly the text of the passage out of the script. -/
theorem Tree.markers_point_at_passages {t : Tree} {w : Wrapper} {script : Script}
    (h : t.toScript w = .ok script) (hdocument : w.document ≠ none) :
    ∃ layout u d, t.draft ⟨w, layout⟩ = .ok (u, d) ∧ d.assemble w u = .ok (script, layout) ∧
      ∀ m ∈ script.markers, ∃ g ∈ d.passages, ∃ text, g.marker = m ∧ g.Covers text ∧
        byteOffset? script.text.toList m.span.startLine m.span.startColumn = some m.offset ∧
        m.slice? script.text = some text := by
  obtain ⟨layout, hpass⟩ := Tree.exists_pass h hdocument
  obtain ⟨u, d, hdraft, hassemble⟩ := Tree.exists_draft hpass
  obtain ⟨hlocates, hmain⟩ := Draft.assemble_locates hassemble
  refine ⟨layout, u, d, hdraft, hassemble, fun m hm => ?_⟩
  rw [(d.assemble_tree hassemble).2] at hm
  obtain ⟨g, hg, rfl⟩ := List.mem_map.mp hm
  obtain ⟨⟨text, hcovers⟩, hpage | ⟨k, method, hk, hmethod⟩⟩ := Tree.draft_passages hdraft hmain hg
  · obtain ⟨before, behind, hscript, horigin⟩ := hlocates.main
    exact ⟨g, hg, text, rfl, hcovers, Passage.marker_leads hpage hcovers hscript horigin⟩
  · obtain ⟨before, behind, hscript, horigin⟩ := hlocates.method k method hk
    have horigin' : Draft.origin ⟨w, layout⟩ k = ({} : Position).advance before := by
      show layout.methods.getD k {} = _
      rw [List.getD_eq_getElem?_getD, horigin, Option.getD_some]
    exact ⟨g, hg, text, rfl, hcovers, Passage.marker_leads hmethod hcovers hscript horigin'⟩

/-- A method of one parameter that stores what an inner method makes of it, and returns it. -/
def Tree.storesInner : Tree :=
  let x : Variable := { id := .given "x", name := some "é", ty := .int }
  let y : Variable := { id := .given "y", name := some "y", ty := .int }
  let inner := Tree.lambda (.given "g") [y] (.mk (.var y)) (some "Inner")
  .lambda (.given "f") [x]
    (.block [] [.binary .assign (.mk (.var x)) (.invoke inner [.mk (.var x)]), .mk (.var x)])

/-- In a class in a namespace, `storesInner` has three markers: the statement of the inner method, which
stands behind the main one, and the two statements of the main one. -/
theorem Tree.markers_point_at_passages_storesInner :
    let w : Wrapper := { ns := some "N", typeName := some "T", document := some "d" }
    ∃ script, storesInner.toScript w = .ok script ∧ w.document ≠ none ∧
      script.markers = [⟨⟨13, 13, 13, 22⟩, 198⟩, ⟨⟨7, 13, 7, 26⟩, 93⟩, ⟨⟨8, 13, 8, 22⟩, 121⟩] ∧
      ∃ layout u d, storesInner.draft ⟨w, layout⟩ = .ok (u, d) ∧ d.assemble w u = .ok (script, layout) ∧
        ∀ m ∈ script.markers, ∃ g ∈ d.passages, ∃ text, g.marker = m ∧ g.Covers text ∧
          byteOffset? script.text.toList m.span.startLine m.span.startColumn = some m.offset ∧
          m.slice? script.text = some text := by
  intro w
  have hmarkers : (storesInner.toScript w).toOption.map Script.markers
      = some [⟨⟨13, 13, 13, 22⟩, 198⟩, ⟨⟨7, 13, 7, 26⟩, 93⟩, ⟨⟨8, 13, 8, 22⟩, 121⟩] := by decide +kernel
  cases h : storesInner.toScript w with
  | error err =>
    rw [h] at hmarkers
    cases hmarkers
  | ok script =>
    rw [h] at hmarkers
    have hdocument : w.document ≠ none := by decide
    exact ⟨script, rfl, hdocument, Option.some.inj hmarkers, Tree.markers_point_at_passages h hdocument⟩

end Scribe
