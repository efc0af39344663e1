import Scribe.Proofs.Script.Marker

/-!
# Markers are nested

The ranges of two markers of a script have no byte in common, or one of them holds the other. Markers of
different parts have no byte in common: no marker of a lambda that became a method reaches into the main part
or into another method.

The ranges of passages on one page are nested as the pages count them. The script counts the same way, since the
pages of its draft start where the measured layout has their parts.
-/

namespace Scribe

open Text (Position Extent byteCount)

/-- The range of a marker in a script: from its offset to the end of its slice. -/
def Marker.extent? (m : Marker) (script : String) : Option Extent :=
  (m.slice? script).map fun s => ⟨m.offset, m.offset + byteCount s.toList⟩

namespace Passage

variable {g g' : Passage} {part text text' script before : String} {layout : Layout} {d : Draft} {j k : Nat}

/-- The script counts the bytes of a passage like its pages, and they are bytes of its part. -/
theorem StandsIn.extents (hs : g.StandsIn (({} : Position).advance before) part) (hc : g.Covers text) :
    (∀ behind, g.marker.extent? (before ++ part ++ behind) = some g.extent) ∧
      g.extent.Within ⟨byteCount before.toList, byteCount (before ++ part).toList⟩ := by
  obtain ⟨hstart, hstop⟩ := positions hs hc
  obtain ⟨rest, hrest⟩ := hs.stop_text
  have hoffset := congrArg Position.offset hstart
  have hoffset' := congrArg Position.offset hstop
  simp only [Position.advance_offset, String.toList_append, Text.byteCount_append] at hoffset hoffset'
  constructor
  · intro behind
    have hend : g.stop.position.offset = g.start.position.offset + byteCount text.toList := by omega
    rw [Marker.extent?, (marker_leads hs hc rfl rfl).2, extent, hend]
    rfl
  · rw [hrest, hc.stop_text]
    simp only [Text.Extent.Within, extent, String.toList_append, Text.byteCount_append]
    omega

/-- The part of a passage in the script. -/
theorem IsIn.exists_part (hg : g.IsIn layout d k) (h : layout.Locates script d.page.text d.methods) :
    ∃ before part behind, (d.page.text :: d.methods)[k]? = some part ∧ script = before ++ part ++ behind ∧
      g.StandsIn (({} : Position).advance before) part ∧ ∀ j m, j < k →
        (d.page.text :: d.methods)[j]? = some m → ∃ first between, before = first ++ m ++ between ∧
          (layout.main :: layout.methods).getD j {} = ({} : Position).advance first := by
  obtain ⟨part, hpart, hs⟩ := hg
  obtain ⟨before, behind, hscript, horigin, hfirst⟩ := h.part hpart
  rw [List.getD_eq_getElem?_getD, horigin] at hs
  refine ⟨before, part, behind, hpart, hscript, hs, fun j m hj hm => ?_⟩
  obtain ⟨first, between, hbefore, hj⟩ := hfirst j m hj hm
  exact ⟨first, between, hbefore, by rw [List.getD_eq_getElem?_getD, hj, Option.getD_some]⟩

/-- A passage of an earlier part ends before one of a later part begins. -/
theorem IsIn.extent_le (hg : g.IsIn layout d j) (hg' : g'.IsIn layout d k) (hjk : j < k) (hc : g.Covers text)
    (hc' : g'.Covers text') (h : layout.Locates script d.page.text d.methods) : g.extent.stop ≤ g'.extent.start := by
  obtain ⟨before, part, behind, -, -, hs', hfirst⟩ := hg'.exists_part h
  obtain ⟨m, hm, hs⟩ := hg
  obtain ⟨first, between, rfl, horigin⟩ := hfirst j m hjk hm
  rw [horigin] at hs
  have hwithin := (hs.extents hc).2
  have hwithin' := (hs'.extents hc').2
  refine Nat.le_trans hwithin.2 (Nat.le_trans ?_ hwithin'.1)
  simp only [String.toList_append, Text.byteCount_append]
  omega

end Passage

/-- The markers of the script are nested: they mark the passages of the draft, each of which was written in the
main part or in the part of a method. The ranges of two markers are apart or one holds the other, and they are
apart when their passages were written in different parts. -/
structure Draft.MarkersNest (d : Draft) (layout : Layout) (script : Script) : Prop where
  markers : script.markers = d.passages.map Passage.marker
  parts : ∀ g ∈ d.passages, ∃ part, g.IsIn layout d part
  nested : ∀ g ∈ d.passages, ∀ g' ∈ d.passages, ∃ a b,
    g.marker.extent? script.text = some a ∧ g'.marker.extent? script.text = some b ∧ a.Nests b ∧
      ∀ part part', g.IsIn layout d part → g'.IsIn layout d part' → part ≠ part' → a.Apart b

/-- **Markers are nested.** The script has been put together from a draft whose markers are nested in it. -/
theorem Tree.markers_nest {t : Tree} {w : Wrapper} {script : Script} (h : t.toScript w = .ok script)
    (hdocument : w.document ≠ none) : ∃ layout u d, t.draft ⟨w, layout⟩ = .ok (u, d) ∧
      d.assemble w u = .ok (script, layout) ∧ d.MarkersNest layout script := by
  obtain ⟨layout, hpass⟩ := Tree.exists_pass h hdocument
  obtain ⟨u, d, hdraft, hassemble⟩ := Tree.exists_draft hpass
  obtain ⟨hlocates, hmain⟩ := Draft.assemble_locates hassemble
  obtain ⟨gs, hgs, hparts, hnested⟩ := Tree.draft_parts hdraft hmain
  have hextent {x : Nat × Passage} (hx : x ∈ gs) : x.2.marker.extent? script.text = some x.2.extent := by
    obtain ⟨⟨text, hc⟩, hin⟩ := hparts x hx
    obtain ⟨before, part, behind, -, hscript, hs, -⟩ := hin.exists_part hlocates
    rw [hscript]
    exact (hs.extents hc).1 behind
  have hapart {x y : Nat × Passage} (hx : x ∈ gs) (hy : y ∈ gs) {j k : Nat} (hj : x.2.IsIn layout d j)
      (hk : y.2.IsIn layout d k) (hjk : j ≠ k) : x.2.extent.Apart y.2.extent := by
    obtain ⟨⟨_, hc⟩, -⟩ := hparts x hx
    obtain ⟨⟨_, hc'⟩, -⟩ := hparts y hy
    rcases Nat.lt_or_gt_of_ne hjk with hlt | hlt
    · exact Or.inl (hj.extent_le hk hlt hc hc' hlocates)
    · exact Or.inr (hk.extent_le hj hlt hc' hc hlocates)
  refine ⟨layout, u, d, hdraft, hassemble, (d.assemble_tree hassemble).2, fun g hg => ?_, fun g hg g' hg' => ?_⟩
  · rw [hgs] at hg
    obtain ⟨x, hx, rfl⟩ := List.mem_map.mp hg
    exact ⟨x.1, (hparts x hx).2⟩
  · rw [hgs] at hg hg'
    obtain ⟨x, hx, rfl⟩ := List.mem_map.mp hg
    obtain ⟨y, hy, rfl⟩ := List.mem_map.mp hg'
    refine ⟨_, _, hextent hx, hextent hy, ?_, fun j k => hapart hx hy⟩
    by_cases hxy : x.1 = y.1
    · exact hnested x hx y hy hxy
    · exact Or.inl (hapart hx hy (hparts x hx).2 (hparts y hy).2 hxy)

/-- `x => (() => { return Inner(x); })()`, where `Inner` becomes a method. -/
def Tree.callsInside : Tree :=
  let x : Variable := { id := .given "x", name := some "x", ty := .int }
  let y : Variable := { id := .given "y", name := some "y", ty := .int }
  let inner := Tree.lambda (.given "g") [y] (.mk (.var y)) (some "Inner")
  .lambda (.given "f") [x] (.invoke (.lambda (.given "h") [] (.block [] [.invoke inner [.mk (.var x)]])) [])

/-- The statement of the main part, on the lines 3 to 5, holds that of the closure. The statement of `Inner` stands
behind them. -/
theorem Tree.markers_nest_callsInside :
    let w : Wrapper := { document := some "d" }
    ∃ script, callsInside.toScript w = .ok script ∧ w.document ≠ none ∧
      script.markers = [⟨⟨10, 5, 10, 14⟩, 129⟩, ⟨⟨4, 9, 4, 25⟩, 67⟩, ⟨⟨3, 5, 5, 11⟩, 29⟩] ∧
      ∃ layout u d, callsInside.draft ⟨w, layout⟩ = .ok (u, d) ∧ d.assemble w u = .ok (script, layout) ∧
        d.MarkersNest layout script := by
  intro w
  have hmarkers : (callsInside.toScript w).toOption.map Script.markers =
      some [⟨⟨10, 5, 10, 14⟩, 129⟩, ⟨⟨4, 9, 4, 25⟩, 67⟩, ⟨⟨3, 5, 5, 11⟩, 29⟩] := by decide +kernel
  cases h : callsInside.toScript w with
  | error err =>
    rw [h] at hmarkers
    cases hmarkers
  | ok script =>
    rw [h] at hmarkers
    have hdocument : w.document ≠ none := by decide
    exact ⟨script, rfl, hdocument, Option.some.inj hmarkers, Tree.markers_nest h hdocument⟩

end Scribe
