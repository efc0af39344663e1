import Scribe.Proofs.Script.Document
import Scribe.Proofs.Writing.Watch

/-!
# Effects in a script

The actions of a tree are its calls, the calls of delegates in it, and its assignments. An action is written when its
node is visited, and what is written for it can be recognized by its sign.

No action is lost, apart from those in the values of jumps and labels that are dropped, and none is written twice,
apart from those in the targets of power assignments.
-/

namespace Scribe

-- powers are those of the core library, whatever else is imported
attribute [local instance (2000)] instPowNat

namespace Text

theorem Occurs.trans {a b c : String} (h : Occurs a b) (h' : Occurs b c) : Occurs a c := by
  obtain ⟨before, behind, rfl⟩ := h
  obtain ⟨before', behind', rfl⟩ := h'
  exact ⟨before' ++ before, behind ++ behind', by simp only [String.append_assoc]⟩

theorem Occurs.of_append {a b c : String} (h : Occurs (a ++ b) c) : Occurs b c :=
  Occurs.trans ⟨a, "", String.append_empty.symm⟩ h

end Text

/-! ## Visits -/

/-- While the script of `t` was written, these were the visits of the node at the address: the run is the same with
notes of the visits and without, and what was written during a visit shows the sign of the node, and stands in the
script. -/
structure Tree.Visited (t : Tree) (a : Address) (w : Wrapper) (script : Script) (visits : List Passage) : Prop where
  run : ∃ u d, t.draft ⟨{ w with document := none }, {}⟩ = .ok (u, d) ∧
    t.watch a w = .ok (u, { d with passages := visits })
  shown (s : Tree) (g : Passage) : t.Finds a s → g ∈ visits → ∃ text, g.stop.text = g.start.text ++ text ∧
    Text.Occurs s.node.sign text ∧ Text.Occurs text script.text

/-- What a passage covers stands in the script that is put together from the page and the methods. -/
theorem Passage.PlacedIn.occurs {g : Passage} {d e : Draft} {layout : Layout} {whole text : String}
    (hg : g.PlacedIn d e) (hlayout : layout.Locates whole e.page.text e.methods)
    (htext : g.stop.text = g.start.text ++ text) : Text.Occurs text whole := by
  have hstop : Text.Occurs g.stop.text whole := by
    obtain ⟨s, hs⟩ | ⟨k, m, s, -, hm, hs⟩ := hg
    · obtain ⟨before, behind, hwhole, -⟩ := hlayout.main
      exact ⟨before, s ++ behind, by rw [hwhole, hs]; simp only [String.append_assoc]⟩
    · obtain ⟨before, behind, hwhole, -⟩ := hlayout.method k m hm
      exact ⟨before, s ++ behind, by rw [hwhole, hs]; simp only [String.append_assoc]⟩
  rw [htext] at hstop
  exact hstop.of_append

namespace Tree

variable {t s : Tree} {w : Wrapper} {script : Script} {a : Address}

/-- The script is put together from the draft that is written without a document. -/
theorem exists_unmarked_draft (h : t.toScript w = .ok script) : ∃ u d layout,
    t.draft ⟨{ w with document := none }, {}⟩ = .ok (u, d) ∧
      Layout.Locates layout script.text d.page.text d.methods := by
  rcases t.toScript_first w with ⟨err, -, herr⟩ | ⟨first, layout, script', hfirst, hscript, hreads⟩
  · cases h.symm.trans herr
  · cases h.symm.trans hscript
    rcases t.pass_document w {} with ⟨err, herr, -⟩ | ⟨s₁, s₂, measured, h₁, h₂, hsame⟩
    · cases hfirst.symm.trans herr
    · cases hfirst.symm.trans h₁
      obtain ⟨u, d, hdraft, hassemble⟩ := exists_draft h₂
      refine ⟨u, d, layout, hdraft, ?_⟩
      rw [hreads.text.trans hsame.text]
      exact (Draft.assemble_locates hassemble).1

/-- The visits of a node, as far as the tree tells their number. -/
theorem exists_visited (h : t.toScript w = .ok script) (hcoherent : t.LambdasCoherent) (a : Address) :
    ∃ visits, t.Visited a w script visits ∧ (t.meets a (a.enter none) → visits ≠ []) ∧
      visits.length ≤ t.count a (a.enter none) := by
  obtain ⟨u, d, layout, hdraft, hlayout⟩ := exists_unmarked_draft h
  obtain ⟨visits, hwatch, hmust, hmost, hplaced⟩ := watch_follows hcoherent a hdraft
  refine ⟨visits, ⟨⟨u, d, hdraft, hwatch⟩, fun s g hs hg => ?_⟩, hmust, hmost⟩
  obtain ⟨⟨s', text, hs', hsign, htext⟩, hg⟩ := hplaced g hg
  obtain rfl := hs.unique hs' hcoherent
  exact ⟨text, htext, hsign, hg.occurs hlayout htext⟩

/-! ## No effect is lost -/

/-- **No effect is lost, unless it is dropped with a value.** Every action of the tree, in lambdas too, is visited
while the script is written, and stands in the script, if on the way to it there is no value of a label, no value of a
jump that has no effect by itself and that no `return` hands on, and no argument that a late-bound operation does not
read. -/
theorem toScript_keeps_action (h : t.toScript w = .ok script) (hcoherent : t.LambdasCoherent) (hkeeps : t.Keeps a s)
    (haction : s.node.isAction = true) : ∃ visits, t.Visited a w script visits ∧ visits ≠ [] := by
  obtain ⟨visits, hvisited, hmust, -⟩ := exists_visited h hcoherent a
  exact ⟨visits, hvisited, hmust (hkeeps.meets haction)⟩

/-- A store in a lambda that is moved to a method: it is written in the method, which stands in the script. -/
theorem toScript_keeps_action_inLambda :
    let y : Variable := { id := .given "y", ty := .int, name := some "y" }
    let store : Tree := .binary .assign (.mk (.var y)) (.constant (.int 1))
    let g : Tree := .lambda (.given "g") [y] store
    let t : Tree := .lambda (.given "f") [] (.block [] [.invoke g [.constant (.int 2)]])
    ∃ script visits, t.toScript {} = .ok script ∧ t.Visited ⟨some (.given "g"), []⟩ {} script visits ∧
      visits ≠ [] := by
  intro y store g t
  have hcoherent : t.LambdasCoherent := by
    intro sig body sig' body' hmem hmem' hid
    simp [t, g, store, lambda, block, invoke, binary, constant, subtrees, parts_mk, Node.children] at hmem hmem'
    obtain ⟨rfl, rfl⟩ | ⟨rfl, rfl⟩ := hmem
    · obtain ⟨-, rfl⟩ | ⟨rfl, -⟩ := hmem'
      · rfl
      · simp at hid
    · obtain ⟨rfl, -⟩ | ⟨-, rfl⟩ := hmem'
      · simp at hid
      · rfl
  have hkeeps : t.Keeps ⟨some (.given "g"), []⟩ store := by
    have hbody : t.Keeps ⟨some (.given "f"), []⟩ (.block [] [.invoke g [.constant (.int 2)]]) := .body .root
    have hinvoke : t.Keeps ⟨some (.given "f"), [0]⟩ (.invoke g [.constant (.int 2)]) :=
      .child hbody (by simp) List.mem_cons_self
    have hlambda : t.Keeps ⟨some (.given "f"), [0, 0]⟩ g := .child hinvoke (by simp) List.mem_cons_self
    exact .body hlambda
  have hok : (t.toScript {}).isOk = true := by decide +kernel
  cases h : t.toScript {} with
  | error err =>
    rw [h] at hok
    cases hok
  | ok script =>
    obtain ⟨visits, hvisited, hvisits⟩ := toScript_keeps_action h hcoherent hkeeps rfl
    exact ⟨script, visits, rfl, hvisited, hvisits⟩

/-- A call in the value of a jump to a label that nothing is taken over from is lost: it is accepted, never visited,
and there is no trace of it in the script. -/
theorem call_in_dropped_value_is_lost :
    let m : Method := { id := .given "m", owner := Ty.system "Environment", name := "Next", result := .int }
    let call : Tree := .mk (.call none m [])
    let l : Label := { id := .given "l", ty := .int }
    let t : Tree := .block [] [.jump .goto l (some (.unary .negate (some call))), .mk (.label l none)]
    t.Finds ⟨none, [0, 0, 0]⟩ call ∧ (t.toScript {}).toOption.map (·.text) = some "goto label1;\nlabel1:;" ∧
      (t.watch ⟨none, [0, 0, 0]⟩ {}).toOption.map (·.2.passages.length) = some 0 :=
  ⟨Or.inl ⟨rfl, rfl⟩, by decide +kernel, by decide +kernel⟩

/-! ## No effect is duplicated -/

theorem lambdasCoherent_of_notMem_parts (h : ∀ sig body, Tree.mk (.lambda sig body) ∉ t.parts) : t.LambdasCoherent := by
  intro sig body sig' body' hmem hmem' _
  have hroot := (List.mem_cons.mp hmem).resolve_right (h sig body)
  have hroot' := (List.mem_cons.mp hmem').resolve_right (h sig' body')
  cases hroot.trans hroot'.symm
  rfl

/-- What a script is written from: the body of a lambda, or the tree itself. -/
def main (t : Tree) : Tree :=
  match t.node with
  | .lambda _ body => body
  | _ => t

theorem count_main_le (h : ∀ sig body, Tree.mk (.lambda sig body) ∉ t.parts) (a : Address) :
    t.count a (a.enter none) ≤ 2 ^ t.main.doublings a.path := by
  have hinside : ∀ r : Tree, (∀ sig body, Tree.mk (.lambda sig body) ∉ r.subtrees) → ∀ lambda,
      r.count a (a.enter lambda) ≤ 2 ^ r.doublings a.path := by
    intro r hr lambda
    unfold Address.enter
    split
    · exact count_le hr a.path
    · rw [count_none hr]
      exact Nat.zero_le _
  obtain ⟨n⟩ := t
  by_cases hroot : ∃ sig body, n = .lambda sig body
  · obtain ⟨sig, body, rfl⟩ := hroot
    rw [count_lambda]
    refine hinside body (fun sig' body' hmem => h sig' body' ?_) (some sig.id)
    rw [parts_mk]
    exact List.mem_flatMap.mpr ⟨body, List.mem_singleton_self body, hmem⟩
  · have hmain : (Tree.mk n).main = .mk n := by
      unfold main
      split
      · next sig body hn => exact absurd ⟨sig, body, hn⟩ hroot
      · rfl
    rw [hmain]
    refine hinside _ (fun sig body hmem => ?_) none
    rcases List.mem_cons.mp hmem with hmk | hmem
    · exact hroot ⟨sig, body, (Tree.mk.inj hmk).symm⟩
    · exact h sig body hmem

/-- **No effect is duplicated, unless it is in the target of a power assignment.** Where there is no lambda inside the
tree, a node is visited once at most, and each target of a power assignment around it doubles that. -/
theorem toScript_visits_le (h : t.toScript w = .ok script) (hlambdas : ∀ sig body, Tree.mk (.lambda sig body) ∉ t.parts)
    (a : Address) : ∃ visits, t.Visited a w script visits ∧ visits.length ≤ 2 ^ t.main.doublings a.path := by
  obtain ⟨visits, hvisited, -, hmost⟩ := exists_visited h (lambdasCoherent_of_notMem_parts hlambdas) a
  exact ⟨visits, hvisited, Nat.le_trans hmost (count_main_le hlambdas a)⟩

/-- A call in an index is written once when an element is assigned. -/
theorem toScript_visits_le_index :
    let m : Method := { id := .given "m", owner := Ty.system "Environment", name := "Next", result := .int }
    let x : Variable := { id := .given "x", ty := .array .int 1, name := some "x" }
    let t : Tree := .binary .addAssign (.index (.mk (.var x)) none [.mk (.call none m [])]) (.constant (.int 1))
    ∃ script visits, t.toScript {} = .ok script ∧ t.Visited ⟨none, [0, 1]⟩ {} script visits ∧
      visits.length ≤ 1 := by
  intro m x t
  have hlambdas : ∀ sig body, Tree.mk (.lambda sig body) ∉ t.parts := by
    intro sig body
    simp [t, index, binary, constant, subtrees, parts_mk, Node.children]
  have hok : (t.toScript {}).isOk = true := by decide +kernel
  cases h : t.toScript {} with
  | error err =>
    rw [h] at hok
    cases hok
  | ok script =>
    obtain ⟨visits, hvisited, hvisits⟩ := toScript_visits_le h hlambdas ⟨none, [0, 1]⟩
    exact ⟨script, visits, rfl, hvisited, hvisits⟩

/-- A call in the target of a power assignment is written twice: once to assign, and once to read. -/
theorem call_in_power_target_is_doubled :
    let m : Method := { id := .given "m", owner := Ty.system "Environment", name := "Next", result := .int }
    let call : Tree := .mk (.call none m [])
    let x : Variable := { id := .given "x", ty := .array (.prim .double) 1, name := some "x" }
    let t : Tree := .binary .powerAssign (.index (.mk (.var x)) none [call]) (.constant (.int 2))
    t.Finds ⟨none, [0, 1]⟩ call ∧
      (t.toScript {}).toOption.map (·.text) =
        some "x[Environment.Next()] = Math.Pow(x[Environment.Next()], 2)" ∧
      (t.watch ⟨none, [0, 1]⟩ {}).toOption.map (·.2.passages.length) = some 2 :=
  ⟨Or.inl ⟨rfl, rfl⟩, by decide +kernel, by decide +kernel⟩

end Tree

end Scribe
