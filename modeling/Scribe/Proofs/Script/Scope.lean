import Scribe.Proofs.Script.Text
import Scribe.Proofs.Writing.Parallel.Tree

/-!
# The scopes of a rewritten tree

The tree of a script binds what it uses, and gives every variable a name, wherever it was written. Parts of
the tree that writing copies keep their nameless variables, and these are no longer bound, because their
binders have new identities. Such parts are sets of variables, values of labels that nothing takes over,
values of jumps likewise, and arguments that a late-bound operation does not write.
-/

namespace Scribe

/-- Nothing is free in the tree, and every variable has a name. -/
structure Tree.WellScoped (u : Tree) : Prop where
  free : u.free = []
  named : ∀ v ∈ u.variables, v.name ≠ none

/-- The tree is well scoped, apart from nameless variables among `spared`. -/
structure Tree.ScopedApartFrom (u : Tree) (spared : List Variable) : Prop where
  free : ∀ v ∈ u.free, v.name = none ∧ v ∈ spared
  named : ∀ v ∈ u.variables, v.name = none → v ∈ spared

theorem Tree.ScopedApartFrom.wellScoped {u : Tree} {spared : List Variable} (h : u.ScopedApartFrom spared)
    (hspared : ∀ v ∈ spared, v.name ≠ none) : u.WellScoped where
  free := by
    rw [List.eq_nil_iff_forall_not_mem]
    intro v hv
    obtain ⟨hname, hmem⟩ := h.free v hv
    exact hspared v hmem hname
  named v hv hname := hspared v (h.named v hv hname) hname

/-- The tree of a script is what the tree may become. -/
theorem Tree.toScript_becomes {t : Tree} {w : Wrapper} {script : Script} (h : t.toScript w = .ok script) :
    t.Becomes t script.tree := by
  obtain ⟨k, layout, u, d, hdraft, hassemble⟩ := exists_draft_of_toScript h
  rw [(d.assemble_tree hassemble).1]
  exact (becomes_of_writeRoot hdraft nofun).1

/-- **The rewritten tree is well scoped, apart from copies.** When every occurrence of a variable is bound in
the tree, an occurrence that is not bound in the rewritten tree is a nameless variable in a copy, and all
other variables there have names. If no copy holds a nameless variable, the rewritten tree is well scoped. -/
theorem Tree.toScript_scoped {t : Tree} {w : Wrapper} {script : Script} (h : t.toScript w = .ok script)
    (hcoherent : t.Coherent) (hclosed : t.free = []) :
    script.tree.ScopedApartFrom t.copied ∧
      ((∀ v ∈ t.copied, v.name ≠ none) → script.tree.WellScoped) := by
  have hbecomes := toScript_becomes h
  have hscoped : script.tree.ScopedApartFrom t.copied := by
    refine ⟨fun w hw => ?_, hbecomes.named t.mem_subtrees_self⟩
    rcases hbecomes.free hcoherent t.mem_subtrees_self w hw with ⟨v, hv, -⟩ | hcopied
    · rw [hclosed] at hv
      cases hv
    · exact hcopied
  exact ⟨hscoped, hscoped.wellScoped⟩

/-- Nameless parameters, block variables and handler variables, in a lambda with a lambda inside, all get
names and stay bound. -/
theorem Tree.toScript_scoped_nameless :
    let x : Variable := { id := .given "x", ty := .int }
    let y : Variable := { id := .given "y", ty := .int }
    let z : Variable := { id := .given "z", ty := .int }
    let e : Variable := { id := .given "e", ty := Ty.exception }
    let use (v : Variable) : Tree := .mk (.var v)
    let inner : Tree := .lambda (.given "g") [z] (use z)
    let t : Tree := .lambda (.given "f") [x] (.block [y]
      [.tryCatch (.binary .assign (use y) (.invoke inner [use x]))
        [Tree.handler none (some e) none (.unary .throw (some (use e)))] none none, use y])
    let names := ["p1", "p2", "p4", "p2", "p3", "p3", "p1", "p4", "p2"]
    t.free = [] ∧ t.Coherent ∧ ∃ script, t.toScript {} = .ok script ∧
      script.tree.variables.map (·.name) = names.map some ∧ script.tree.WellScoped := by
  intro x y z e use inner t names
  have hfree : t.free = [] := by decide +kernel
  have hcoherent : t.Coherent := by decide +kernel
  have hcopied : t.copied = [] := by decide +kernel
  have hnames : (t.toScript {}).toOption.map (·.tree.variables.map (·.name)) = some (names.map some) := by
    decide +kernel
  cases h : t.toScript {} with
  | error err =>
    rw [h] at hnames
    cases hnames
  | ok script =>
    rw [h] at hnames
    refine ⟨hfree, hcoherent, script, rfl, Option.some.inj hnames, ?_⟩
    exact (Tree.toScript_scoped h hcoherent hfree).2 (by rw [hcopied]; nofun)

/-- A nameless variable in the value of a label that is not the last statement is copied: it is bound in the
tree, and free and still nameless in the rewritten one. -/
theorem Tree.label_value_escapes :
    let x : Variable := { id := .given "x", ty := .int }
    let t : Tree := .lambda (.given "f") [x]
      (.block [] [.mk (.label { id := .given "l", ty := .int } (some (.mk (.var x)))), .mk (.var x)])
    (t.free = [] ∧ t.Coherent) ∧
      (t.toScript {}).toOption.map (·.tree.free) = some [x] := by
  decide +kernel

end Scribe
