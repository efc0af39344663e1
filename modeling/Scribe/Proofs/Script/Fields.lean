import Mathlib.Data.List.Nodup
import Scribe.Proofs.Script.Text
import Scribe.Proofs.Text.Sorted
import Scribe.Proofs.Writing.Numbers
import Scribe.Proofs.Writing.Step.Tree

/-!
# The fields of a script

A script has one field for each value that it takes from outside, and the names of the fields tell them
apart, as long as no stem is another stem with digits behind it. Then looking up the name of a field gives
the value that the script means by it, and a class declares every field once.

Where the stems are `Node` and `Node1`, the eleventh field of the first and the first one of the second are
both called `Node11`.
-/

namespace Scribe

/-! ## Declarations -/

theorem length_mapM_run {α β σ : Type} (f : α → StateM σ β) (as : List α) (s : σ) :
    ((as.mapM f).run s).1.length = as.length := by
  induction as generalizing s with
  | nil => rfl
  | cons a as ih =>
    rw [List.mapM_cons, List.length_cons, ← ih ((f a).run s).2]
    rfl

theorem Draft.declarations_perm (d : Draft) {types : List String} (h : types.length = d.fields.length) :
    ((d.declarations types).map Prod.fst).Perm (d.fields.map (·.name)) := by
  have hsorted := (Text.stableSort_perm Text.pairBefore ((d.fields.map (·.name)).zip types)).map Prod.fst
  rw [List.map_fst_zip (Nat.le_of_eq (by rw [List.length_map, h]))] at hsorted
  exact hsorted

/-- A script has the fields of its draft, and a class declares them. -/
theorem Draft.assemble_fields {d : Draft} {w : Wrapper} {t : Tree} {script : Script} {layout : Layout}
    (h : d.assemble w t = .ok (script, layout)) :
    script.fields = d.fields ∧
      ∀ typeName, w.typeName = some typeName → ∃ namespaces aliases bases types,
        types.length = d.fields.length ∧
        script.text = (Script.inClass w typeName namespaces aliases bases (d.declarations types)
          d.page.text d.methods).1 := by
  obtain ⟨htext, hscript⟩ := assemble_ok h
  refine ⟨by rw [hscript]; rfl, fun typeName hclass => ?_⟩
  obtain ⟨aliases, heq⟩ := text?_inClass hclass htext
  exact ⟨_, aliases, _, _, length_mapM_run _ d.fields _, (congrArg Prod.fst heq).symm⟩

/-! ## Names -/

/-- No stem of a field is the stem of a field with digits behind it. -/
def Script.StemsApart (script : Script) : Prop :=
  ∀ f ∈ script.fields, ∀ g ∈ script.fields, Identifier.digitsBehind f.stem g.stem = false

instance (script : Script) : Decidable script.StemsApart :=
  inferInstanceAs (Decidable (∀ f ∈ script.fields, ∀ g ∈ script.fields, _))

theorem Tree.draft_listed {t u : Tree} {desk : Desk} {d : Draft} (h : t.draft desk = .ok (u, d)) :
    Field.Listed d.fields d.naming :=
  (draft_leadsTo h).fields.2.2 (Field.listed_nil _)

/-- The name of a field leads to its value, when names tell fields apart. -/
theorem Script.hoisted?_name {script : Script} (h : ∀ f ∈ script.fields, ∀ g ∈ script.fields, f.name = g.name → f = g)
    {f : Field} (hf : f ∈ script.fields) : script.hoisted? f.name = some f.value := by
  unfold Script.hoisted?
  cases hfind : script.fields.find? (·.name == f.name) with
  | none => exact absurd (beq_self_eq_true f.name) (List.find?_eq_none.mp hfind f hf)
  | some g =>
    have hname : g.name = f.name := by simpa using List.find?_some hfind
    rw [h g (List.mem_of_find?_eq_some hfind) f hf hname]
    rfl

/-- Names tell the fields of a script apart. -/
structure Script.FieldsApart (script : Script) (w : Wrapper) : Prop where
  names : (script.fields.map (·.name)).Nodup
  /-- The name of a field leads to its value. -/
  values : ∀ f ∈ script.fields, script.hoisted? f.name = some f.value
  /-- The answer to a request for a field leads to the value that was asked for, if the request was made on
  the way to the script, so that its fields go on from the fields that the request left. -/
  requests : ∀ (fields : List Field) (naming : Naming) (value : Hoisted) (ty : Ty) (hint : String),
    (Field.request fields naming value ty hint).2.1 <+: script.fields →
    ∃ hoisted, script.hoisted? (Field.request fields naming value ty hint).1 = some hoisted ∧
      hoisted.key = value.key
  /-- A class declares every field once. -/
  declared : ∀ typeName, w.typeName = some typeName →
    ∃ namespaces aliases bases declared body methods,
      script.text = (Script.inClass w typeName namespaces aliases bases declared body methods).1 ∧
      (declared.map Prod.fst).Nodup ∧ (declared.map Prod.fst).Perm (script.fields.map (·.name))

/-- **Names tell the fields of a script apart**, when no stem is another one with digits behind it. -/
theorem Tree.toScript_fieldsApart {t : Tree} {w : Wrapper} {script : Script} (h : t.toScript w = .ok script)
    (hstems : script.StemsApart) : script.FieldsApart w := by
  obtain ⟨k, layout, u, d, hdraft, hassemble⟩ := exists_draft_of_toScript h
  obtain ⟨hfields, hclass⟩ := Draft.assemble_fields hassemble
  have hlisted : Field.Listed script.fields d.naming := by
    rw [hfields]
    exact draft_listed hdraft
  have happart : ∀ f ∈ script.fields, ∀ g ∈ script.fields, f.name = g.name → f = g := by
    intro f hf g hg hname
    rcases hlisted.eq_of_name hf hg hname with heq | hdigits | hdigits
    · exact heq
    · rw [hstems f hf g hg] at hdigits
      cases hdigits
    · rw [hstems g hg f hf] at hdigits
      cases hdigits
  have hnodup : (script.fields.map (·.name)).Nodup := by
    refine List.Nodup.map_on (fun f hf g hg => happart f hf g hg) ?_
    exact hlisted.keys.imp fun hkey heq => hkey (congrArg (·.value.key) heq)
  refine ⟨hnodup, fun f hf => Script.hoisted?_name happart hf, ?_, ?_⟩
  · intro fields naming value ty hint hprefix
    obtain ⟨f, hf, hname, hkey⟩ := Field.exists_of_request hprefix
    exact ⟨f.value, hname ▸ Script.hoisted?_name happart hf, hkey⟩
  · intro typeName hname
    obtain ⟨namespaces, aliases, bases, types, hlength, htext⟩ := hclass typeName hname
    have hperm := d.declarations_perm hlength
    rw [← hfields] at hperm
    exact ⟨namespaces, aliases, bases, _, _, _, htext, hperm.symm.nodup hnodup, hperm⟩

/-- A host object in an array. -/
def Tree.host (key typeName : String) : Tree :=
  Tree.constant (.object ⟨.given key, .named { ns := some "App", name := typeName } [] none⟩)

/-- A class that passes two host objects of one type and the same set of variables twice to a hidden method
has four fields. -/
theorem Tree.toScript_fieldsApart_hidden :
    let secret : Method :=
      { id := .given "m", owner := .object, name := "Secret", result := .int, isPublic := false,
        params := [⟨"a", .object, false⟩, ⟨"b", .object, false⟩, ⟨"c", .object, false⟩] }
    let set : Tree := .mk (.varSet { id := .given "s", members := [] })
    let t : Tree := .mk (.call none secret [.host "x" "Settings", .host "y" "Settings", set, set])
    let w : Wrapper := { typeName := some "T" }
    ∃ script, t.toScript w = .ok script ∧ script.StemsApart ∧
      script.fields.map (·.name) = ["Secret1", "Settings1", "Settings2", "RuntimeVariables1"] ∧
      script.FieldsApart w := by
  intro secret set t w
  have hfields : (t.toScript w).toOption.map (fun s => (decide s.StemsApart, s.fields.map (·.name)))
      = some (true, ["Secret1", "Settings1", "Settings2", "RuntimeVariables1"]) := by decide +kernel
  cases h : t.toScript w with
  | error err =>
    rw [h] at hfields
    cases hfields
  | ok script =>
    rw [h] at hfields
    obtain ⟨hstems, hnames⟩ := Prod.mk.inj (Option.some.inj hfields)
    have hstems := of_decide_eq_true hstems
    exact ⟨script, rfl, hstems, hnames, Tree.toScript_fieldsApart h hstems⟩

/-- Two fields of one script may have the same name: of eleven objects of a type `Node` and one of a type
`Node1`, the last two are both called `Node11`, and the name leads to the first of them. -/
theorem Tree.twelve_hosts_clash :
    let nodes := (List.range 11).map fun k => Tree.host (toString k) "Node"
    let t : Tree := .newArray .elements .object (nodes ++ [.host "other" "Node1"])
    (t.toScript {}).toOption.map (fun s =>
        ((s.fields.drop 10).map fun f => (f.name, f.value.key), (s.hoisted? "Node11").map Hoisted.key))
      = some ([("Node11", .object (.given "10")), ("Node11", .object (.given "other"))],
          some (.object (.given "10"))) := by
  decide +kernel

end Scribe
