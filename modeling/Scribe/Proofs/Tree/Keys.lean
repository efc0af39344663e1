import Scribe.Proofs.Tree.Rename

/-!
# The keys in a tree

A renaming matters only on the keys that occur: renamings that agree on them give the same tree. So a renaming that
keeps the keys of a tree apart can be replaced by one that keeps all keys apart.
-/

namespace Scribe

variable {α β : Type} {ρ σ : Renaming}

/-! ## Keys -/

/-- The key at the bottom of an identity. -/
def Ident.key : Ident → String
  | .given key => key
  | .renamed source | .promoted source | .inlined source _ | .entry source => source.key

theorem Ident.key_rekey (f : String → String) (i : Ident) : (i.rekey f).key = f i.key := by
  induction i with
  | given key => rfl
  | renamed source ih | promoted source ih | inlined source turn ih | entry source ih => exact ih

theorem Ident.rekey_congr {f g : String → String} {i : Ident} (h : f i.key = g i.key) : i.rekey f = i.rekey g := by
  induction i with
  | given key => exact congrArg Ident.given h
  | renamed source ih => exact congrArg Ident.renamed (ih h)
  | promoted source ih => exact congrArg Ident.promoted (ih h)
  | inlined source turn ih => exact congrArg (Ident.inlined · turn) (ih h)
  | entry source ih => exact congrArg Ident.entry (ih h)

/-- What becomes of the key of an entity, with its sort. -/
def Renaming.onKey (ρ : Renaming) (x : Entity × String) : Entity × String := (x.1, ρ.key x.1 x.2)

theorem Renaming.ident_congr {sort : Entity} {i : Ident} (h : ρ.onKey (sort, i.key) = σ.onKey (sort, i.key)) :
    ρ.ident sort i = σ.ident sort i :=
  Ident.rekey_congr (Prod.ext_iff.mp h).2

/-- The key of a variable. -/
def Variable.key (v : Variable) : Entity × String := (.var, v.id.key)

/-- The key of a label. -/
def Label.key (l : Label) : Entity × String := (.label, l.id.key)

/-- The keys of a set of variables and its members. -/
def VariableSet.keys (set : VariableSet) : List (Entity × String) :=
  (.varSet, set.id.key) :: set.members.map (·.key)

/-- The key of a host object. -/
def HostObject.key (o : HostObject) : Entity × String := (.object, o.id.key)

/-- The key of a method. -/
def Method.key (m : Method) : Entity × String := (.method, m.id.key)

/-- The keys of a value that a field holds. -/
def Hoisted.keys : Hoisted → List (Entity × String)
  | .object o => [o.key]
  | .method m => [m.key]
  | .varSet set => set.keys

/-- The keys of the entities of a layer itself. -/
def Node.keys : Node α → List (Entity × String)
  | .constant (.object o) _ => [o.key]
  | .var v => [v.key]
  | .lambda sig _ => (.lambda, sig.id.key) :: sig.params.map (·.key)
  | .call _ m _ => [m.key]
  | .block vars _ _ => vars.map (·.key)
  | .loop _ exit again => (exit.toList ++ again.toList).map (·.key)
  | .jump _ target _ _ => [target.key]
  | .label target _ => [target.key]
  | .tryCatch _ handlers _ _ _ => handlers.flatMap fun h => h.caught.toList.map (·.key)
  | .varSet set => set.keys
  | _ => []

/-- The keys in a tree. -/
def Tree.keys (t : Tree) : List (Entity × String) := t.subtrees.flatMap (·.node.keys)

/-! ## Renaming keys -/

theorem Variable.key_rename (v : Variable) : (v.rename ρ).key = ρ.onKey v.key :=
  Prod.ext rfl (Ident.key_rekey _ _)

theorem Label.key_rename (l : Label) : (l.rename ρ).key = ρ.onKey l.key :=
  Prod.ext rfl (Ident.key_rekey _ _)

theorem Variable.keys_rename (vs : List Variable) :
    (vs.map (·.rename ρ)).map (·.key) = (vs.map (·.key)).map ρ.onKey := by
  simp [Variable.key_rename]

theorem VariableSet.keys_rename (set : VariableSet) : (set.rename ρ).keys = set.keys.map ρ.onKey := by
  rw [keys, keys, List.map_cons, ← Variable.keys_rename]
  exact congrArg (· :: _) (Prod.ext rfl (Ident.key_rekey _ _))

theorem Hoisted.keys_rename (v : Hoisted) : (v.rename ρ).keys = v.keys.map ρ.onKey := by
  cases v with
  | object o | method m => exact congrArg ([·]) (Prod.ext rfl (Ident.key_rekey _ _))
  | varSet set => exact set.keys_rename

theorem Node.keys_map (f : α → β) (n : Node α) : (n.map f).keys = n.keys := by
  cases n
  case constant value ty => cases value <;> rfl
  case tryCatch => simp [Node.map, Node.keys, Handler.map, List.flatMap_map]
  all_goals rfl

theorem Node.keys_relabel (n : Node α) : (n.relabel ρ).keys = n.keys.map ρ.onKey := by
  cases n
  case constant value ty =>
    cases value
    case object o => exact (Hoisted.object o).keys_rename
    all_goals rfl
  case var v => exact congrArg ([·]) v.key_rename
  case lambda sig body =>
    rw [Node.relabel, Node.keys, Node.keys, List.map_cons, ← Variable.keys_rename]
    exact congrArg (· :: _) (Prod.ext rfl (Ident.key_rekey _ _))
  case call receiver m args => exact (Hoisted.method m).keys_rename
  case block vars body ty => exact Variable.keys_rename vars
  case loop body exit again => cases exit <;> cases again <;> simp [Node.keys, Node.relabel, Label.key_rename]
  case jump kind target value ty => exact congrArg ([·]) target.key_rename
  case label target value => exact congrArg ([·]) target.key_rename
  case tryCatch body handlers final fault ty =>
    simp [Node.keys, Node.relabel, Handler.relabel, List.flatMap_map, List.map_flatMap, Option.toList_map,
      Variable.key_rename, Function.comp_def]
  case varSet set => exact set.keys_rename
  all_goals rfl

theorem Tree.keys_mk (n : Node Tree) : (Tree.mk n).keys = n.keys ++ n.children.flatMap keys := by
  rw [keys, subtrees, List.flatMap_cons, parts_mk, List.flatMap_assoc]
  rfl

theorem Tree.keys_rename (t : Tree) : (t.rename ρ).keys = t.keys.map ρ.onKey := by
  induction t using Tree.induction with
  | step n ih =>
    rw [rename_mk, keys_mk, keys_mk, Node.keys_relabel, Node.keys_map, Node.children_relabel, Node.children_map,
      List.flatMap_map, List.map_append, List.map_flatMap, List.flatMap_def, List.flatMap_def,
      List.map_congr_left ih]

/-! ## Renamings that agree -/

theorem Variable.rename_congr {v : Variable} (h : ρ.onKey v.key = σ.onKey v.key) : v.rename ρ = v.rename σ := by
  rw [Variable.rename, Variable.rename, Renaming.ident_congr h]

theorem Variable.renameAll_congr {vs : List Variable} (h : ∀ x ∈ vs.map (·.key), ρ.onKey x = σ.onKey x) :
    vs.map (·.rename ρ) = vs.map (·.rename σ) :=
  List.map_congr_left fun v hv => rename_congr (h v.key (List.mem_map_of_mem hv))

theorem Label.rename_congr {l : Label} (h : ρ.onKey l.key = σ.onKey l.key) : l.rename ρ = l.rename σ := by
  rw [Label.rename, Label.rename, Renaming.ident_congr h]

theorem Hoisted.rename_congr {v : Hoisted} (h : ∀ x ∈ v.keys, ρ.onKey x = σ.onKey x) : v.rename ρ = v.rename σ := by
  cases v with
  | object o =>
    have hid := Renaming.ident_congr (h _ (List.mem_singleton_self _))
    simp only [Hoisted.rename, HostObject.rename, hid]
  | method m =>
    have hid := Renaming.ident_congr (h _ (List.mem_singleton_self _))
    simp only [Hoisted.rename, Method.rename, hid]
  | varSet set =>
    rw [keys, VariableSet.keys, List.forall_mem_cons] at h
    simp only [Hoisted.rename, VariableSet.rename, Renaming.ident_congr h.1, Variable.renameAll_congr h.2]

theorem Node.relabel_congr {n : Node α} (h : ∀ x ∈ n.keys, ρ.onKey x = σ.onKey x) : n.relabel ρ = n.relabel σ := by
  have hlabel : ∀ o : Option Label, (∀ x ∈ o.toList.map (·.key), ρ.onKey x = σ.onKey x) →
      o.map (·.rename ρ) = o.map (·.rename σ) := by
    intro o ho
    cases o with
    | none => rfl
    | some l => exact congrArg some (Label.rename_congr (ho _ (List.mem_singleton_self _)))
  -- nodes without keys are not renamed at all
  cases n
  case constant value ty =>
    cases value
    case object o =>
      have hid := Renaming.ident_congr (h _ (List.mem_singleton_self _))
      simp only [relabel, Value.rename, HostObject.rename, hid]
    all_goals rfl
  case var v => rw [relabel, relabel, Variable.rename_congr (h _ (List.mem_singleton_self _))]
  case lambda sig body =>
    rw [keys, List.forall_mem_cons] at h
    simp only [relabel, Signature.rename, Renaming.ident_congr h.1, Variable.renameAll_congr h.2]
  case call receiver m args =>
    have hid := Renaming.ident_congr (h _ (List.mem_singleton_self _))
    simp only [relabel, Method.rename, hid]
  case block vars body ty => rw [relabel, relabel, Variable.renameAll_congr h]
  case loop body exit again =>
    rw [keys, List.map_append, List.forall_mem_append] at h
    rw [relabel, relabel, hlabel exit h.1, hlabel again h.2]
  case jump kind target value ty => rw [relabel, relabel, Label.rename_congr (h _ (List.mem_singleton_self _))]
  case label target value => rw [relabel, relabel, Label.rename_congr (h _ (List.mem_singleton_self _))]
  case tryCatch body handlers final fault ty =>
    have hhandlers : handlers.map (·.relabel ρ) = handlers.map (·.relabel σ) := by
      refine List.map_congr_left fun k hk => ?_
      have hcaught : k.caught.map (·.rename ρ) = k.caught.map (·.rename σ) := by
        refine Option.map_congr fun v hv => Variable.rename_congr (h _ (List.mem_flatMap.mpr ⟨k, hk, ?_⟩))
        exact List.mem_map_of_mem (Option.mem_toList.mpr hv)
      rw [Handler.relabel, Handler.relabel, hcaught]
    rw [relabel, relabel, hhandlers]
  case varSet set =>
    rw [keys, VariableSet.keys, List.forall_mem_cons] at h
    simp only [relabel, VariableSet.rename, Renaming.ident_congr h.1, Variable.renameAll_congr h.2]
  all_goals rfl

/-- A renaming matters only on the keys that occur. -/
theorem Tree.rename_congr {t : Tree} (h : ∀ x ∈ t.keys, ρ.onKey x = σ.onKey x) : t.rename ρ = t.rename σ := by
  induction t using Tree.induction with
  | step n ih =>
    rw [keys_mk, List.forall_mem_append] at h
    have hchildren : n.map (rename ρ) = n.map (rename σ) :=
      Node.map_congr fun c hc => ih c hc fun x hx => h.2 x (List.mem_flatMap.mpr ⟨c, hc, hx⟩)
    rw [rename_mk, rename_mk, hchildren, Node.relabel_congr]
    rw [Node.keys_map]
    exact h.1

/-! ## Renamings that keep keys apart -/

namespace Renaming

/-- The keys stay apart, each sort for itself. -/
def InjectiveOn (ρ : Renaming) (keys : List (Entity × String)) : Prop :=
  ∀ x ∈ keys, ∀ y ∈ keys, ρ.onKey x = ρ.onKey y → x = y

/-- A text that is longer than the others. -/
def longer (texts : List String) : String := String.join texts ++ "x"

theorem length_lt_longer {texts : List String} {s : String} (h : s ∈ texts) : s.length < (longer texts).length := by
  have hjoin : s.length ≤ (String.join texts).length := by
    induction texts with
    | nil => cases h
    | cons t texts ih =>
      rw [String.join_cons, String.length_append]
      rcases List.mem_cons.mp h with rfl | h
      · exact Nat.le_add_right _ _
      · exact Nat.le_trans (ih h) (Nat.le_add_left _ _)
  rw [longer, String.length_append]
  exact Nat.lt_succ_of_le hjoin

/-- The renaming on some keys; the other ones are moved out of the way. -/
def extend (ρ : Renaming) (keys : List (Entity × String)) : Renaming where
  key sort k := if (sort, k) ∈ keys then ρ.key sort k else longer (keys.map fun x => ρ.key x.1 x.2) ++ k

theorem onKey_extend {keys : List (Entity × String)} {x : Entity × String} (h : x ∈ keys) :
    (ρ.extend keys).onKey x = ρ.onKey x := by
  obtain ⟨sort, k⟩ := x
  simp [onKey, extend, h]

theorem extend_injective {keys : List (Entity × String)} (h : ρ.InjectiveOn keys) : (ρ.extend keys).Injective := by
  have hfresh : ∀ {sort k} (l : String), (sort, k) ∈ keys →
      ρ.key sort k ≠ longer (keys.map fun x => ρ.key x.1 x.2) ++ l := by
    intro sort k l hk heq
    have hlt := length_lt_longer (List.mem_map_of_mem (f := fun x => ρ.key x.1 x.2) hk)
    rw [heq, String.length_append] at hlt
    omega
  intro sort k l hkl
  simp only [extend] at hkl
  by_cases hk : (sort, k) ∈ keys <;> by_cases hl : (sort, l) ∈ keys <;> simp only [hk, hl, if_true, if_false] at hkl
  · exact (Prod.ext_iff.mp (h _ hk _ hl (Prod.ext rfl hkl))).2
  · exact absurd hkl (hfresh l hk)
  · exact absurd hkl.symm (hfresh k hl)
  · exact String.append_right_inj _ |>.mp hkl

end Renaming

end Scribe
