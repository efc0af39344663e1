import Scribe.Tree.Basic

/-!
# Laws of images

Layers are mapped like lists: image by image, and depending on the children only.
-/

namespace Scribe

variable {α β : Type}

section MapMap

variable {γ : Type} (f : α → β) (g : β → γ)

mutual

theorem Binding.map_map : ∀ b : Binding α, (b.map f).map g = b.map (g ∘ f)
  | .assign _ _ => rfl
  | .elements _ _ => by simp [Binding.map, Function.comp_def]
  | .nested _ bs => by rw [Binding.map, Binding.map, mapAll_mapAll bs, Binding.map]

theorem Binding.mapAll_mapAll : ∀ bs : List (Binding α), mapAll g (mapAll f bs) = mapAll (g ∘ f) bs
  | [] => rfl
  | b :: bs => by rw [mapAll, mapAll, Binding.map_map b, mapAll_mapAll bs, mapAll]

end

theorem Node.map_map (n : Node α) : (n.map f).map g = n.map (g ∘ f) := by
  cases n <;> simp [Node.map, Case.map, Handler.map, Function.comp_def, Binding.mapAll_mapAll]

end MapMap

section MapCongr

variable {f g : α → β}

theorem mapOption_congr {o : Option α} (h : ∀ c ∈ o.toList, f c = g c) : o.map f = o.map g :=
  Option.map_congr fun c hc => h c (Option.mem_toList.mpr hc)

theorem mapLists_congr {css : List (List α)} (h : ∀ c ∈ css.flatten, f c = g c) :
    css.map (List.map f) = css.map (List.map g) :=
  List.map_congr_left fun cs hcs =>
    List.map_congr_left fun c hc => h c (List.mem_flatten.mpr ⟨cs, hcs, hc⟩)

mutual

theorem Binding.map_congr : ∀ b : Binding α, (∀ c ∈ b.children, f c = g c) → b.map f = b.map g
  | .assign m e, h => by rw [Binding.map, Binding.map, h e (List.mem_singleton_self _)]
  | .elements m inits, h => by rw [Binding.map, Binding.map, mapLists_congr h]
  | .nested m bs, h => by rw [Binding.map, Binding.map, mapAll_congr bs h]

theorem Binding.mapAll_congr : ∀ bs : List (Binding α), (∀ c ∈ childrenAll bs, f c = g c) →
    mapAll f bs = mapAll g bs
  | [], _ => rfl
  | b :: bs, h => by
    rw [childrenAll, List.forall_mem_append] at h
    rw [mapAll, mapAll, Binding.map_congr b h.1, mapAll_congr bs h.2]

end

theorem Case.map_congr {k : Case α} (h : ∀ c ∈ k.tests ++ [k.body], f c = g c) : k.map f = k.map g := by
  rw [List.forall_mem_append] at h
  rw [Case.map, Case.map, List.map_congr_left h.1, h.2 _ (List.mem_singleton_self _)]

theorem Handler.map_congr {k : Handler α} (h : ∀ c ∈ k.filter.toList ++ [k.body], f c = g c) : k.map f = k.map g := by
  rw [List.forall_mem_append] at h
  rw [Handler.map, Handler.map, mapOption_congr h.1, h.2 _ (List.mem_singleton_self _)]

/-- The image of a layer depends on the images of its children only. -/
theorem Node.map_congr {n : Node α} (h : ∀ c ∈ n.children, f c = g c) : n.map f = n.map g := by
  cases n <;>
    simp only [Node.children, List.forall_mem_cons, List.forall_mem_append, List.not_mem_nil, false_implies,
      implies_true, and_true] at h
  case binary op l r ty => rw [Node.map, Node.map, h.1, h.2]
  case unary op e ty => rw [Node.map, Node.map, mapOption_congr h]
  case lambda sig body => rw [Node.map, Node.map, h]
  case invoke target args ty => rw [Node.map, Node.map, h.1, List.map_congr_left h.2]
  case call receiver m args => rw [Node.map, Node.map, mapOption_congr h.1, List.map_congr_left h.2]
  case new ty args => rw [Node.map, Node.map, List.map_congr_left h]
  case newArray form ty items => rw [Node.map, Node.map, List.map_congr_left h]
  case member receiver m => rw [Node.map, Node.map, mapOption_congr h]
  case memberInit ty args bs =>
    rw [Node.map, Node.map, List.map_congr_left h.1, Binding.mapAll_congr bs h.2]
  case listInit ty args inits =>
    rw [Node.map, Node.map, List.map_congr_left h.1, mapLists_congr h.2]
  case index receiver indexer args ty => rw [Node.map, Node.map, h.1, List.map_congr_left h.2]
  case conditional test ifTrue ifFalse ty => rw [Node.map, Node.map, h.1, h.2.1, h.2.2]
  case block vars body ty => rw [Node.map, Node.map, List.map_congr_left h]
  case loop body exit again => rw [Node.map, Node.map, h]
  case jump kind target value ty => rw [Node.map, Node.map, mapOption_congr h]
  case label target value => rw [Node.map, Node.map, mapOption_congr h]
  case switch value cases fallback ty =>
    rw [Node.map, Node.map, h.1.1, mapOption_congr h.2, List.map_congr_left fun k hk => ?_]
    exact Case.map_congr fun c hc => h.1.2 c (List.mem_flatMap.mpr ⟨k, hk, hc⟩)
  case tryCatch body handlers final fault ty =>
    rw [Node.map, Node.map, h.1.1.1, mapOption_congr h.1.2, mapOption_congr h.2,
      List.map_congr_left fun k hk => ?_]
    exact Handler.map_congr fun c hc => h.1.1.2 c (List.mem_flatMap.mpr ⟨k, hk, hc⟩)
  case typeTest test operand ty => rw [Node.map, Node.map, h]
  case dynamic op args ty => rw [Node.map, Node.map, List.map_congr_left h]
  all_goals rfl

end MapCongr

section MapId

mutual

theorem Binding.map_id : ∀ b : Binding α, b.map id = b
  | .assign _ _ => rfl
  | .elements _ _ => by simp [Binding.map]
  | .nested _ bs => by rw [Binding.map, Binding.mapAll_id bs]

theorem Binding.mapAll_id : ∀ bs : List (Binding α), mapAll id bs = bs
  | [] => rfl
  | b :: bs => by rw [mapAll, Binding.map_id b, Binding.mapAll_id bs]

end

theorem Node.map_id (n : Node α) : n.map id = n := by
  have hcase : (Case.map id : Case α → Case α) = id := by
    funext k
    simp [Case.map]
  have hhandler : (Handler.map id : Handler α → Handler α) = id := by
    funext k
    simp [Handler.map]
  cases n <;> simp [Node.map, hcase, hhandler, Binding.mapAll_id]

/-- Going to other children and back leaves a layer as it was. -/
theorem Node.map_undo {f : α → β} {g : β → α} (h : ∀ a, g (f a) = a) (n : Node α) : (n.map f).map g = n := by
  rw [Node.map_map, show g ∘ f = id from funext h, Node.map_id]

end MapId

end Scribe
