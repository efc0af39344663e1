import Scribe.Proofs.Writing.Numbers

/-!
# Requests for names

Names are asked for one after the other: for variables, labels, lambdas and values, and for no entity at all
when only a new name is needed. `Ledger.answerAll` answers a list of requests, in whatever order they come.

A request that is answered with a number gets the name of its entity, and no other entity gets that name,
whatever was asked for before and in between. The one condition is that no stem ends in a digit, so that the
number can be read off the name: then two names are the same only when stem and number are.

The invariant `Ledger.Accounts` is about the answers so far. A step either recalls a name, and changes nothing,
or it chooses one that is larger than all numbers behind its stem (`Request.answer_cases`).
-/

namespace Scribe

/-! ## Stems and numbers -/

namespace Identifier

/-- Whether the last character is a digit. -/
def endsInDigit (s : String) : Bool := s.toList.getLast?.any Char.isDigit

theorem endsInDigit_of_digitsBehind {s t : String} (h : digitsBehind s t = true) : endsInDigit t = true := by
  simp only [digitsBehind, Bool.and_eq_true, Bool.not_eq_true', List.isEmpty_eq_false_iff, List.all_eq_true,
    List.isPrefixOf_iff_prefix] at h
  obtain ⟨⟨⟨ds, hds⟩, hne⟩, hdigits⟩ := h
  rw [← hds, List.drop_left] at hne hdigits
  rw [endsInDigit, ← hds, List.getLast?_append, List.getLast?_eq_some_getLast hne, Option.some_or]
  exact hdigits _ (List.getLast_mem hne)

/-- Numbered names with stems that do not end in a digit are the same only if stems and numbers are. -/
theorem numbered_eq_iff {s t : String} {m n : Nat} (hs : endsInDigit s = false) (ht : endsInDigit t = false) :
    s ++ toString m = t ++ toString n ↔ s = t ∧ m = n := by
  constructor
  · intro h
    rcases numbered_eq h with heq | hdigits | hdigits
    · exact heq
    · cases ht.symm.trans (endsInDigit_of_digitsBehind hdigits)
    · cases hs.symm.trans (endsInDigit_of_digitsBehind hdigits)
  · rintro ⟨rfl, rfl⟩
    rfl

end Identifier

/-! ## Requests -/

/-- What has one name. -/
inductive Naming.Key where
  | ofVariable (id : Ident)
  | ofLabel (id : Ident)
  | ofLambda (id : Ident)
  | ofValue (key : Hoisted.Key)
deriving DecidableEq

/-- The names that were given out, and the fields. -/
structure Ledger where
  naming : Naming := {}
  fields : List Field := []

/-- The name that the ledger has for an entity. -/
def Ledger.recall (s : Ledger) : Naming.Key → Option String
  | .ofVariable id => s.naming.variableNames.lookup id
  | .ofLabel id => s.naming.labelNames.lookup id
  | .ofLambda id => s.naming.methodNames.lookup id
  | .ofValue key => (s.fields.find? (·.value.key == key)).map (·.name)

/-- What a name is asked for. -/
inductive Request where
  | ofVariable (v : Variable)
  | ofLabel (l : Label)
  | ofLambda (sig : Signature)
  /-- A value without a literal, and with it a field. -/
  | ofValue (value : Hoisted) (ty : Ty) (hint : String)
  /-- Nothing; a new name is made each time. -/
  | fresh (stem : String)

namespace Request

/-- The entity that gets the name. -/
def key? : Request → Option Naming.Key
  | .ofVariable v => some (.ofVariable v.id)
  | .ofLabel l => some (.ofLabel l.id)
  | .ofLambda sig => some (.ofLambda sig.id)
  | .ofValue value _ _ => some (.ofValue value.key)
  | .fresh _ => none

/-- The value that gets a field. -/
def value? : Request → Option Hoisted.Key
  | .ofValue value _ _ => some value.key
  | _ => none

/-- The name that the entity brings along. -/
def own : Request → Option String
  | .ofVariable v => v.name
  | .ofLabel l => l.name
  | .ofLambda sig => sig.name
  | _ => none

/-- What stands in front of the number. -/
def stem : Request → String
  | .ofVariable _ => "p"
  | .ofLabel _ => "label"
  | .ofLambda _ => "func"
  | .ofValue _ _ hint => Identifier.stem hint
  | .fresh stem => stem

/-- Answers a request. -/
def answer (r : Request) (s : Ledger) : String × Ledger :=
  match r with
  | .ofVariable v =>
    let (name, naming) := s.naming.nameVariable v
    (name, { s with naming })
  | .ofLabel l =>
    let (name, naming) := s.naming.nameLabel l
    (name, { s with naming })
  | .ofLambda sig =>
    let (name, naming) := s.naming.nameLambda sig
    (name, { s with naming })
  | .ofValue value ty hint =>
    let (name, fields, naming) := Field.request s.fields s.naming value ty hint
    (name, { naming, fields })
  | .fresh stem =>
    let (name, naming) := s.naming.fresh stem
    (name, { s with naming })

/-- Requests for one entity bring along the same name. -/
def OneName (rs : List Request) : Prop := ∀ r ∈ rs, ∀ r' ∈ rs, r.key? = r'.key? → r.own = r'.own

instance (rs : List Request) : Decidable (OneName rs) :=
  inferInstanceAs (Decidable (∀ r ∈ rs, ∀ r' ∈ rs, r.key? = r'.key? → r.own = r'.own))

theorem value?_eq_some_iff {r : Request} {key : Hoisted.Key} : r.value? = some key ↔ r.key? = some (.ofValue key) := by
  cases r <;> simp [value?, key?]

/-- A name that is noted in front of the others. -/
theorem lookup_noted (i j : Ident) (name : String) (names : List (Ident × String)) :
    ((i, name) :: names).lookup j = if i = j then some name else names.lookup j := by
  by_cases h : i = j
  · rw [if_pos h, h, List.lookup_cons_self]
  · rw [if_neg h, List.lookup_cons, beq_false_of_ne (Ne.symm h)]

/-- A field that is added behind the others. -/
theorem find?_added (fields : List Field) (field : Field) (key : Hoisted.Key)
    (hnew : ∀ f ∈ fields, f.value.key ≠ field.value.key) :
    ((fields ++ [field]).find? (·.value.key == key)).map (·.name) =
      if field.value.key = key then some field.name else (fields.find? (·.value.key == key)).map (·.name) := by
  by_cases h : field.value.key = key
  · have hnone : fields.find? (·.value.key == key) = none := by
      refine List.find?_eq_none.mpr fun f hf => ?_
      rw [beq_iff_eq, ← h]
      exact hnew f hf
    simp [hnone, h]
  · simp [h]

/-- A request is answered with the name that the ledger has for its entity, and nothing changes; or there is none, and
the name that is chosen is noted. -/
theorem answer_cases (r : Request) (s : Ledger) :
    (∃ name, r.key?.bind s.recall = some name ∧ r.answer s = (name, s)) ∨
    (r.key?.bind s.recall = none ∧ (r.answer s).1 = (s.naming.choose r.own r.stem).1 ∧
      (r.answer s).2.naming.counters = (s.naming.choose r.own r.stem).2.counters ∧
      (r.answer s).2.fields.map (·.value.key) = s.fields.map (·.value.key) ++ r.value?.toList ∧
      ∀ key, (r.answer s).2.recall key = if r.key? = some key then some (r.answer s).1 else s.recall key) := by
  -- each kind of entity has a list of its own, in which its name is looked up first
  cases r with
  | ofVariable v =>
    cases h : s.naming.variableNames.lookup v.id with
    | some name => exact Or.inl ⟨name, h, by simp only [answer, Naming.nameVariable, h]⟩
    | none =>
      refine Or.inr ⟨h, ?_⟩
      simp only [answer, Naming.nameVariable, h]
      refine ⟨rfl, rfl, (List.append_nil _).symm, fun key => ?_⟩
      cases key <;> cases v.name <;> simp [Ledger.recall, Naming.choose, Naming.fresh, key?, lookup_noted]
  | ofLabel l =>
    cases h : s.naming.labelNames.lookup l.id with
    | some name => exact Or.inl ⟨name, h, by simp only [answer, Naming.nameLabel, h]⟩
    | none =>
      refine Or.inr ⟨h, ?_⟩
      simp only [answer, Naming.nameLabel, h]
      refine ⟨rfl, rfl, (List.append_nil _).symm, fun key => ?_⟩
      cases key <;> cases l.name <;> simp [Ledger.recall, Naming.choose, Naming.fresh, key?, lookup_noted]
  | ofLambda sig =>
    cases h : s.naming.methodNames.lookup sig.id with
    | some name => exact Or.inl ⟨name, h, by simp only [answer, Naming.nameLambda, h]⟩
    | none =>
      refine Or.inr ⟨h, ?_⟩
      simp only [answer, Naming.nameLambda, h]
      refine ⟨rfl, rfl, (List.append_nil _).symm, fun key => ?_⟩
      cases key <;> cases sig.name <;> simp [Ledger.recall, Naming.choose, Naming.fresh, key?, lookup_noted]
  | ofValue value ty hint =>
    cases h : s.fields.find? (·.value.key == value.key) with
    | some f =>
      refine Or.inl ⟨f.name, ?_, by simp only [answer, Field.request, h]⟩
      exact congrArg (Option.map Field.name) h
    | none =>
      have hnew : ∀ f ∈ s.fields, f.value.key ≠ value.key := by simpa using h
      refine Or.inr ⟨congrArg (Option.map Field.name) h, ?_⟩
      simp only [answer, Field.request, h]
      refine ⟨rfl, rfl, List.map_append, fun key => ?_⟩
      cases key with
      | ofValue key =>
        simp only [Ledger.recall, key?, Option.some.injEq, Naming.Key.ofValue.injEq]
        exact find?_added s.fields _ key hnew
      | _ => rfl
  | fresh stem =>
    refine Or.inr ⟨rfl, rfl, rfl, (List.append_nil _).symm, fun key => ?_⟩
    cases key <;> rfl

end Request

/-! ## Answers -/

/-- A request with the number of the call and the name that it was answered with. -/
structure Answer where
  call : Nat
  request : Request
  name : String

/-- What a name stands for: an entity, or the call that made it. -/
inductive Answer.Source where
  | entity (key : Naming.Key)
  | call (number : Nat)
deriving DecidableEq

/-- What the name stands for. -/
def Answer.source (a : Answer) : Answer.Source :=
  match a.request.key? with
  | some key => .entity key
  | none => .call a.call

namespace Ledger

/-- Answers requests one after the other; the calls are numbered from `call` on. -/
def answerAll (s : Ledger) (call : Nat) : List Request → List Answer × Ledger
  | [] => ([], s)
  | r :: rs =>
    let (name, s) := r.answer s
    let (answers, s) := s.answerAll (call + 1) rs
    (⟨call, r, name⟩ :: answers, s)

/-- What the ledger says of the answers so far, before the call with the given number. -/
structure Accounts (answers : List Answer) (s : Ledger) (call : Nat) : Prop where
  earlier : ∀ a ∈ answers, a.call < call
  /-- There was one answer to each call. -/
  once : ∀ a ∈ answers, ∀ b ∈ answers, a.call = b.call → a = b
  recalled : ∀ a ∈ answers, ∀ key, a.request.key? = some key → s.recall key = some a.name
  known : ∀ key name, s.recall key = some name → ∃ a ∈ answers, a.request.key? = some key ∧ a.name = name
  numbered : ∀ a ∈ answers, a.request.own = none →
    ∃ stem, Identifier.endsInDigit stem = false ∧ ∃ k ≤ s.naming.lastNumber stem, a.name = stem ++ toString k
  apart : ∀ a ∈ answers, ∀ b ∈ answers, a.request.own = none → b.request.own = none → a.name = b.name →
    a.source = b.source
  fields : s.fields.map (·.value.key) = (answers.filterMap (·.request.value?)).eraseDups

variable {answers : List Answer} {s : Ledger} {call : Nat} {r : Request}

theorem accounts_empty (call : Nat) : Accounts [] {} call := by
  have hnone : ∀ {P : Answer → Prop}, ∀ a ∈ [], P a := List.forall_mem_nil _
  refine ⟨hnone, hnone, hnone, fun key name h => ?_, hnone, hnone, rfl⟩
  cases key <;> cases h

/-- A name that is recalled was given to the entity before. -/
theorem Accounts.of_recalled (h : Accounts answers s call) {name : String} (hname : r.key?.bind s.recall = some name)
    (hone : ∀ a ∈ answers, a.request.key? = r.key? → a.request.own = r.own) :
    ∃ a ∈ answers, a.source = (⟨call, r, name⟩ : Answer).source ∧ a.name = name ∧ a.request.own = r.own ∧
      a.request.key? = r.key? := by
  obtain ⟨key, hkey, hrecall⟩ := Option.bind_eq_some_iff.mp hname
  obtain ⟨a, ha, hakey, haname⟩ := h.known key name hrecall
  refine ⟨a, ha, ?_, haname, hone a ha (hakey.trans hkey.symm), hakey.trans hkey.symm⟩
  simp only [Answer.source, hakey, hkey]

/-- A value that has been asked for needs no other field. -/
theorem eraseDups_append_known {keys : List Hoisted.Key} {o : Option Hoisted.Key} (h : ∀ key ∈ o, key ∈ keys) :
    (keys ++ o.toList).eraseDups = keys.eraseDups := by
  cases o with
  | none => rw [Option.toList_none, List.append_nil]
  | some key =>
    rw [List.eraseDups_append]
    simp [List.removeAll, h key rfl]

/-- The field for a value that has not been asked for comes behind the others. -/
theorem eraseDups_append_new {keys : List Hoisted.Key} {o : Option Hoisted.Key} (h : ∀ key ∈ o, key ∉ keys) :
    (keys ++ o.toList).eraseDups = keys.eraseDups ++ o.toList := by
  cases o with
  | none => rw [Option.toList_none, List.append_nil, List.append_nil]
  | some key =>
    have hnew : ([key].removeAll keys).eraseDups = [key] := by simp [List.removeAll, h key rfl, List.eraseDups_cons]
    rw [List.eraseDups_append, Option.toList_some, hnew]

theorem values_append (answers : List Answer) (a : Answer) :
    (answers ++ [a]).filterMap (·.request.value?) =
      answers.filterMap (·.request.value?) ++ a.request.value?.toList := by
  rw [List.filterMap_append]
  cases h : a.request.value? <;> simp [h]

/-- A new answer comes with a number of its own. -/
theorem Accounts.calls (h : Accounts answers s call) (name : String) :
    (∀ a ∈ answers ++ [⟨call, r, name⟩], a.call < call + 1) ∧
      ∀ a ∈ answers ++ [⟨call, r, name⟩], ∀ b ∈ answers ++ [⟨call, r, name⟩], a.call = b.call → a = b := by
  refine ⟨fun a ha => ?_, fun a ha b hb hcall => ?_⟩
  · rcases List.mem_append.mp ha with ha | ha
    · exact Nat.lt_succ_of_lt (h.earlier a ha)
    · rw [List.mem_singleton.mp ha]
      exact Nat.lt_succ_self call
  · rcases List.mem_append.mp ha with ha | ha <;> rcases List.mem_append.mp hb with hb | hb
    · exact h.once a ha b hb hcall
    · rw [List.mem_singleton.mp hb] at hcall
      exact absurd hcall (Nat.ne_of_lt (h.earlier a ha))
    · rw [List.mem_singleton.mp ha] at hcall
      exact absurd hcall.symm (Nat.ne_of_lt (h.earlier b hb))
    · rw [List.mem_singleton.mp ha, List.mem_singleton.mp hb]

theorem Accounts.recall (h : Accounts answers s call) {name : String} (hname : r.key?.bind s.recall = some name)
    (hone : ∀ a ∈ answers, a.request.key? = r.key? → a.request.own = r.own) :
    Accounts (answers ++ [⟨call, r, name⟩]) s (call + 1) := by
  obtain ⟨first, hfirst, hsource, hfname, hown, hkey⟩ := h.of_recalled hname hone
  -- what is true of the first answer for the entity is true of this one
  have hcases : ∀ a ∈ answers ++ [⟨call, r, name⟩], ∃ b ∈ answers, b.source = a.source ∧ b.name = a.name ∧
      b.request.own = a.request.own ∧ b.request.key? = a.request.key? := by
    intro a ha
    rcases List.mem_append.mp ha with ha | ha
    · exact ⟨a, ha, rfl, rfl, rfl, rfl⟩
    · rw [List.mem_singleton.mp ha]
      exact ⟨first, hfirst, hsource, hfname, hown, hkey⟩
  refine ⟨(h.calls name).1, (h.calls name).2, fun a ha key hakey => ?_, fun key name hrecall => ?_,
    fun a ha haown => ?_, fun a ha b hb haown hbown heq => ?_, ?_⟩
  · obtain ⟨b, hb, -, hbname, -, hbkey⟩ := hcases a ha
    rw [h.recalled b hb key (hbkey.trans hakey), hbname]
  · obtain ⟨a, ha, hakey, haname⟩ := h.known key name hrecall
    exact ⟨a, List.mem_append_left _ ha, hakey, haname⟩
  · obtain ⟨b, hb, -, hbname, hbown, -⟩ := hcases a ha
    rw [← hbname]
    exact h.numbered b hb (hbown.trans haown)
  · obtain ⟨a', ha', hasource, haname, haown', -⟩ := hcases a ha
    obtain ⟨b', hb', hbsource, hbname, hbown', -⟩ := hcases b hb
    rw [← hasource, ← hbsource]
    exact h.apart a' ha' b' hb' (haown'.trans haown) (hbown'.trans hbown) (by rw [haname, hbname, heq])
  · rw [values_append, eraseDups_append_known ?_, h.fields]
    intro key hvalue
    refine List.mem_filterMap.mpr ⟨first, hfirst, ?_⟩
    rw [Request.value?_eq_some_iff, hkey]
    exact Request.value?_eq_some_iff.mp hvalue

/-- The number of a new name is larger than all numbers behind its stem. -/
theorem Accounts.name_new (h : Accounts answers s call) (hopen : Identifier.endsInDigit r.stem = false) {a : Answer}
    (ha : a ∈ answers) (hown : a.request.own = none) : a.name ≠ (s.naming.fresh r.stem).1 := by
  obtain ⟨stem, hstem, k, hk, hname⟩ := h.numbered a ha hown
  intro heq
  have hnumber : stem ++ toString k = r.stem ++ toString (s.naming.lastNumber r.stem + 1) := hname.symm.trans heq
  obtain ⟨rfl, rfl⟩ := (Identifier.numbered_eq_iff hstem hopen).mp hnumber
  omega

theorem Accounts.choose (h : Accounts answers s call) (hopen : Identifier.endsInDigit r.stem = false)
    (hnone : r.key?.bind s.recall = none) {s' : Ledger} {name : String}
    (hname : name = (s.naming.choose r.own r.stem).1)
    (hcounters : s'.naming.counters = (s.naming.choose r.own r.stem).2.counters)
    (hfields : s'.fields.map (·.value.key) = s.fields.map (·.value.key) ++ r.value?.toList)
    (hrecall : ∀ key, s'.recall key = if r.key? = some key then some name else s.recall key) :
    Accounts (answers ++ [⟨call, r, name⟩]) s' (call + 1) := by
  have hlast : ∀ stem, s'.naming.lastNumber stem = (s.naming.choose r.own r.stem).2.lastNumber stem :=
    fun stem => by simp only [Naming.lastNumber, hcounters]
  have hgrows : ∀ stem, s.naming.lastNumber stem ≤ s'.naming.lastNumber stem := by
    intro stem
    rw [hlast]
    exact s.naming.grows_choose r.own r.stem stem
  have hnew : ∀ key, r.key? = some key → s.recall key = none := by
    intro key hkey
    rwa [hkey, Option.bind_some] at hnone
  have hfresh : r.own = none → name = (s.naming.fresh r.stem).1 := by
    intro hown
    rw [hname, hown]
    rfl
  refine ⟨(h.calls name).1, (h.calls name).2, fun a ha key hakey => ?_, fun key name' hkey => ?_, fun a ha haown => ?_,
    fun a ha b hb haown hbown heq => ?_, ?_⟩
  · rw [hrecall]
    rcases List.mem_append.mp ha with ha | ha
    · have hold := h.recalled a ha key hakey
      rw [if_neg, hold]
      intro hkey
      rw [hnew key hkey] at hold
      cases hold
    · obtain rfl := List.mem_singleton.mp ha
      rw [if_pos hakey]
  · rw [hrecall] at hkey
    split at hkey
    · next hrkey => exact ⟨_, List.mem_append_right _ (List.mem_singleton_self _), hrkey, Option.some.inj hkey⟩
    · obtain ⟨a, ha, hakey, haname⟩ := h.known key name' hkey
      exact ⟨a, List.mem_append_left _ ha, hakey, haname⟩
  · rcases List.mem_append.mp ha with ha | ha
    · obtain ⟨stem, hstem, k, hk, haname⟩ := h.numbered a ha haown
      exact ⟨stem, hstem, k, Nat.le_trans hk (hgrows stem), haname⟩
    · obtain rfl := List.mem_singleton.mp ha
      refine ⟨r.stem, hopen, s.naming.lastNumber r.stem + 1, ?_, hfresh haown⟩
      rw [hlast, show r.own = none from haown]
      exact Nat.le_of_eq (s.naming.lastNumber_fresh r.stem).symm
  · rcases List.mem_append.mp ha with ha | ha <;> rcases List.mem_append.mp hb with hb | hb
    · exact h.apart a ha b hb haown hbown heq
    · obtain rfl := List.mem_singleton.mp hb
      exact absurd (heq.trans (hfresh hbown)) (h.name_new hopen ha haown)
    · obtain rfl := List.mem_singleton.mp ha
      exact absurd (heq.symm.trans (hfresh haown)) (h.name_new hopen hb hbown)
    · rw [List.mem_singleton.mp ha, List.mem_singleton.mp hb]
  · rw [values_append, hfields, h.fields]
    refine (eraseDups_append_new fun key hvalue hmem => ?_).symm
    -- a value that was asked for has a name
    obtain ⟨a, ha, havalue⟩ := List.mem_filterMap.mp hmem
    have hold := h.recalled a ha _ (Request.value?_eq_some_iff.mp havalue)
    rw [hnew _ (Request.value?_eq_some_iff.mp hvalue)] at hold
    cases hold

theorem Accounts.step (h : Accounts answers s call) (hopen : Identifier.endsInDigit r.stem = false)
    (hone : ∀ a ∈ answers, a.request.key? = r.key? → a.request.own = r.own) :
    Accounts (answers ++ [⟨call, r, (r.answer s).1⟩]) (r.answer s).2 (call + 1) := by
  rcases r.answer_cases s with ⟨name, hname, hr⟩ | ⟨hnone, hname, hcounters, hfields, hrecall⟩
  · rw [hr]
    exact h.recall hname hone
  · exact h.choose hopen hnone hname hcounters hfields hrecall

theorem Accounts.run {all rs : List Request} (h : Accounts answers s call) (hin : ∀ a ∈ answers, a.request ∈ all)
    (hrs : ∀ r ∈ rs, r ∈ all) (hopen : ∀ r ∈ rs, Identifier.endsInDigit r.stem = false) (hone : Request.OneName all) :
    Accounts (answers ++ (s.answerAll call rs).1) (s.answerAll call rs).2 (call + rs.length) := by
  induction rs generalizing answers s call with
  | nil => rwa [answerAll, List.append_nil, List.length_nil, Nat.add_zero]
  | cons r rs ih =>
    rw [List.forall_mem_cons] at hrs hopen
    have hstep := h.step hopen.1 fun a ha hkey => hone _ (hin a ha) r hrs.1 hkey
    have hin' : ∀ a ∈ answers ++ [⟨call, r, (r.answer s).1⟩], a.request ∈ all := by
      rw [List.forall_mem_append, List.forall_mem_singleton]
      exact ⟨hin, hrs.1⟩
    have hrest := ih hstep hin' hrs.2 hopen.2
    rw [List.append_assoc, Nat.add_assoc, Nat.add_comm 1] at hrest
    exact hrest

theorem answerAll_requests (s : Ledger) (call : Nat) (rs : List Request) :
    (s.answerAll call rs).1.map (·.request) = rs ∧
      (s.answerAll call rs).1.map (·.call) = List.range' call rs.length := by
  induction rs generalizing s call with
  | nil => exact ⟨rfl, rfl⟩
  | cons r rs ih =>
    obtain ⟨hrequests, hcalls⟩ := ih (r.answer s).2 (call + 1)
    exact ⟨congrArg (r :: ·) hrequests, congrArg (call :: ·) hcalls⟩

/-- Answers for the same source have the same name. -/
theorem Accounts.name_eq (h : Accounts answers s call) {a b : Answer} (ha : a ∈ answers) (hb : b ∈ answers)
    (hsource : a.source = b.source) : a.name = b.name := by
  unfold Answer.source at hsource
  cases hakey : a.request.key? with
  | some key =>
    cases hbkey : b.request.key? with
    | some key' =>
      simp only [hakey, hbkey, Answer.Source.entity.injEq] at hsource
      subst hsource
      exact Option.some.inj ((h.recalled a ha key hakey).symm.trans (h.recalled b hb key hbkey))
    | none => simp only [hakey, hbkey, reduceCtorEq] at hsource
  | none =>
    cases hbkey : b.request.key? with
    | some key' => simp only [hakey, hbkey, reduceCtorEq] at hsource
    | none =>
      simp only [hakey, hbkey, Answer.Source.call.injEq] at hsource
      rw [h.once a ha b hb hsource]

/-- The answers for values are the names of their fields. -/
theorem Accounts.exists_field (h : Accounts answers s call) {a : Answer} (ha : a ∈ answers) {key : Hoisted.Key}
    (hvalue : a.request.value? = some key) : ∃ f ∈ s.fields, f.value.key = key ∧ f.name = a.name := by
  have hrecall := h.recalled a ha _ (Request.value?_eq_some_iff.mp hvalue)
  obtain ⟨f, hfind, hname⟩ := Option.map_eq_some_iff.mp hrecall
  have hkey := List.find?_some hfind
  exact ⟨f, List.mem_of_find?_eq_some hfind, beq_iff_eq.mp hkey, hname⟩

end Ledger

/-! ## The names of a run -/

/-- How requests are answered: call by call, with the same name for the same entity and another name for another one,
as far as the names are numbered, and with one field for each value, in the order in which the values were first
asked for. -/
structure Request.Answered (rs : List Request) (answers : List Answer) (fields : List Field) : Prop where
  requests : answers.map (·.request) = rs
  calls : answers.map (·.call) = List.range rs.length
  names : ∀ a ∈ answers, ∀ b ∈ answers, a.request.own = none → b.request.own = none →
    (a.name = b.name ↔ a.source = b.source)
  values : fields.map (·.value.key) = (rs.filterMap (·.value?)).eraseDups
  fieldNames : ∀ a ∈ answers, ∀ key, a.request.value? = some key → ∃ f ∈ fields, f.value.key = key ∧ f.name = a.name

/-- **Numbered names are kept and never clash**, in whatever order names are asked for, as long as no stem ends in a
digit and every entity has one name of its own or none. -/
theorem Ledger.answerAll_answered (rs : List Request) (hopen : ∀ r ∈ rs, Identifier.endsInDigit r.stem = false)
    (hone : Request.OneName rs) :
    Request.Answered rs (answerAll {} 0 rs).1 (answerAll {} 0 rs).2.fields := by
  have h : Accounts (answerAll {} 0 rs).1 (answerAll {} 0 rs).2 (0 + rs.length) :=
    (accounts_empty 0).run nofun (fun _ hr => hr) hopen hone
  obtain ⟨hrequests, hcalls⟩ := answerAll_requests {} 0 rs
  refine ⟨hrequests, ?_, ?_, ?_, ?_⟩
  · rw [hcalls, List.range_eq_range']
  · intro a ha b hb haown hbown
    exact ⟨h.apart a ha b hb haown hbown, h.name_eq ha hb⟩
  · have hvalues : (answerAll {} 0 rs).1.filterMap (·.request.value?) = rs.filterMap Request.value? := by
      rw [← congrArg (List.filterMap Request.value?) hrequests, List.filterMap_map]
      rfl
    rw [h.fields, hvalues]
  · intro a ha key hvalue
    exact h.exists_field ha hvalue

/-- A type called `p` shares its numbers with the variables. -/
theorem Ledger.answerAll_answered_shared :
    let x : Variable := { id := .given "x", ty := .int }
    let y : Variable := { id := .given "y", ty := .int }
    let o : Hoisted := .object { id := .given "o", ty := Ty.system "p" }
    let rs : List Request := [.ofVariable x, .ofValue o (Ty.system "p") "p", .ofVariable y, .fresh "fault",
      .ofVariable x, .ofValue o (Ty.system "p") "q", .fresh "fault"]
    (answerAll {} 0 rs).1.map (·.name) = ["p1", "p2", "p3", "fault1", "p1", "p2", "fault2"] ∧
      Request.Answered rs (answerAll {} 0 rs).1 (answerAll {} 0 rs).2.fields := by
  intro x y o rs
  exact ⟨by decide +kernel, answerAll_answered rs (by decide +kernel) (by decide +kernel)⟩

end Scribe
