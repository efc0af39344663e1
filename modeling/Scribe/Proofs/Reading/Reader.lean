import Scribe.Proofs.Reading.Expression

/-!
# The reader and the grammar

`read?` finds an expression exactly when the grammar has it.

One direction follows the derivation. At a level of binary operators the reader has no left recursion: it
reads one operand and climbs. So the statement for these levels is about going on: if the reader gets from
`e` to `e'` behind the tokens of `e`, then it gets to `e'` from the start (`Found.binary`). The fuel that
`read?` takes is enough because each level costs one unit and every operator comes with a token.

The other direction follows the reader.
-/

namespace Scribe.Reading

/-! ## One step of the reader -/

section Steps

variable (n : Nat) (ts us : List Token)

theorem parse_choice :
    parse (n + 1) 0 ts = (parse n 1 ts).bind fun (c, us) =>
      match us with
      | .sign ['?'] :: us =>
        (parse n 0 us).bind fun (a, vs) =>
          match vs with
          | .sign [':'] :: vs => (parse n 0 vs).bind fun (b, rest) => some (.choice c a b, rest)
          | _ => none
      | us => some (c, us) := by
  rw [parse.eq_def]
  rfl

theorem parse_binary {k : Nat} (hk : 1 ≤ k) (hk' : k < 12) :
    parse (n + 1) k ts = (parse n (k + 1) ts).bind fun (l, us) => climb n k l us := by
  rw [parse.eq_def]
  simp only [if_neg (Nat.ne_of_gt hk), if_pos hk']

theorem parse_word (w : List Char) : parse (n + 1) 12 (.word w :: us) = (atom? w).map (·, us) := by
  rw [parse.eq_def]
  rfl

theorem parse_grouped :
    parse (n + 1) 12 (.sign ['('] :: us) = (parse n 0 us).bind fun (e, vs) =>
      match vs with
      | .sign [')'] :: rest => some (.grouped e, rest)
      | _ => none := by
  rw [parse.eq_def]
  rfl

theorem parse_prefixed {s : List Char} (hs : s ≠ ['(']) :
    parse (n + 1) 12 (.sign s :: us) = (PrefixOp.ofSign? s).bind fun op =>
      (parse n 12 us).bind fun (e, rest) => some (.prefixed op e, rest) := by
  rw [parse.eq_def]
  simp only [if_neg hs]
  rfl

theorem climb_infixed {op : InfixOp} {k : Nat} (hk : op.level = k) (l : Expr) :
    climb (n + 1) k l (.sign op.sign :: us) = (parse n op.rightLevel us).bind fun (r, vs) =>
      if op = .coalesce then some (.infixed op l r, vs) else climb n k (.infixed op l r) vs := by
  rw [climb.eq_def]
  simp only [InfixOp.ofSign?_sign, if_pos hk]

end Steps

/-! ## The reader finds what the grammar has -/

/-- With enough fuel, the reader reads `e` from the tokens and stops in front of `rest`. -/
def Parses (k : Nat) (ts : List Token) (e : Expr) (rest : List Token) : Prop :=
  ∀ n, 13 * ts.length + (13 - k) ≤ n → parse n k ts = some (e, rest)

/-- With enough fuel, the reader goes on from `l` to `e` and stops in front of `rest`. -/
def Climbs (k : Nat) (l : Expr) (ts : List Token) (e : Expr) (rest : List Token) : Prop :=
  ∀ n, 13 * ts.length + 1 ≤ n → climb n k l ts = some (e, rest)

/-- The tokens do not go on with an expression of level `k`. -/
def Follow (k : Nat) (rest : List Token) : Prop :=
  ∀ s us, rest = .sign s :: us → (∀ op, InfixOp.ofSign? s = some op → op.level < k) ∧ (k = 0 → s ≠ ['?'])

theorem Follow.mono {j k : Nat} {rest : List Token} (h : Follow j rest) (hjk : j ≤ k) : Follow k rest := by
  intro s us hrest
  obtain ⟨hop, hchoice⟩ := h s us hrest
  exact ⟨fun op hs => Nat.lt_of_lt_of_le (hop op hs) hjk, fun hk => hchoice (by omega)⟩

theorem follow_sign {k : Nat} (op : InfixOp) (h : op.level < k) (us : List Token) : Follow k (.sign op.sign :: us) := by
  intro s vs heq
  cases heq
  constructor
  · intro op' hop'
    rw [InfixOp.ofSign?_sign] at hop'
    cases hop'
    exact h
  · intro hk
    omega

/-- Behind an expression that does not go on, climbing ends. -/
theorem climbs_of_follow {k : Nat} {rest : List Token} (h : Follow k rest) (e : Expr) : Climbs k e rest e rest := by
  intro n hn
  obtain _ | m := n
  · omega
  match rest, h with
  | [], _ | .word w :: us, _ => rw [climb.eq_def]
  | .sign s :: us, h =>
    rw [climb.eq_def]
    simp only
    cases hop : InfixOp.ofSign? s with
    | none => rfl
    | some op =>
      have hlt := (h s us rfl).1 op hop
      simp only
      rw [if_neg (by omega)]

theorem Reads.ne_nil {k : Nat} {ts : List Token} {e : Expr} (h : Reads k ts e) : ts ≠ [] := by
  induction h with
  | tighter _ _ ih => exact ih
  | _ => simp

theorem Reads.length_pos {k : Nat} {ts : List Token} {e : Expr} (h : Reads k ts e) : 0 < ts.length :=
  List.length_pos_iff.mpr h.ne_nil

/-- At a level of binary operators, an expression of the next level is found first. -/
theorem Parses.climb {k : Nat} {ts us rest : List Token} {l e : Expr} (h : Parses (k + 1) ts l us)
    (hshort : us.length < ts.length) (hc : Climbs k l us e rest) (hk : 1 ≤ k) (hk' : k < 12) : Parses k ts e rest := by
  intro n hn
  obtain _ | m := n
  · omega
  rw [parse_binary m ts hk hk', h m (by omega)]
  exact hc m (by omega)

/-- An operator of the level, and its right operand, are taken. -/
theorem Climbs.infixed {op : InfixOp} {k : Nat} {us vs rest : List Token} {l r e : Expr} (hk : op.level = k)
    (hop : op ≠ .coalesce) (hr : Parses op.rightLevel us r vs) (hshort : vs.length < us.length)
    (hc : Climbs k (.infixed op l r) vs e rest) : Climbs k l (.sign op.sign :: us) e rest := by
  intro n hn
  rw [List.length_cons] at hn
  obtain _ | m := n
  · omega
  rw [climb_infixed m us hk, hr m (by omega)]
  simp only [Option.bind_some, if_neg hop]
  exact hc m (by omega)

theorem Climbs.coalesce {us rest : List Token} {l r : Expr} (hr : Parses 1 us r rest) :
    Climbs 1 l (.sign InfixOp.coalesce.sign :: us) (.infixed .coalesce l r) rest := by
  intro n hn
  rw [List.length_cons] at hn
  obtain _ | m := n
  · omega
  have hlevel : InfixOp.coalesce.level = 1 := rfl
  have hright : parse m InfixOp.coalesce.rightLevel us = some (r, rest) := hr m (by omega)
  rw [climb_infixed m us hlevel, hright]
  rfl

/-- What the reader does with the tokens of an expression. At the two loosest levels it has to stop
behind them. At the other levels of binary operators it goes on from there. -/
structure Found (k : Nat) (ts : List Token) (e : Expr) : Prop where
  loose : k ≤ 1 → ∀ rest, Follow k rest → Parses k (ts ++ rest) e rest
  binary : 2 ≤ k → k < 12 → ∀ rest e' rest', Follow (k + 1) rest → Climbs k e rest e' rest' →
    Parses k (ts ++ rest) e' rest'
  operand : k = 12 → ∀ rest, Parses 12 (ts ++ rest) e rest

theorem Found.parses {k : Nat} {ts rest : List Token} {e : Expr} (h : Found k ts e) (hk : k ≤ 12)
    (hf : Follow k rest) : Parses k (ts ++ rest) e rest := by
  by_cases h₁ : k ≤ 1
  · exact h.loose h₁ rest hf
  by_cases h₂ : k < 12
  · exact h.binary (by omega) h₂ rest e rest (hf.mono (by omega)) (climbs_of_follow hf e)
  · obtain rfl : k = 12 := by omega
    exact h.operand rfl rest

theorem Reads.found {k : Nat} {ts : List Token} {e : Expr} (h : Reads k ts e) : Found k ts e := by
  -- an operand stands at the tightest level only, so nothing is asked of it at the others
  induction h with
  | @atom w e hw =>
    refine ⟨fun hk => absurd hk (by decide), fun _ hk => absurd hk (by decide), fun _ rest n hn => ?_⟩
    obtain _ | m := n
    · omega
    rw [List.singleton_append, parse_word, hw]
    rfl
  | @grouped ts e h ih =>
    refine ⟨fun hk => absurd hk (by decide), fun _ hk => absurd hk (by decide), fun _ rest n hn => ?_⟩
    obtain _ | m := n
    · omega
    have hclose : Follow 0 (.sign [')'] :: rest) := by
      intro s us heq
      cases heq
      exact ⟨fun op hop => absurd hop (by decide +revert), fun _ => by decide⟩
    have hinner := ih.loose (by omega) _ hclose
    simp only [List.cons_append, List.append_assoc, List.nil_append, List.length_cons,
      List.length_append] at hn ⊢
    rw [parse_grouped, hinner m (by simp only [List.length_append, List.length_cons]; omega)]
    rfl
  | @prefixed op ts e h ih =>
    refine ⟨fun hk => absurd hk (by decide), fun _ hk => absurd hk (by decide), fun _ rest n hn => ?_⟩
    obtain _ | m := n
    · omega
    have hparen : op.sign ≠ ['('] := by cases op <;> decide
    simp only [List.cons_append, List.length_cons, List.length_append] at hn ⊢
    rw [parse_prefixed _ _ hparen, PrefixOp.ofSign?_sign, Option.bind_some,
      ih.operand rfl rest m (by simp only [List.length_append]; omega)]
    rfl
  | @infixed op ts us l r hl hr ihl ihr =>
    have hts := hl.length_pos
    have hus := hr.length_pos
    obtain ⟨hlow, hhigh⟩ := op.level_bounds
    -- `??` groups to the right, every other operator to the left
    by_cases hop : op = .coalesce
    · subst hop
      refine ⟨fun _ rest hf => ?_, fun hk => absurd hk (by decide), fun hk => absurd hk (by decide)⟩
      have hleft := ihl.parses (by decide) (follow_sign .coalesce (by decide) (us ++ rest))
      have hright := ihr.loose (by decide) rest hf
      rw [List.append_assoc, List.cons_append]
      refine hleft.climb ?_ (Climbs.coalesce hright) (by decide) (by decide)
      simp only [List.length_append]
      omega
    · have hleft : op.leftLevel = op.level := if_neg hop
      have hright : op.rightLevel = op.level + 1 := if_neg hop
      rw [hleft] at ihl
      have htwo : 2 ≤ op.level := by
        have hone := mt op.level_eq_one_iff.mp hop
        omega
      refine ⟨fun hk => absurd hk (by omega), fun _ _ rest e' rest' hf hc => ?_,
        fun hk => absurd hk (by omega)⟩
      rw [List.append_assoc, List.cons_append]
      refine ihl.binary htwo hhigh _ _ _ (follow_sign op (by omega) _) ?_
      refine Climbs.infixed rfl hop (ihr.parses (by omega) (hright ▸ hf)) ?_ hc
      rw [List.length_append]
      omega
  | @choice ts us vs c a b hc ha hb ihc iha ihb =>
    refine ⟨fun _ rest hf n hn => ?_, fun hk => absurd hk (by decide), fun hk => absurd hk (by decide)⟩
    have hts := hc.length_pos
    have hus := ha.length_pos
    obtain _ | m := n
    · omega
    have hquestion : Follow 1 (.sign ['?'] :: (us ++ .sign [':'] :: (vs ++ rest))) := by
      intro s us heq
      cases heq
      exact ⟨fun op hop => absurd hop (by decide +revert), fun hk => absurd hk (by decide)⟩
    have hcolon : Follow 0 (.sign [':'] :: (vs ++ rest)) := by
      intro s us heq
      cases heq
      exact ⟨fun op hop => absurd hop (by decide +revert), fun _ => by decide⟩
    have htest := ihc.loose (by decide) _ hquestion
    have htrue := iha.loose (by decide) _ hcolon
    have hfalse := ihb.loose (by decide) rest hf
    simp only [List.append_assoc, List.cons_append, List.length_append, List.length_cons] at hn ⊢
    rw [parse_choice, htest m (by simp only [List.length_append, List.length_cons]; omega)]
    simp only [Option.bind_some]
    rw [htrue m (by simp only [List.length_append, List.length_cons]; omega)]
    simp only [Option.bind_some]
    rw [hfalse m (by simp only [List.length_append]; omega)]
    rfl
  | @tighter k ts e hk h ih =>
    have hts := h.length_pos
    have hshort (rest : List Token) : rest.length < (ts ++ rest).length := by
      rw [List.length_append]
      omega
    -- the tighter level reads the tokens; this one stops behind them or climbs on
    refine ⟨fun hk1 rest hf => ?_, fun hk2 _ rest e' rest' hf hc => ?_, fun hk12 => absurd hk12 (by omega)⟩
    · have hinner := ih.parses (by omega) (hf.mono (Nat.le_succ k))
      rcases Nat.eq_zero_or_pos k with rfl | hpos
      · intro n hn
        obtain _ | m := n
        · omega
        rw [parse_choice, hinner m (by omega), Option.bind_some]
        match rest, hf with
        | [], _ | .word w :: us, _ => rfl
        | .sign s :: us, hf =>
          have hs := (hf s us rfl).2 rfl
          simp only
          split
          · next heq => exact absurd (Token.sign.inj (List.cons.inj heq).1) hs
          · rfl
      · exact hinner.climb (hshort rest) (climbs_of_follow hf e) hpos (by omega)
    · exact (ih.parses (by omega) hf).climb (hshort rest) hc (by omega) hk

/-! ## The reader finds nothing else -/

/-- The level at which the left operand of an operator of level `k` is read. -/
def startLevel (k : Nat) : Nat := if k = 1 then 2 else k

theorem startLevel_level (op : InfixOp) : startLevel op.level = op.leftLevel := by
  cases op <;> rfl

theorem Reads.startLevel {k : Nat} {ts : List Token} {e : Expr} (h : Reads (k + 1) ts e) (hk : k < 12) :
    Reads (startLevel k) ts e := by
  unfold Reading.startLevel
  split
  · next hone =>
    subst hone
    exact h
  · exact .tighter hk h

theorem Reads.of_startLevel {k : Nat} {ts : List Token} {e : Expr} (h : Reads (Reading.startLevel k) ts e) :
    Reads k ts e := by
  unfold Reading.startLevel at h
  split at h
  · next hone =>
    subst hone
    exact .tighter (by decide) h
  · exact h

/-- What the reader takes from the tokens with this fuel is an expression of the grammar. -/
def ParsesSoundly (n : Nat) : Prop :=
  ∀ k ts e rest, k ≤ 12 → parse n k ts = some (e, rest) → ∃ us, ts = us ++ rest ∧ Reads k us e

/-- What the reader reaches with this fuel from an expression is an expression of the grammar. -/
def ClimbsSoundly (n : Nat) : Prop :=
  ∀ k ls l ts e rest, k < 12 → Reads (startLevel k) ls l → climb n k l ts = some (e, rest) →
    ∃ us, ts = us ++ rest ∧ Reads k (ls ++ us) e

section Soundness

variable {n : Nat} {ts rest : List Token} {e : Expr}

theorem ParsesSoundly.choice (ih : ParsesSoundly n) (h : parse (n + 1) 0 ts = some (e, rest)) :
    ∃ us, ts = us ++ rest ∧ Reads 0 us e := by
  rw [parse_choice] at h
  obtain ⟨⟨c, us⟩, hc, hchoice⟩ := Option.bind_eq_some_iff.mp h
  obtain ⟨xs, rfl, hxs⟩ := ih 1 ts c us (by decide) hc
  simp only at hchoice
  split at hchoice
  · next us' =>
    obtain ⟨⟨a, vs⟩, ha, hcolon⟩ := Option.bind_eq_some_iff.mp hchoice
    obtain ⟨ys, rfl, hys⟩ := ih 0 us' a vs (by decide) ha
    simp only at hcolon
    split at hcolon
    · next vs' =>
      obtain ⟨⟨b, rest'⟩, hb, hdone⟩ := Option.bind_eq_some_iff.mp hcolon
      obtain ⟨zs, rfl, hzs⟩ := ih 0 vs' b rest' (by decide) hb
      cases hdone
      exact ⟨_, by simp, Reads.choice hxs hys hzs⟩
    · cases hcolon
  · cases hchoice
    exact ⟨xs, rfl, .tighter (by decide) hxs⟩

theorem ParsesSoundly.binary {k : Nat} (ih : ParsesSoundly n) (ihc : ClimbsSoundly n) (hpos : 0 < k)
    (hlt : k < 12) (h : parse (n + 1) k ts = some (e, rest)) : ∃ us, ts = us ++ rest ∧ Reads k us e := by
  rw [parse_binary n ts hpos hlt] at h
  obtain ⟨⟨l, us⟩, hl, hclimb⟩ := Option.bind_eq_some_iff.mp h
  obtain ⟨xs, rfl, hxs⟩ := ih (k + 1) ts l us hlt hl
  obtain ⟨ys, rfl, hys⟩ := ihc k xs l us e rest hlt (hxs.startLevel hlt) hclimb
  exact ⟨xs ++ ys, by rw [List.append_assoc], hys⟩

theorem ParsesSoundly.operand (ih : ParsesSoundly n) (h : parse (n + 1) 12 ts = some (e, rest)) :
    ∃ us, ts = us ++ rest ∧ Reads 12 us e := by
  match ts, h with
  | [], h =>
    rw [parse.eq_def] at h
    cases h
  | .word w :: us, h =>
    rw [parse_word] at h
    obtain ⟨a, ha, hdone⟩ := Option.map_eq_some_iff.mp h
    cases hdone
    exact ⟨[.word w], rfl, .atom ha⟩
  | .sign s :: us, h =>
    by_cases hs : s = ['(']
    · subst hs
      rw [parse_grouped] at h
      obtain ⟨⟨a, vs⟩, ha, hclose⟩ := Option.bind_eq_some_iff.mp h
      obtain ⟨xs, rfl, hxs⟩ := ih 0 us a vs (by decide) ha
      simp only at hclose
      split at hclose
      · cases hclose
        exact ⟨_, by simp, Reads.grouped hxs⟩
      · cases hclose
    · rw [parse_prefixed _ _ hs] at h
      obtain ⟨op, hop, hoperand⟩ := Option.bind_eq_some_iff.mp h
      obtain ⟨⟨a, vs⟩, ha, hdone⟩ := Option.bind_eq_some_iff.mp hoperand
      obtain ⟨xs, rfl, hxs⟩ := ih 12 us a vs (by decide) ha
      cases hdone
      rw [← PrefixOp.sign_of_ofSign? hop]
      exact ⟨_, rfl, Reads.prefixed op hxs⟩

theorem ClimbsSoundly.step (ih : ParsesSoundly n) (ihc : ClimbsSoundly n) : ClimbsSoundly (n + 1) := by
  intro k ls l ts e rest hk hl h
  have hstop : some (l, ts) = some (e, rest) → ∃ us, ts = us ++ rest ∧ Reads k (ls ++ us) e := by
    intro hstop
    cases hstop
    exact ⟨[], rfl, by rw [List.append_nil]; exact hl.of_startLevel⟩
  match ts, h, hstop with
  | [], h, hstop | .word w :: us, h, hstop =>
    rw [climb.eq_def] at h
    exact hstop h
  | .sign s :: us, h, hstop =>
    cases hop : InfixOp.ofSign? s with
    | none =>
      rw [climb.eq_def] at h
      simp only [hop] at h
      exact hstop h
    | some op =>
      have hs := InfixOp.sign_of_ofSign? hop
      subst hs
      -- an operator of another level is left to the levels around
      by_cases hlevel : op.level = k
      · subst hlevel
        rw [climb_infixed n us rfl] at h
        obtain ⟨⟨r, vs⟩, hr, hnext⟩ := Option.bind_eq_some_iff.mp h
        obtain ⟨xs, rfl, hxs⟩ := ih op.rightLevel us r vs (by cases op <;> decide) hr
        rw [startLevel_level] at hl
        have hnode := Reads.infixed op hl hxs
        simp only at hnext
        split at hnext
        · cases hnext
          exact ⟨_, rfl, hnode⟩
        · next hne =>
          have hstart : startLevel op.level = op.level := if_neg (mt op.level_eq_one_iff.mp hne)
          obtain ⟨ys, rfl, hys⟩ := ihc op.level _ _ vs e rest hk (hstart.symm ▸ hnode) hnext
          refine ⟨.sign op.sign :: xs ++ ys, by simp, ?_⟩
          rw [← List.append_assoc]
          exact hys
      · rw [climb.eq_def] at h
        simp only [hop, if_neg hlevel] at h
        exact hstop h

theorem parse_sound (n : Nat) : ParsesSoundly n ∧ ClimbsSoundly n := by
  induction n with
  | zero =>
    constructor
    · intro k ts e rest _ h
      rw [parse.eq_def] at h
      cases h
    · intro k ls l ts e rest _ _ h
      rw [climb.eq_def] at h
      cases h
  | succ n ih =>
    obtain ⟨ihparse, ihclimb⟩ := ih
    refine ⟨fun k ts e rest hk h => ?_, .step ihparse ihclimb⟩
    rcases Nat.eq_zero_or_pos k with rfl | hpos
    · exact ihparse.choice h
    · rcases Nat.lt_or_ge k 12 with hlt | hge
      · exact ihparse.binary ihclimb hpos hlt h
      · obtain rfl : k = 12 := by omega
        exact ihparse.operand h

end Soundness

/-- **The reader finds an expression exactly when the grammar has it.** -/
theorem read?_eq_some_iff {ts : List Token} {e : Expr} : read? ts = some e ↔ Reads 0 ts e := by
  constructor
  · intro h
    unfold read? at h
    split at h
    · next hparse =>
      cases h
      obtain ⟨us, rfl, hus⟩ := (parse_sound _).1 0 ts e [] (by decide) hparse
      rw [List.append_nil]
      exact hus
    · cases h
  · intro h
    have hend : Follow 0 [] := fun s us heq => by cases heq
    have hparse := h.found.loose (by decide) [] hend (13 * ts.length + 13)
      (Nat.le_of_eq (by rw [List.append_nil]))
    rw [List.append_nil] at hparse
    unfold read?
    rw [hparse]

end Scribe.Reading
