import Mathlib.Data.List.Induction
import Scribe.Marker

/-!
# Reading a text at a position

A position that has been advanced over a text can be found again in any text that starts with it: its
line and column lead to its offset, and two such positions cut out what lies between them.

Lines are counted from the front, but a position is advanced at its end, so the induction adds a
character behind the text. What it carries is the last line of the text so far.
-/

namespace Scribe.Text

/-! ## Bytes -/

@[simp] theorem byteCount_nil : byteCount [] = 0 := rfl

@[simp] theorem byteCount_cons (c : Char) (cs : List Char) : byteCount (c :: cs) = c.utf8Size + byteCount cs := by
  simp [byteCount]

@[simp] theorem byteCount_append (cs ds : List Char) : byteCount (cs ++ ds) = byteCount cs + byteCount ds := by
  simp [byteCount]

theorem dropBytes?_cons (c : Char) (cs : List Char) (n : Nat) :
    dropBytes? (c.utf8Size + n) (c :: cs) = dropBytes? n cs := by
  obtain ⟨m, hm⟩ : ∃ m, c.utf8Size + n = m + 1 := ⟨c.utf8Size + n - 1, by have := c.utf8Size_pos; omega⟩
  rw [hm, dropBytes?, if_pos (by omega), ← hm, Nat.add_sub_cancel_left]

theorem takeBytes?_cons (c : Char) (cs : List Char) (n : Nat) :
    takeBytes? (c.utf8Size + n) (c :: cs) = (takeBytes? n cs).map (c :: ·) := by
  obtain ⟨m, hm⟩ : ∃ m, c.utf8Size + n = m + 1 := ⟨c.utf8Size + n - 1, by have := c.utf8Size_pos; omega⟩
  rw [hm, takeBytes?, if_pos (by omega), ← hm, Nat.add_sub_cancel_left]

/-- Dropping the bytes of a text drops the text. -/
theorem dropBytes?_append (cs rest : List Char) : dropBytes? (byteCount cs) (cs ++ rest) = some rest := by
  induction cs with
  | nil => rw [byteCount_nil, dropBytes?, List.nil_append]
  | cons c cs ih => rw [byteCount_cons, List.cons_append, dropBytes?_cons, ih]

theorem takeBytes?_append (cs rest : List Char) : takeBytes? (byteCount cs) (cs ++ rest) = some cs := by
  induction cs with
  | nil => rw [byteCount_nil, takeBytes?]
  | cons c cs ih => rw [byteCount_cons, List.cons_append, takeBytes?_cons, ih, Option.map_some]

theorem excerpt?_append (before between behind : List Char) :
    excerpt? (before ++ between ++ behind) (byteCount before) (byteCount (before ++ between)) =
      some between := by
  rw [byteCount_append, excerpt?, if_pos (Nat.le_add_right _ _), List.append_assoc, dropBytes?_append,
    Option.bind_some, Nat.add_sub_cancel_left, takeBytes?_append]

/-! ## Lines -/

/-- A line without a break in it ends at the next break. -/
theorem nextLine?_append {line : List Char} (h : '\n' ∉ line) (rest : List Char) :
    nextLine? (line ++ '\n' :: rest) = some rest := by
  induction line with
  | nil => rfl
  | cons c line ih =>
    rw [List.mem_cons, not_or] at h
    rw [List.cons_append, nextLine?, if_neg (Ne.symm h.1), ih h.2]

/-- The last of several lines may be dropped last. -/
theorem dropLines?_succ (n : Nat) (cs : List Char) : dropLines? (n + 1) cs = (dropLines? n cs).bind nextLine? := by
  induction n generalizing cs with
  | zero =>
    rw [dropLines?, dropLines?, Option.bind_some]
    cases nextLine? cs with
    | none => rfl
    | some rest => rw [Option.bind_some, dropLines?]
  | succ n ih =>
    rw [dropLines?, dropLines?, Option.bind_assoc]
    exact congrArg _ (funext ih)

/-- What a position knows of the text in front of it: the last line begins behind as many breaks as
there are lines above it, and ends at the column. -/
structure Position.EndsLine (p : Position) (cs line : List Char) : Prop where
  suffix : line <:+ cs
  unbroken : '\n' ∉ line
  dropLines (rest : List Char) : dropLines? (p.line - 1) (cs ++ rest) = some (line ++ rest)
  line_pos : 1 ≤ p.line
  column : p.column = line.length + 1

namespace Position

variable {p : Position} {cs line : List Char}

theorem EndsLine.newline (h : p.EndsLine cs line) : (p.step '\n').EndsLine (cs ++ ['\n']) [] where
  suffix := List.nil_suffix
  unbroken := List.not_mem_nil
  dropLines rest := by
    have hline : (p.step '\n').line - 1 = (p.line - 1) + 1 := by
      have := h.line_pos
      show p.line + 1 - 1 = _
      omega
    rw [hline, dropLines?_succ, List.append_assoc, h.dropLines, Option.bind_some]
    exact nextLine?_append h.unbroken rest
  line_pos := Nat.le_add_left 1 p.line
  column := rfl

theorem EndsLine.step (h : p.EndsLine cs line) {c : Char} (hc : c ≠ '\n') :
    (p.step c).EndsLine (cs ++ [c]) (line ++ [c]) := by
  have hstep : p.step c = ⟨p.line, p.column + 1, p.offset + c.utf8Size⟩ := if_neg hc
  rw [hstep]
  refine ⟨?_, ?_, ?_, h.line_pos, ?_⟩
  · obtain ⟨front, rfl⟩ := h.suffix
    exact ⟨front, by rw [List.append_assoc]⟩
  · rw [List.mem_append, List.mem_singleton, not_or]
    exact ⟨h.unbroken, Ne.symm hc⟩
  · intro rest
    rw [List.append_assoc, h.dropLines, List.append_assoc]
  · show p.column + 1 = _
    rw [h.column, List.length_append, List.length_singleton]

/-- The position behind a text ends the last line of it. -/
theorem exists_endsLine (cs : List Char) : ∃ line, (cs.foldl step {}).EndsLine cs line := by
  induction cs using List.reverseRecOn with
  | nil => exact ⟨[], List.nil_suffix, List.not_mem_nil, fun _ => rfl, Nat.le_refl 1, rfl⟩
  | append_singleton cs c ih =>
    obtain ⟨line, hline⟩ := ih
    rw [List.foldl_append, List.foldl_cons, List.foldl_nil]
    by_cases hc : c = '\n'
    · subst hc
      exact ⟨[], hline.newline⟩
    · exact ⟨line ++ [c], hline.step hc⟩

theorem step_offset (p : Position) (c : Char) : (p.step c).offset = p.offset + c.utf8Size := by
  unfold step
  split
  · rfl
  · rfl

theorem foldl_step_offset (cs : List Char) (p : Position) : (cs.foldl step p).offset = p.offset + byteCount cs := by
  induction cs generalizing p with
  | nil => rfl
  | cons c cs ih => rw [List.foldl_cons, ih, step_offset, byteCount_cons, Nat.add_assoc]

theorem advance_offset (p : Position) (s : String) : (p.advance s).offset = p.offset + byteCount s.toList :=
  foldl_step_offset s.toList p

/-- **The line and column of a position lead to its offset,** in every text that starts with the text in
front of it. -/
theorem byteOffset?_advance (before behind : String) :
    byteOffset? (before ++ behind).toList (({} : Position).advance before).line
      (({} : Position).advance before).column = some (byteCount before.toList) := by
  obtain ⟨line, hline⟩ := exists_endsLine before.toList
  have hcolumn : (({} : Position).advance before).column = line.length + 1 := hline.column
  obtain ⟨front, hfront⟩ := hline.suffix
  have hdrop : dropLines? ((({} : Position).advance before).line - 1) (before ++ behind).toList
      = some (line ++ behind.toList) := by
    rw [String.toList_append]
    exact hline.dropLines behind.toList
  have hfit : line.length ≤ (line ++ behind.toList).length := by
    rw [List.length_append]
    exact Nat.le_add_right _ _
  unfold byteOffset?
  rw [hdrop, hcolumn]
  simp only [hfit, if_true, List.take_left, Option.some.injEq]
  rw [String.toList_append, ← hfront]
  simp only [byteCount_append]
  omega

end Position

end Scribe.Text

namespace Scribe.Marker

open Text (Position byteCount)

/-- A marker between two positions cuts out what lies between them. -/
theorem slice?_between (before text behind : String) :
    (between (({} : Position).advance before) (({} : Position).advance (before ++ text))).slice?
      (before ++ text ++ behind) = some text := by
  have hstop := Position.byteOffset?_advance (before ++ text) behind
  simp only [String.toList_append] at hstop
  have hstart : (({} : Position).advance before).offset = byteCount before.toList := by
    rw [Position.advance_offset, Nat.zero_add]
  have hcut := Text.excerpt?_append before.toList text.toList behind.toList
  unfold slice? between
  simp only [hstop, hstart, Option.bind_eq_bind, Option.bind_some, String.toList_append, hcut,
    Option.pure_def, String.ofList_toList]

end Scribe.Marker
