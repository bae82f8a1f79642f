import Mathlib.Data.List.Basic
import Mathlib.Data.List.TakeWhile
import ConstFlow.Text.Position

/-!
# Lines and columns

The line of an offset is found by counting the line feeds before it, the column by looking back for
the nearest of them. Both read the text before the offset as whole lines and the beginning of one
more (`exists_line`); so the line starts where the column is counted from (`lineStart_lineAt`), and
the two together give back the offset and order offsets as they come in the text.
-/

namespace ConstFlow.Text

/-- The offset at which a line starts: the first at the start of the text, any other just after the
line feed that ends the one before it. -/
def lineStart (text : Text) : Nat → Nat
  | 0 => 0
  | 1 => 0
  | k + 2 => text.idxOfNth (.scalar '\n') k + 1

theorem lineAt_mono (text : Text) {a b : Nat} (h : a ≤ b) : lineAt text a ≤ lineAt text b :=
  Nat.succ_le_succ ((List.take_sublist_take_left h).count_le _)

theorem lineAt_le (text : Text) (a : Nat) : lineAt text a ≤ text.count (.scalar '\n') + 1 :=
  Nat.succ_le_succ ((List.take_sublist a text).count_le _)

/-- What comes before an offset: whole lines, and the beginning of the line that it is on. -/
theorem exists_line (text : Text) (pos : Nat) :
    ∃ before line, text.take pos = before ++ line ∧ .scalar '\n' ∉ line ∧
      columnAt text pos = line.length + 1 ∧
      (before = [] ∨ before.getLast? = some (.scalar '\n')) := by
  let back := (text.take pos).reverse
  let p : CodePoint → Bool := (· ≠ .scalar '\n')
  refine ⟨(back.dropWhile p).reverse, (back.takeWhile p).reverse, ?_, ?_, ?_, ?_⟩
  · rw [← List.reverse_append, List.takeWhile_append_dropWhile, List.reverse_reverse]
  · intro hmem
    simpa [p] using List.mem_takeWhile_imp (List.mem_reverse.mp hmem)
  · rw [List.length_reverse]
    rfl
  · rw [List.getLast?_reverse, List.reverse_eq_nil_iff]
    cases hback : back.dropWhile p with
    | nil => exact .inl rfl
    | cons c rest =>
        have hc := List.head_dropWhile_not p (l := back) (by simp [hback])
        simp only [hback, List.head_cons] at hc
        exact .inr (congrArg some (by simpa [p] using hc))

theorem lineStart_lineAt {text before line : Text} {pos : Nat}
    (hsplit : text.take pos = before ++ line) (hline : .scalar '\n' ∉ line)
    (hbefore : before = [] ∨ before.getLast? = some (.scalar '\n')) :
    lineStart text (lineAt text pos) = before.length := by
  rw [lineAt, hsplit, List.count_append, List.count_eq_zero_of_not_mem hline]
  rcases hbefore with rfl | hlast
  · rfl
  · obtain ⟨lines, rfl⟩ := List.getLast?_eq_some_iff.mp hlast
    -- The line feed before the line has as many others before it as `lines` has.
    obtain ⟨rest, htext⟩ : ∃ rest, text = lines ++ .scalar '\n' :: rest := by
      have htext := (List.take_append_drop pos text).symm
      rw [hsplit, List.append_assoc, List.append_assoc] at htext
      exact ⟨_, htext⟩
    have hlength : lines.length < text.length := by simp [htext]
    have hfeed : text[lines.length] == .scalar '\n' := by simp [htext]
    have hnth := List.idxOfNth_countBefore_of_lt_length_of_beq hfeed
    rw [List.countBefore_eq_count_take, htext, List.take_left] at hnth
    simp [lineStart, htext, hnth]

theorem not_feed_of_lineStart_le {text : Text} {pos i : Nat}
    (hstart : lineStart text (lineAt text pos) ≤ i) (hi : i < pos) :
    text[i]? ≠ some (.scalar '\n') := by
  obtain ⟨before, line, hsplit, hline, -, hbefore⟩ := exists_line text pos
  rw [lineStart_lineAt hsplit hline hbefore] at hstart
  intro hfeed
  rw [← List.getElem?_take_of_lt hi, hsplit, List.getElem?_append_right hstart] at hfeed
  exact hline (List.mem_of_getElem? hfeed)

section

variable {text : Text} {pos : Nat} (h : pos ≤ text.length)
include h

theorem lineStart_add_column :
    lineStart text (lineAt text pos) + (columnAt text pos - 1) = pos := by
  obtain ⟨before, line, hsplit, hline, hcolumn, hbefore⟩ := exists_line text pos
  have hlength : before.length + line.length = pos := by
    rw [← List.length_append, ← hsplit, List.length_take_of_le h]
  rw [lineStart_lineAt hsplit hline hbefore, hcolumn]
  omega

/-- A later offset is on a later line, or further on in the same one. -/
theorem position_lt_of_lt {a : Nat} (ha : a < pos) :
    lineAt text a < lineAt text pos ∨
      lineAt text a = lineAt text pos ∧ columnAt text a < columnAt text pos := by
  have hpos := lineStart_add_column h
  have hother := lineStart_add_column (ha.le.trans h)
  rcases (lineAt_mono text ha.le).lt_or_eq with hlt | heq
  · exact .inl hlt
  · rw [heq] at hother
    exact .inr ⟨heq, by omega⟩

end

/-- **Lines and columns are where the text says.** The line of an offset is one of the lines of the
text, the column counts from one, and from the start of that line it is one less than the column to
the offset, with no line feed between. So no two offsets have the same line and column, and these
come in the order of the offsets, lines first. -/
theorem position_faithful (text : Text) {pos : Nat} (h : pos ≤ text.length) :
    (1 ≤ lineAt text pos ∧ lineAt text pos ≤ text.count (.scalar '\n') + 1) ∧
      1 ≤ columnAt text pos ∧
      lineStart text (lineAt text pos) + (columnAt text pos - 1) = pos ∧
      (∀ i, lineStart text (lineAt text pos) ≤ i → i < pos → text[i]? ≠ some (.scalar '\n')) ∧
      ∀ other, other ≤ text.length →
        (lineAt text pos = lineAt text other → columnAt text pos = columnAt text other →
          pos = other) ∧
        (pos < other ↔ lineAt text pos < lineAt text other ∨
          lineAt text pos = lineAt text other ∧ columnAt text pos < columnAt text other) := by
  refine ⟨⟨Nat.succ_pos _, lineAt_le text pos⟩, Nat.succ_pos _, lineStart_add_column h, ?_, ?_⟩
  · intro i hstart hi
    exact not_feed_of_lineStart_le hstart hi
  · intro other hother
    refine ⟨fun hlines hcolumns => ?_, position_lt_of_lt hother, fun hlt => ?_⟩
    · rw [← lineStart_add_column h, hlines, hcolumns, lineStart_add_column hother]
    · -- The order of two offsets is one of three, and their positions are ordered alike.
      rcases Nat.lt_trichotomy pos other with hpos | rfl | hpos
      · exact hpos
      · omega
      · have hgt := position_lt_of_lt h hpos
        omega

/-- An offset at a line feed that has a line of its own, and the end of the text. -/
theorem position_faithful_sample :
    let text : Text := "ab\n\ncd\n"
    3 ≤ text.length ∧ text.length = 7 ∧ lineAt text 3 = 2 ∧ columnAt text 3 = 1 ∧
      lineStart text 2 + (1 - 1) = 3 ∧ lineAt text 7 = text.count (.scalar '\n') + 1 ∧
      (lineAt text 3 < lineAt text 7 ∨
        lineAt text 3 = lineAt text 7 ∧ columnAt text 3 < columnAt text 7) := by
  intro text
  have hlength : 3 ≤ text.length := by decide
  obtain ⟨-, -, hstart, -, horder⟩ := position_faithful text hlength
  exact ⟨hlength, by decide, by decide, by decide, hstart, by decide,
    (horder 7 (by decide)).2.mp (by decide)⟩

end ConstFlow.Text
