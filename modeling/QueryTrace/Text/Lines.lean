/-
Lines of a text.

A line ends in a line feed, and a carriage return right in front of the line feed belongs to the
end as well.  What is left behind the last line feed is a line too, unless nothing is left.

* `lines_append` — a text without line breaks in front of a line feed is one line;
* `unlines_lines` and `lines_unlines` — the lines of a text, put together again, are the text but
  for a line feed at the end, and the other way round.
-/
namespace QueryTrace.Text

/-- Puts a character at the beginning of the first line. -/
def consLine (c : Char) : List (List Char) → List (List Char)
  | [] => [[c]]
  | first :: more => (c :: first) :: more

/-- The lines of a text, without their ends. -/
def lines : List Char → List (List Char)
  | [] => []
  | '\n' :: rest => [] :: lines rest
  | '\r' :: '\n' :: rest => [] :: lines rest
  | c :: rest => consLine c (lines rest)

theorem lines_append {first : List Char} (h : ∀ c ∈ first, c ≠ '\n' ∧ c ≠ '\r')
    (rest : List Char) : lines (first ++ '\n' :: rest) = first :: lines rest := by
  induction first with
  | nil => rfl
  | cons c first ih =>
    have hc := h c (by simp)
    have ih := ih fun d hd => h d (by simp [hd])
    rw [List.cons_append, lines, ih, consLine]
    · exact hc.1
    · rintro _ rfl
      exact absurd rfl hc.2

/-! ### Lines put together -/

/-- The lines of a text put together again. -/
def unlines (ls : List (List Char)) : List Char :=
  ls.flatMap (· ++ ['\n'])

theorem unlines_cons (l : List Char) (ls : List (List Char)) :
    unlines (l :: ls) = l ++ '\n' :: unlines ls := by
  rw [unlines, List.flatMap_cons, List.append_assoc]
  rfl

/-- The first line counts as text in front of the others. -/
theorem append_unlines_cons (text l : List Char) (ls : List (List Char)) :
    text ++ unlines (l :: ls) = text ++ (l ++ ['\n']) ++ unlines ls := by
  rw [unlines_cons, List.append_assoc, List.append_assoc]
  rfl

theorem unlines_singleton (l : List Char) : unlines [l] = l ++ ['\n'] :=
  unlines_cons l []

/-- Without carriage returns the lines are the text, but for a line feed at the end. -/
theorem unlines_lines {cs : List Char} (h : '\r' ∉ cs) :
    unlines (lines cs) = cs ∨ unlines (lines cs) = cs ++ ['\n'] := by
  induction cs with
  | nil => exact .inl rfl
  | cons c cs ih =>
    rw [List.mem_cons, not_or] at h
    by_cases hc : c = '\n'
    · subst hc
      rw [lines, unlines_cons]
      rcases ih h.2 with hcs | hcs
      · exact .inl (congrArg ('\n' :: ·) hcs)
      · exact .inr (congrArg ('\n' :: ·) hcs)
    · have hlines : lines (c :: cs) = consLine c (lines cs) := by
        rw [lines]
        · exact hc
        · rintro rest rfl
          exact absurd rfl h.1
      have hrest := ih h.2
      rw [hlines]
      cases hl : lines cs with
      | nil =>
        rw [hl] at hrest
        obtain rfl : cs = [] := by
          rcases hrest with he | he
          · exact he.symm
          · exact absurd he (by simp [unlines])
        exact .inr rfl
      | cons l ls =>
        rw [hl] at hrest
        have hcons : unlines (consLine c (l :: ls)) = c :: unlines (l :: ls) := rfl
        rw [hcons]
        rcases hrest with he | he
        · exact .inl (congrArg (c :: ·) he)
        · exact .inr (congrArg (c :: ·) he)

/-- Lines without line breaks are the lines of their text. -/
theorem lines_unlines {ls : List (List Char)} (h : ∀ l ∈ ls, ∀ c ∈ l, c ≠ '\n' ∧ c ≠ '\r') :
    lines (unlines ls) = ls := by
  induction ls with
  | nil => rfl
  | cons l ls ih =>
    rw [unlines_cons, lines_append (h l List.mem_cons_self),
      ih fun m hm => h m (List.mem_cons_of_mem l hm)]

end QueryTrace.Text
