/-
Stretches of joined texts.

Texts are put together to a line with the same separator between any two of them.  Each of them is
found again in the line, at a place that depends on the lengths of the earlier ones only.

* `stretch` — the characters of a text from a place on;
* `startOf` — where a piece begins: behind the earlier pieces and one gap each;
* `exists_around` — what stands around a piece;
* **`stretch_intercalate`** and **`stretch_framed`** — the stretch of a piece is the piece, and with
  the separators at both ends of the line, each piece has one on either side.
-/
import Mathlib.Algebra.Ring.Nat

namespace QueryTrace.Drawing

/-- The characters of a text from a place on, at most so many. -/
def stretch (cs : List Char) (start length : Nat) : List Char :=
  (cs.drop start).take length

/-- The place behind the first pieces and one gap for each of them. -/
def startOf (gap : Nat) (lengths : List Nat) (j : Nat) : Nat :=
  ((lengths.take j).map (· + gap)).sum

theorem startOf_zero (gap : Nat) (lengths : List Nat) : startOf gap lengths 0 = 0 := by
  rw [startOf, List.take_zero, List.map_nil, List.sum_nil]

theorem startOf_cons (gap n : Nat) (lengths : List Nat) (j : Nat) :
    startOf gap (n :: lengths) (j + 1) = n + gap + startOf gap lengths j := by
  rw [startOf, List.take_succ_cons, List.map_cons, List.sum_cons, startOf]

/-- Pieces that are longer by a margin begin as if the gap were wider. -/
theorem startOf_map_add (gap margin : Nat) (lengths : List Nat) (j : Nat) :
    startOf gap (lengths.map (· + margin)) j = startOf (margin + gap) lengths j := by
  rw [startOf, startOf, ← List.map_take, List.map_map]
  congr 2
  funext n
  rw [Function.comp_apply, Nat.add_assoc]

theorem stretch_append {front piece back : List Char} {start length : Nat}
    (hstart : front.length = start) (hlength : piece.length = length) :
    stretch (front ++ piece ++ back) start length = piece := by
  rw [stretch, List.append_assoc, List.drop_left' hstart, List.take_left' hlength]

section Pieces

variable (sep : List Char) {x : List Char} {xs : List (List Char)} {j : Nat}

/-- What stands around a piece: in front of it, unless it is the first, there is a separator, and
behind it, unless it is the last. -/
theorem exists_around (hx : xs[j]? = some x) :
    ∃ front back, sep.intercalate xs = front ++ x ++ back ∧
      front.length = startOf sep.length (xs.map List.length) j ∧
      sep <:+ sep ++ front ∧ sep <+: back ++ sep := by
  induction xs generalizing j with
  | nil => cases hx
  | cons y ys ih =>
    cases j with
    | zero =>
      obtain rfl : y = x := Option.some.inj hx
      cases ys with
      | nil =>
        refine ⟨[], [], ?_, (startOf_zero _ _).symm, by simp, by simp⟩
        rw [List.intercalate_singleton, List.nil_append, List.append_nil]
      | cons z zs =>
        refine ⟨[], sep ++ sep.intercalate (z :: zs), ?_, (startOf_zero _ _).symm, by simp, ?_⟩
        · rw [List.intercalate_cons_cons, List.nil_append, List.append_assoc]
        · rw [List.append_assoc]
          exact List.prefix_append _ _
    | succ j =>
      rw [List.getElem?_cons_succ] at hx
      obtain ⟨front, back, htext, hlength, hfront, hback⟩ := ih hx
      cases ys with
      | nil => cases hx
      | cons z zs =>
        refine ⟨y ++ sep ++ front, back, ?_, ?_, ?_, hback⟩
        · rw [List.intercalate_cons_cons, htext]
          simp only [List.append_assoc]
        · rw [List.map_cons, startOf_cons, ← hlength, List.length_append, List.length_append]
        · rw [List.append_assoc, ← List.append_assoc]
          exact hfront.trans (List.suffix_append _ _)

/-- **The stretch of a piece is the piece.** -/
theorem stretch_intercalate (hx : xs[j]? = some x) :
    stretch (sep.intercalate xs) (startOf sep.length (xs.map List.length) j) x.length = x := by
  obtain ⟨front, back, htext, hlength, -, -⟩ := exists_around sep hx
  rw [htext]
  exact stretch_append hlength rfl

/-- **A piece stands between two separators**, if there are some at both ends as well. -/
theorem stretch_framed (hx : xs[j]? = some x) :
    stretch (sep ++ sep.intercalate xs ++ sep) (startOf sep.length (xs.map List.length) j)
      (sep.length + x.length + sep.length) = sep ++ x ++ sep := by
  obtain ⟨front, back, htext, hlength, ⟨before, hbefore⟩, ⟨after, hafter⟩⟩ :=
    exists_around sep hx
  have hwhole : sep ++ sep.intercalate xs ++ sep = before ++ (sep ++ x ++ sep) ++ after := by
    rw [htext]
    calc sep ++ (front ++ x ++ back) ++ sep
      _ = (sep ++ front) ++ x ++ (back ++ sep) := by simp only [List.append_assoc]
      _ = (before ++ sep) ++ x ++ (sep ++ after) := by rw [hbefore, hafter]
      _ = before ++ (sep ++ x ++ sep) ++ after := by simp only [List.append_assoc]
  have hsame : before.length = front.length := by
    have h := congrArg List.length hbefore
    rw [List.length_append, List.length_append] at h
    omega
  rw [hwhole]
  refine stretch_append (hsame.trans hlength) ?_
  rw [List.length_append, List.length_append]

end Pieces

/-! ### Lengths -/

section Lengths

variable {sep sep' : List Char} {xs ys : List (List Char)}

/-- There is one separator less than there are pieces. -/
theorem length_intercalate (sep : List Char) (hx : xs ≠ []) :
    (sep.intercalate xs).length + sep.length =
      (xs.map List.length).sum + sep.length * xs.length := by
  induction xs with
  | nil => exact absurd rfl hx
  | cons x xs ih =>
    rw [List.map_cons, List.sum_cons, List.length_cons, Nat.mul_add_one]
    cases xs with
    | nil =>
      rw [List.intercalate_singleton, List.map_nil, List.sum_nil, List.length_nil]
      omega
    | cons y ys =>
      have hrest := ih (List.cons_ne_nil y ys)
      rw [List.intercalate_cons_cons, List.length_append, List.length_append]
      omega

/-- Joined texts are as long as others of the same lengths. -/
theorem length_intercalate_congr (hsep : sep.length = sep'.length)
    (h : xs.map List.length = ys.map List.length) :
    (sep.intercalate xs).length = (sep'.intercalate ys).length := by
  have hcount : xs.length = ys.length := by
    simpa only [List.length_map] using congrArg List.length h
  by_cases hx : xs = []
  · have hy : ys = [] := List.length_eq_zero_iff.mp (by rw [← hcount, hx, List.length_nil])
    rw [hx, hy]
    rfl
  · have hy : ys ≠ [] := by
      intro hy
      rw [hy, List.length_nil] at hcount
      exact hx (List.length_eq_zero_iff.mp hcount)
    have hlengthx := length_intercalate sep hx
    have hlengthy := length_intercalate sep' hy
    rw [h, hsep, hcount, ← hlengthy] at hlengthx
    exact Nat.add_right_cancel hlengthx

end Lengths

end QueryTrace.Drawing
