/-
Drawn tables are aligned.

The widths of the columns come from a run through all rows, and the column for labels is put in
front of the heading and of each row by itself.  This file shows that heading, rows and labels stand
below each other in the drawing, and that nothing of them is cut off.

* `widths_isGreatest` — a column is as wide as its widest entry: `getElem?_widen` is the step by one
  row;
* `stretch_rowLine` — an entry stands between two borders, with blanks up to the width of its
  column;
* `Aligned heading rows lines` — what an aligned box is, and `aligned_box`;
* `headingTexts` and `rowTexts` — what is to be seen of a table, with a column for labels if the
  rows have labels of their own;
* **`tableBlock_aligned`** — the box of a table is aligned, whatever its labels are.

Design notes: the borders between two columns belong to both of them, so a column takes three
characters more than its width, and its two borders are four characters apart from its entries.
-/
import Mathlib.Data.List.Induction
import Mathlib.Order.Bounds.Basic
import QueryTrace.Proofs.DrawnLines
import QueryTrace.Proofs.Stretches

namespace QueryTrace.Drawing

/-! ### Widths of columns -/

/-- The lengths of the texts in a column. -/
def columnLengths (texts : List (List String)) (j : Nat) : Set Nat :=
  {n | ∃ cells ∈ texts, ∃ text, cells[j]? = some text ∧ text.length = n}

theorem columnLengths_concat (texts : List (List String)) (cells : List String) (j : Nat) :
    columnLengths (texts ++ [cells]) j =
      columnLengths texts j ∪ {n | ∃ text, cells[j]? = some text ∧ text.length = n} := by
  ext n
  simp only [columnLengths, Set.mem_union, Set.mem_ofPred_eq, List.mem_append, List.mem_singleton,
    or_and_right, exists_or, exists_eq_left]

/-- A row makes a column wider if its cell there is longer. -/
theorem getElem?_widen (ws : List Nat) (cells : List String) (j : Nat) :
    (widen ws cells)[j]? = ws[j]?.map fun w => max w ((cells[j]?.map String.length).getD 0) := by
  induction ws generalizing cells j with
  | nil => cases cells <;> rfl
  | cons w ws ih =>
    cases cells with
    | nil => simp [widen]
    | cons cell cells =>
      rw [widen]
      cases j with
      | zero => rfl
      | succ j =>
        rw [List.getElem?_cons_succ, List.getElem?_cons_succ, List.getElem?_cons_succ]
        exact ih cells j

theorem widths_length (heading : List String) (rows : List (List String)) :
    (widths heading rows).length = heading.length := by
  induction rows using List.reverseRecOn with
  | nil => rw [widths, List.foldl_nil, List.length_map]
  | append_singleton rows row ih => rw [widths, List.foldl_concat, widen_length, ← widths, ih]

/-- **A column is as wide as its widest entry.** -/
theorem widths_isGreatest {heading : List String} {rows : List (List String)} {j w : Nat}
    (hw : (widths heading rows)[j]? = some w) :
    IsGreatest (columnLengths (heading :: rows) j) w := by
  induction rows using List.reverseRecOn generalizing w with
  | nil =>
    rw [widths, List.foldl_nil, List.getElem?_map, Option.map_eq_some_iff] at hw
    obtain ⟨text, htext, rfl⟩ := hw
    constructor
    · exact ⟨heading, List.mem_singleton_self _, text, htext, rfl⟩
    · rintro n ⟨cells, hcells, text', htext', rfl⟩
      rw [List.mem_singleton.mp hcells, htext] at htext'
      cases htext'
      exact Nat.le_refl _
  | append_singleton rows row ih =>
    rw [widths, List.foldl_concat, ← widths, getElem?_widen, Option.map_eq_some_iff] at hw
    obtain ⟨w, hbefore, rfl⟩ := hw
    rw [← List.cons_append, columnLengths_concat]
    have hgreatest := ih hbefore
    cases htext : row[j]? with
    | none =>
      have hnone : {n | ∃ text : String, none = some text ∧ text.length = n} = ∅ := by simp
      rw [hnone, Set.union_empty]
      simpa using hgreatest
    | some text =>
      have hone : {n | ∃ text', some text = some text' ∧ text'.length = n} = {text.length} := by
        ext n
        simp [eq_comm]
      rw [hone]
      exact hgreatest.union isGreatest_singleton

/-! ### Lines of entries -/

section Lines

variable {ws : List Nat} {cells : List String}

/-- The parts of a line between its borders. -/
def padded (ws : List Nat) (cells : List String) : List (List Char) :=
  cells.zipWith (fun cell w => [' '] ++ (pad w cell).toList ++ [' ']) ws

theorem toList_rowLine (ws : List Nat) (cells : List String) :
    (rowLine ws cells).toList = ['|'] ++ ['|'].intercalate (padded ws cells) ++ ['|'] := by
  rw [rowLine, String.toList_append, String.toList_append, String.toList_intercalate,
    List.map_zipWith]
  simp [padded]

/-- Do the texts fit in columns of these widths, and is there one for each column? -/
def FitsIn (ws : List Nat) (cells : List String) : Prop :=
  List.Forall₂ (fun cell w => cell.length ≤ w) cells ws

theorem FitsIn.length_le (h : FitsIn ws cells) {j w : Nat} {text : String} (hw : ws[j]? = some w)
    (htext : cells[j]? = some text) : text.length ≤ w := by
  obtain ⟨hj, rfl⟩ := List.getElem?_eq_some_iff.mp hw
  obtain ⟨hj', rfl⟩ := List.getElem?_eq_some_iff.mp htext
  exact List.Forall₂.get h hj' hj

theorem length_padded (h : FitsIn ws cells) :
    (padded ws cells).map List.length = ws.map (· + 2) := by
  induction h with
  | nil => rfl
  | @cons cell w cells ws hcell _ ih =>
    have hpad : (pad w cell).toList.length = w := by
      rw [String.length_toList, pad_length]
      omega
    rw [padded, List.zipWith_cons_cons, List.map_cons, List.map_cons, ← padded, ih]
    simp only [List.length_append, List.length_singleton, hpad]
    congr 1
    omega

theorem length_rowLine (h : FitsIn ws cells) : (rowLine ws cells).length = (rule ws).length := by
  have hpieces : (padded ws cells).map List.length =
      (ws.map fun w => List.replicate (w + 2) '-').map List.length := by
    rw [length_padded h, List.map_map]
    congr 1
    funext w
    simp
  have hborders : ['|'].length = ['+'].length := rfl
  have hlength := length_intercalate_congr hborders hpieces
  rw [← String.length_toList, ← String.length_toList, toList_rowLine, rule, String.toList_append,
    String.toList_append, String.toList_intercalate, List.map_map]
  simp only [List.length_append, hlength]
  simp [Function.comp_def]

/-- **An entry stands between two borders**, with blanks up to the width of its column. -/
theorem stretch_rowLine (h : FitsIn ws cells) {j w : Nat} {text : String}
    (hw : ws[j]? = some w) (htext : cells[j]? = some text) :
    stretch (rowLine ws cells).toList (startOf 3 ws j) (w + 4) =
      "| ".toList ++ text.toList ++ List.replicate (w - text.length) ' ' ++ " |".toList := by
  have hpiece : (padded ws cells)[j]? = some ([' '] ++ (pad w text).toList ++ [' ']) := by
    rw [padded, List.getElem?_zipWith, htext, hw]
  have hframed := stretch_framed ['|'] hpiece
  rw [length_padded h, List.length_singleton, startOf_map_add, ← toList_rowLine] at hframed
  have hlength : (pad w text).toList.length = w := by
    have hfits := h.length_le hw htext
    rw [String.length_toList, pad_length]
    omega
  have hwidth : 1 + ([' '] ++ (pad w text).toList ++ [' ']).length + 1 = w + 4 := by
    rw [List.length_append, List.length_append, hlength, List.length_singleton]
    omega
  rw [hwidth, toList_pad] at hframed
  rw [hframed]
  simp

end Lines

/-! ### Boxes -/

/-- The line of a box for the heading, which counts as zero, or for a row. -/
def lineOf : Nat → Nat
  | 0 => 1
  | i + 1 => i + headingLines

/-- Do the lines show the heading and the rows below each other? -/
structure Aligned (heading : List String) (rows : List (List String)) (lines : List String) :
    Prop where
  length_eq : lines.length = rows.length + 4
  sameWidth : ∃ width, ∀ line ∈ lines, line.length = width
  /-- Every column is as wide as its widest entry, and each entry stands between two borders in the
  line of its row, at a place that is the same in all rows. -/
  columns : ∃ ws : List Nat, ws.length = heading.length ∧
    (∀ j w, ws[j]? = some w → IsGreatest (columnLengths (heading :: rows) j) w) ∧
    ∀ i cells, (heading :: rows)[i]? = some cells → ∃ line, lines[lineOf i]? = some line ∧
      ∀ j w, ws[j]? = some w → ∃ text, cells[j]? = some text ∧
        stretch line.toList (startOf 3 ws j) (w + 4) =
          "| ".toList ++ text.toList ++ List.replicate (w - text.length) ' ' ++ " |".toList

section Boxes

variable {heading : List String} {rows : List (List String)}

theorem fitsIn_widths {cells : List String} (hcells : cells ∈ heading :: rows)
    (hlength : cells.length = heading.length) : FitsIn (widths heading rows) cells := by
  refine List.forall₂_iff_get.mpr ⟨by rw [hlength, widths_length], ?_⟩
  intro j hj hj'
  have hw := List.getElem?_eq_getElem hj'
  exact (widths_isGreatest hw).2 ⟨cells, hcells, _, List.getElem?_eq_getElem hj, rfl⟩

theorem getElem?_box {i : Nat} {cells : List String} (h : (heading :: rows)[i]? = some cells) :
    (box heading rows)[lineOf i]? = some (rowLine (widths heading rows) cells) := by
  cases i with
  | zero =>
    cases h
    rfl
  | succ i =>
    rw [List.getElem?_cons_succ] at h
    have hrow : (rows.map (rowLine (widths heading rows)))[i]? =
        some (rowLine (widths heading rows) cells) := by
      rw [List.getElem?_map, h, Option.map_some]
    obtain ⟨hi, -⟩ := List.getElem?_eq_some_iff.mp hrow
    show (rows.map (rowLine (widths heading rows)) ++ [rule (widths heading rows)])[i]? = _
    rw [List.getElem?_append_left hi, hrow]

/-- **The box around rows of equal length is aligned.** -/
theorem aligned_box (h : ∀ cells ∈ rows, cells.length = heading.length) :
    Aligned heading rows (box heading rows) := by
  have hlength : ∀ cells ∈ heading :: rows, cells.length = heading.length :=
    List.forall_mem_cons.mpr ⟨rfl, h⟩
  have hfits : ∀ cells ∈ heading :: rows, FitsIn (widths heading rows) cells := by
    intro cells hcells
    exact fitsIn_widths hcells (hlength cells hcells)
  constructor
  · exact box_length heading rows
  · refine ⟨(rule (widths heading rows)).length, ?_⟩
    have hrows : ∀ cells ∈ rows, (rowLine (widths heading rows) cells).length =
        (rule (widths heading rows)).length := by
      intro cells hcells
      exact length_rowLine (hfits cells (List.mem_cons_of_mem _ hcells))
    have hheading := length_rowLine (hfits heading List.mem_cons_self)
    simp only [box, List.forall_mem_append, List.forall_mem_cons, List.forall_mem_map]
    have hnil : ∀ line ∈ ([] : List String), line.length = (rule (widths heading rows)).length :=
      List.forall_mem_nil _
    exact ⟨⟨⟨trivial, hheading, trivial, hnil⟩, hrows⟩, trivial, hnil⟩
  · refine ⟨widths heading rows, widths_length heading rows, ?_, ?_⟩
    · intro j w hw
      exact widths_isGreatest hw
    · intro i cells hcells
      have hmem := List.mem_of_getElem? hcells
      refine ⟨_, getElem?_box hcells, ?_⟩
      intro j w hw
      obtain ⟨hj, -⟩ := List.getElem?_eq_some_iff.mp hw
      rw [widths_length, ← hlength cells hmem] at hj
      have htext := List.getElem?_eq_getElem hj
      exact ⟨_, htext, stretch_rowLine (hfits cells hmem) hw htext⟩

end Boxes

/-! ### Tables -/

/-- The entry in the column for labels, if the rows have labels of their own. -/
def labelCells (t : Annotated) (text : String) : List String :=
  if t.rowLabels.isSome then [text] else []

/-- What is to be seen above the columns of a table. -/
def headingTexts (t : Annotated) : List String :=
  labelCells t "" ++ t.table.columns

/-- What is to be seen in the rows of a table. -/
def rowTexts (t : Annotated) : List (List String) :=
  t.table.rows.zipIdx.map fun (row, i) => labelCells t (rowLabelText t i) ++ row.map Value.display

theorem tableBox_eq (t : Annotated) : tableBox t = box (headingTexts t) (rowTexts t) := by
  unfold tableBox headingTexts rowTexts cellTexts labelCells
  split
  · rw [List.zipIdx_map, List.map_map]
    rfl
  · have hrows : t.table.rows.map (List.map Value.display) =
        (t.table.rows.zipIdx.map Prod.fst).map (List.map Value.display) := by
      rw [List.zipIdx_map_fst]
    rw [hrows, List.map_map]
    rfl

theorem text_tableBlock (t : Annotated) :
    (tableBlock t).map Line.text = (captionLines t).map Line.text ++ tableBox t := by
  rw [tableBlock, List.map_append, List.map_map]
  exact congrArg _ (List.zipIdx_map_fst 0 (tableBox t))

/-- **The box of a table is aligned.** -/
theorem tableBlock_aligned {t : Annotated} (h : t.table.Rectangular) :
    ∃ lines, (tableBlock t).map Line.text = (captionLines t).map Line.text ++ lines ∧
      Aligned (headingTexts t) (rowTexts t) lines := by
  refine ⟨tableBox t, text_tableBlock t, ?_⟩
  rw [tableBox_eq]
  refine aligned_box ?_
  rw [rowTexts, List.forall_mem_map]
  rintro ⟨row, i⟩ hmem
  have hrow : row.length = t.table.columns.length := h row (List.fst_mem_of_mem_zipIdx hmem)
  rw [headingTexts, List.length_append, List.length_append, List.length_map, hrow]
  unfold labelCells
  split <;> rfl

/-- A table with fewer labels than rows, whose last row has the label of the table. -/
def partlyLabelled : Annotated where
  table := ⟨["t.né", "t.b"], [[.text "x", .null], [.text "", .integer 12]]⟩
  label := some (.group 0)
  rowLabels := some [.rejected]

theorem tableBlock_aligned_partlyLabelled :
    partlyLabelled.table.Rectangular ∧
      (tableBlock partlyLabelled).map Line.text = [
        "[g0]",
        "+----------+------+------+",
        "|          | t.né | t.b  |",
        "+----------+------+------+",
        "| rejected | x    | NULL |",
        "| g0       |      | 12   |",
        "+----------+------+------+"] ∧
      ∃ lines, (tableBlock partlyLabelled).map Line.text =
          (captionLines partlyLabelled).map Line.text ++ lines ∧
        Aligned (headingTexts partlyLabelled) (rowTexts partlyLabelled) lines := by
  have h : partlyLabelled.table.Rectangular := by
    simp [Table.Rectangular, partlyLabelled]
  exact ⟨h, by decide +kernel, tableBlock_aligned h⟩

end QueryTrace.Drawing
