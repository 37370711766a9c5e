/-
What the lines of a table are made of.

A line has the texts of its row in it, and otherwise only characters that all drawings consist of:
borders and brackets, blanks, and the characters of labels.  Its last character is always a border
or a bracket, so blanks at the end of a cell are never at the end of a line.

* `isDrawingChar` — the characters of all drawings;
* `LacksChar` — the texts of a table do without a character, and `not_mem_tableBlock`: so do its
  lines then;
* `EndsInBorder` and `endsInBorder_tableBlock` — where lines end.
-/
import Mathlib.Data.List.Forall2
import QueryTrace.Drawing.Table

namespace QueryTrace.Drawing

open Text (isBlank)

/-- What holds of pairs of texts, and of those that are joined by the separator, holds of all of
them put together. -/
theorem intercalate_rel {R : List Char → List Char → Prop} {sep : List Char} (hnil : R [] [])
    (hjoin : ∀ {cs ds cs' ds'}, R cs ds → R cs' ds' → R (cs ++ sep ++ cs') (ds ++ sep ++ ds'))
    {xs ys : List (List Char)} (h : List.Forall₂ R xs ys) :
    R (sep.intercalate xs) (sep.intercalate ys) := by
  induction h with
  | nil => exact hnil
  | cons h hrest ih =>
    cases hrest with
    | nil => rwa [List.intercalate_singleton, List.intercalate_singleton]
    | cons =>
      rw [List.intercalate_cons_cons, List.intercalate_cons_cons]
      exact hjoin h ih

theorem toList_pad (width : Nat) (text : String) :
    (pad width text).toList = text.toList ++ List.replicate (width - text.length) ' ' := by
  rw [pad, String.toList_append, String.toList_ofList]

/-! ### Characters -/

section Joined

variable {c : Char} {s t : String}

theorem not_mem_append (hs : c ∉ s.toList) (ht : c ∉ t.toList) : c ∉ (s ++ t).toList := by
  rw [String.toList_append, List.mem_append, not_or]
  exact ⟨hs, ht⟩

theorem not_mem_intercalate {ss : List String} (hs : c ∉ s.toList) (h : ∀ t ∈ ss, c ∉ t.toList) :
    c ∉ (s.intercalate ss).toList := by
  rw [String.toList_intercalate]
  refine intercalate_rel (R := fun cs _ => c ∉ cs) List.not_mem_nil ?_
    (List.forall₂_same.mpr (List.forall_mem_map.mpr h))
  intro cs _ cs' _ h h'
  rw [List.mem_append, List.mem_append, not_or, not_or]
  exact ⟨⟨h, hs⟩, h'⟩

theorem not_mem_replicate {d : Char} (hd : c ≠ d) (n : Nat) :
    c ∉ (String.ofList (List.replicate n d)).toList := by
  rw [String.toList_ofList]
  intro hmem
  exact hd (List.eq_of_mem_replicate hmem)

theorem not_mem_pad (hc : c ≠ ' ') (h : c ∉ s.toList) (width : Nat) :
    c ∉ (pad width s).toList :=
  not_mem_append h (not_mem_replicate hc _)

end Joined

/-- Is the character one that drawings consist of? -/
def isDrawingChar (c : Char) : Bool :=
  c.isDigit || "+-| []#cdegjkprt".toList.contains c

/-- Do the texts of the table do without the character? -/
structure LacksChar (c : Char) (t : Table) : Prop where
  columns : ∀ text ∈ t.columns, c ∉ text.toList
  cells : ∀ cells ∈ cellTexts t, ∀ text ∈ cells, c ∉ text.toList

section Characters

variable {c : Char} (hc : isDrawingChar c = false)

include hc

theorem ne_of_isDrawingChar {d : Char} (hd : isDrawingChar d = true) : c ≠ d := by
  rintro rfl
  rw [hc] at hd
  cases hd

theorem not_mem_of_drawn {s : String} (hs : s.toList.all isDrawingChar = true) :
    c ∉ s.toList := by
  intro hmem
  exact ne_of_isDrawingChar hc (List.all_eq_true.mp hs c hmem) rfl

theorem not_mem_toString (n : Nat) : c ∉ (toString n).toList := by
  have hdigits : (toString n).toList = Nat.toDigits 10 n := Nat.toList_repr
  rw [hdigits]
  intro hmem
  have hdigit := Nat.isDigit_of_mem_toDigits (by decide) (by decide) hmem
  rw [isDrawingChar, hdigit, Bool.true_or] at hc
  cases hc

theorem not_mem_labelText (label : Label) : c ∉ (labelText label).toList := by
  cases label with
  | kept | rejected => exact not_mem_of_drawn hc (by decide)
  | group n | source n =>
    exact not_mem_append (not_mem_of_drawn hc (by decide)) (not_mem_toString hc n)

theorem not_mem_rule (ws : List Nat) : c ∉ (rule ws).toList := by
  have hplus : c ∉ "+".toList := not_mem_of_drawn hc (by decide)
  refine not_mem_append (not_mem_append hplus ?_) hplus
  refine not_mem_intercalate hplus (List.forall_mem_map.mpr ?_)
  intro w _
  exact not_mem_replicate (ne_of_isDrawingChar hc (by decide)) _

theorem not_mem_rowLine {cells : List String} (h : ∀ text ∈ cells, c ∉ text.toList)
    (ws : List Nat) : c ∉ (rowLine ws cells).toList := by
  have hborder : c ∉ "|".toList := not_mem_of_drawn hc (by decide)
  have hblank : c ∉ " ".toList := not_mem_of_drawn hc (by decide)
  refine not_mem_append (not_mem_append hborder (not_mem_intercalate hborder ?_)) hborder
  rw [← List.map_uncurry_zip_eq_zipWith, List.forall_mem_map]
  rintro ⟨cell, w⟩ hmem
  have hcell : c ∉ cell.toList := h cell (List.of_mem_zip hmem).1
  have hpad := not_mem_pad (ne_of_isDrawingChar hc (by decide)) hcell w
  exact not_mem_append (not_mem_append hblank hpad) hblank

theorem not_mem_box {heading : List String} {rows : List (List String)}
    (hheading : ∀ text ∈ heading, c ∉ text.toList)
    (hrows : ∀ cells ∈ rows, ∀ text ∈ cells, c ∉ text.toList) :
    ∀ line ∈ box heading rows, c ∉ line.toList := by
  simp only [box, List.forall_mem_append, List.forall_mem_cons, List.forall_mem_map]
  have hrule := not_mem_rule hc (widths heading rows)
  have hnil : ∀ line ∈ ([] : List String), c ∉ line.toList := List.forall_mem_nil _
  refine ⟨⟨⟨hrule, not_mem_rowLine hc hheading _, hrule, hnil⟩, ?_⟩, hrule, hnil⟩
  intro cells hcells
  exact not_mem_rowLine hc (hrows cells hcells) _

theorem not_mem_tableBox {t : Annotated} (h : LacksChar c t.table) :
    ∀ line ∈ tableBox t, c ∉ line.toList := by
  unfold tableBox
  split
  · refine not_mem_box hc (List.forall_mem_cons.mpr ⟨List.not_mem_nil, h.columns⟩) ?_
    rw [List.forall_mem_map]
    rintro ⟨cells, i⟩ hmem
    have hcells : cells ∈ cellTexts t.table := List.fst_mem_of_mem_zipIdx hmem
    refine List.forall_mem_cons.mpr ⟨?_, h.cells cells hcells⟩
    unfold rowLabelText
    cases t.labelOfRow i with
    | none => exact List.not_mem_nil
    | some label => exact not_mem_labelText hc label
  · exact not_mem_box hc h.columns h.cells

/-- **What is in no text of the table is in no line of it.** -/
theorem not_mem_tableBlock {t : Annotated} (h : LacksChar c t.table) :
    ∀ line ∈ tableBlock t, c ∉ line.text.toList := by
  rw [tableBlock, List.forall_mem_append, List.forall_mem_map]
  constructor
  · intro line hline
    unfold captionLines at hline
    split at hline
    · next label _ =>
      obtain rfl := List.mem_singleton.mp hline
      have hopen : c ∉ "[".toList := not_mem_of_drawn hc (by decide)
      have hclose : c ∉ "]".toList := not_mem_of_drawn hc (by decide)
      exact not_mem_append (not_mem_append hopen (not_mem_labelText hc label)) hclose
    · cases hline
  · rintro ⟨text, i⟩ hmem
    exact not_mem_tableBox hc h text (List.fst_mem_of_mem_zipIdx hmem)

end Characters

/-! ### Ends of lines -/

/-- Is the last character of the text none that is trimmed? -/
def EndsInBorder (s : String) : Prop :=
  ∃ front c, s.toList = front ++ [c] ∧ isBlank c = false

theorem endsInBorder_concat {s : String} {c : Char} (hc : isBlank c = false) :
    EndsInBorder (s ++ String.singleton c) :=
  ⟨s.toList, c, by rw [String.toList_append, String.toList_singleton], hc⟩

theorem endsInBorder_box (heading : List String) (rows : List (List String)) :
    ∀ line ∈ box heading rows, EndsInBorder line := by
  have hrule : ∀ ws, EndsInBorder (rule ws) := by
    intro ws
    exact endsInBorder_concat (c := '+') (by decide)
  have hrow : ∀ ws cells, EndsInBorder (rowLine ws cells) := by
    intro ws cells
    exact endsInBorder_concat (c := '|') (by decide)
  simp only [box, List.forall_mem_append, List.forall_mem_cons, List.forall_mem_map]
  have hnil : ∀ line ∈ ([] : List String), EndsInBorder line := List.forall_mem_nil _
  exact ⟨⟨⟨hrule _, hrow _ _, hrule _, hnil⟩, fun cells _ => hrow _ cells⟩, hrule _, hnil⟩

/-- Every line of a table ends in a border, or in the bracket behind its label. -/
theorem endsInBorder_tableBlock (t : Annotated) :
    ∀ line ∈ tableBlock t, EndsInBorder line.text := by
  have hbox : ∀ line ∈ tableBox t, EndsInBorder line := by
    unfold tableBox
    split
    · exact endsInBorder_box _ _
    · exact endsInBorder_box _ _
  rw [tableBlock, List.forall_mem_append, List.forall_mem_map]
  constructor
  · intro line hline
    unfold captionLines at hline
    split at hline
    · obtain rfl := List.mem_singleton.mp hline
      exact endsInBorder_concat (c := ']') (by decide)
    · cases hline
  · rintro ⟨text, i⟩ hmem
    exact hbox text (List.fst_mem_of_mem_zipIdx hmem)

end QueryTrace.Drawing
