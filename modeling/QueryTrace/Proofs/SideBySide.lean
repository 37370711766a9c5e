/-
Tables side by side lose nothing.

The lines of several blocks are put next to each other, each padded to the width of its block, and
blanks at the ends are dropped.  A line of a block ends in a border, so only padding is dropped, and
each block can be cut out of the drawing again.

* `Padded` — a text that goes on with spaces behind its last character that is not blank, and
  `Padded.padTo_trimEnd`: padding makes up for what is trimmed of it;
* `prefix_trimEnd` — a text up to a border is not trimmed;
* `toList_wholeLine` — a line of the drawing before its blanks are dropped, and
  `splitOn_beside`: the lines of the drawing are these;
* `Recovered blocks lines` — the lines show the blocks;
* **`beside_recovered`** — the lines of tables side by side do.

Design notes: a table with no columns has a box that may be narrower than its label, so the width
of a block is that of its widest line.  The lines of a table whose rows differ in length end in
borders as well, so nothing is asked of the rows.
-/
import Mathlib.Order.Bounds.Basic
import QueryTrace.Proofs.Colours
import QueryTrace.Proofs.Stretches

namespace QueryTrace.Drawing

open Text (isBlank isBlankText trimEnd)

/-! ### Texts with padding -/

/-- The text with spaces behind it up to a length. -/
def padTo (length : Nat) (cs : List Char) : List Char :=
  cs ++ List.replicate (length - cs.length) ' '

theorem padTo_length {length : Nat} {cs : List Char} (h : cs.length ≤ length) :
    (padTo length cs).length = length := by
  rw [padTo, List.length_append, List.length_replicate]
  omega

/-- Does the text go on with spaces only behind its last character that is not blank? -/
def Padded (cs : List Char) : Prop :=
  ∃ front n, cs = front ++ List.replicate n ' ' ∧ ∀ c ∈ front.getLast?, isBlank c = false

theorem isBlankText_replicate (n : Nat) : isBlankText (List.replicate n ' ') = true := by
  rw [isBlankText, List.all_eq_true]
  intro c hc
  rw [List.eq_of_mem_replicate hc]
  rfl

theorem trimEnd_of_getLast? {cs : List Char} (h : ∀ c ∈ cs.getLast?, isBlank c = false) :
    trimEnd cs = cs := by
  rcases List.eq_nil_or_concat cs with rfl | ⟨front, c, rfl⟩
  · rfl
  · rw [List.concat_eq_append] at h ⊢
    exact Painted.trimEnd_concat (h c (by rw [List.getLast?_concat]; rfl)) front

namespace Padded

variable {cs ds : List Char}

theorem nil : Padded [] :=
  ⟨[], 0, rfl, nofun⟩

theorem padTo (h : ∀ c ∈ cs.getLast?, isBlank c = false) (length : Nat) :
    Padded (padTo length cs) :=
  ⟨cs, length - cs.length, rfl, h⟩

theorem append (hc : Padded cs) (hd : Padded ds) : Padded (cs ++ ds) := by
  obtain ⟨front, n, rfl, hfront⟩ := hc
  obtain ⟨front', n', rfl, hfront'⟩ := hd
  rcases List.eq_nil_or_concat front' with rfl | ⟨more, c, rfl⟩
  · -- the second text has spaces only, which go to those of the first one
    refine ⟨front, n + n', ?_, hfront⟩
    rw [List.nil_append, List.append_assoc, List.replicate_append_replicate]
  · refine ⟨front ++ List.replicate n ' ' ++ more.concat c, n', ?_, ?_⟩
    · rw [List.append_assoc (front ++ _)]
    · rw [List.concat_eq_append] at hfront' ⊢
      rw [← List.append_assoc, List.getLast?_concat]
      rw [List.getLast?_concat] at hfront'
      exact hfront'

/-- Padding makes up for what is trimmed. -/
theorem padTo_trimEnd (h : Padded cs) : Drawing.padTo cs.length (trimEnd cs) = cs := by
  obtain ⟨front, n, rfl, hfront⟩ := h
  have hcount : (front ++ List.replicate n ' ').length - front.length = n := by
    rw [List.length_append, List.length_replicate]
    omega
  rw [Text.trimEnd_append_blank (isBlankText_replicate n), trimEnd_of_getLast? hfront,
    Drawing.padTo, hcount]

end Padded

/-- What ends in a border is not trimmed. -/
theorem prefix_trimEnd {c : Char} (hc : isBlank c = false) (cs ds : List Char) :
    cs ++ [c] <+: trimEnd (cs ++ [c] ++ ds) := by
  cases hd : isBlankText ds with
  | true =>
    have htrim : trimEnd (cs ++ [c] ++ ds) = cs ++ [c] := by
      rw [Text.trimEnd_append_blank hd, Painted.trimEnd_concat hc]
    exact ⟨[], by rw [List.append_nil, htrim]⟩
  | false =>
    rw [Text.trimEnd_append hd]
    exact List.prefix_append _ _

/-! ### Blocks -/

/-- The greatest number is found by a run through all of them. -/
theorem isGreatest_foldl_max {α : Type} (f : α → Nat) {xs : List α} (hx : xs ≠ []) :
    IsGreatest {n | ∃ x ∈ xs, f x = n} (xs.foldl (fun n x => max n (f x)) 0) := by
  have hmax : (0 :: xs.map f).max? = some (xs.foldl (fun n x => max n (f x)) 0) := by
    rw [List.max?_cons', List.foldl_map]
  obtain ⟨hmem, hle⟩ := List.max?_eq_some_iff.mp hmax
  have hall : ∀ x ∈ xs, f x ≤ xs.foldl (fun n x => max n (f x)) 0 := by
    intro x hmem
    exact hle _ (List.mem_cons_of_mem _ (List.mem_map_of_mem hmem))
  constructor
  · rcases List.mem_cons.mp hmem with hzero | hmem
    · -- the run starts with zero, so all numbers are zero then
      obtain ⟨x, hx⟩ := List.exists_mem_of_ne_nil xs hx
      have hle := hall x hx
      exact ⟨x, hx, by omega⟩
    · exact List.mem_map.mp hmem
  · rintro n ⟨x, hx, rfl⟩
    exact hall x hx

/-- The characters of a block in a line, and none behind its last line. -/
def lineChars (b : Block) (i : Nat) : List Char :=
  (b[i]?.map fun line => line.text.toList).getD []

/-- The number of characters from the first block to the last. -/
def totalWidth (blocks : List Block) : Nat :=
  (blocks.map blockWidth).sum + between.length * (blocks.length - 1)

section Lines

variable {b : Block} {blocks : List Block}

theorem length_lineChars_le (b : Block) (i : Nat) : (lineChars b i).length ≤ blockWidth b := by
  unfold lineChars
  cases h : b[i]? with
  | none => exact Nat.zero_le _
  | some line => exact blockWidth_ge (List.mem_of_getElem? h)

theorem padTo_toList (width : Nat) (text : String) :
    padTo width text.toList = (pad width text).toList := by
  rw [padTo, String.length_toList, toList_pad]

theorem toList_segment (b : Block) (i : Nat) :
    (segment false b.toArray (blockWidth b) i).toList = padTo (blockWidth b) (lineChars b i) := by
  rw [segment, List.getElem?_toArray, lineChars]
  cases b[i]? with
  | none => exact (padTo_toList _ "").symm
  | some line =>
    show (paint false line.label (pad (blockWidth b) line.text)).toList = _
    rw [paint_plain]
    exact (padTo_toList _ line.text).symm

/-- A line of the drawing, before the blanks at its end are dropped. -/
theorem toList_wholeLine (blocks : List Block) (i : Nat) :
    (wholeLine false blocks i).toList =
      between.toList.intercalate (blocks.map fun b => padTo (blockWidth b) (lineChars b i)) := by
  rw [wholeLine, String.toList_intercalate, List.map_map]
  congr 1
  refine List.map_congr_left ?_
  intro b _
  exact toList_segment b i

theorem map_length_padTo (blocks : List Block) (i : Nat) :
    (blocks.map fun b => padTo (blockWidth b) (lineChars b i)).map List.length =
      blocks.map blockWidth := by
  rw [List.map_map]
  refine List.map_congr_left ?_
  intro b _
  exact padTo_length (length_lineChars_le b i)

theorem getElem?_map_padTo {k : Nat} (hb : blocks[k]? = some b) (i : Nat) :
    (blocks.map fun b => padTo (blockWidth b) (lineChars b i))[k]? =
      some (padTo (blockWidth b) (lineChars b i)) := by
  rw [List.getElem?_map, hb, Option.map_some]

theorem length_wholeLine (hne : blocks ≠ []) (i : Nat) :
    (wholeLine false blocks i).toList.length = totalWidth blocks := by
  have hpieces : (blocks.map fun b => padTo (blockWidth b) (lineChars b i)) ≠ [] :=
    mt List.map_eq_nil_iff.mp hne
  have hlength := length_intercalate between.toList hpieces
  have hpos := List.length_pos_iff.mpr hne
  rw [map_length_padTo, List.length_map, ← toList_wholeLine,
    String.length_toList (s := between)] at hlength
  have hgaps : between.length * blocks.length =
      between.length * (blocks.length - 1) + between.length := by
    rw [← Nat.mul_add_one]
    congr 1
    omega
  rw [totalWidth]
  omega

theorem padded_wholeLine (h : ∀ b ∈ blocks, ∀ line ∈ b, EndsInBorder line.text) (i : Nat) :
    Padded (wholeLine false blocks i).toList := by
  have hgap : Padded between.toList := ⟨[], 3, rfl, nofun⟩
  rw [toList_wholeLine]
  refine intercalate_rel (R := fun cs _ => Padded cs) .nil
    (fun h h' => (h.append hgap).append h') (List.forall₂_same.mpr ?_)
  rw [List.forall_mem_map]
  intro b hb
  refine .padTo ?_ _
  unfold lineChars
  cases hline : b[i]? with
  | none => exact nofun
  | some line =>
    obtain ⟨front, c, htext, hc⟩ := h b hb line (List.mem_of_getElem? hline)
    rw [Option.map_some, Option.getD_some, htext, List.getLast?_concat]
    rintro _ ⟨⟩
    exact hc

end Lines

/-! ### Drawings -/

/-- Can every block be cut out of the lines?  There are as many lines as the longest block has, and
in each of them the stretch that belongs to a block is its line, padded to its width, or blank where
the block has ended.  What is missing at the end of a line is padding, and no text of a block. -/
structure Recovered (blocks : List Block) (lines : List (List Char)) : Prop where
  height : IsGreatest {n | ∃ b ∈ blocks, b.length = n} lines.length
  width : ∀ b ∈ blocks,
    IsGreatest {n | ∃ line : Line, line ∈ b ∧ line.text.length = n} (blockWidth b)
  length_le : ∀ cs ∈ lines, cs.length ≤ totalWidth blocks
  parts : ∀ i cs, lines[i]? = some cs → ∀ k b, blocks[k]? = some b →
    stretch (padTo (totalWidth blocks) cs) (startOf between.length (blocks.map blockWidth) k)
      (blockWidth b) = padTo (blockWidth b) (lineChars b i)
  kept : ∀ i cs, lines[i]? = some cs → ∀ k b, blocks[k]? = some b →
    stretch cs (startOf between.length (blocks.map blockWidth) k) (lineChars b i).length =
      lineChars b i

section Drawings

variable {blocks : List Block}

/-- The line of the drawing that shows the i-th line of each block. -/
theorem getElem?_trimmed {i : Nat} {cs : List Char}
    (h : ((List.range (height blocks)).map fun i =>
      trimEnd (wholeLine false blocks i).toList)[i]? = some cs) :
    cs = trimEnd (wholeLine false blocks i).toList := by
  rw [List.getElem?_map, Option.map_eq_some_iff] at h
  obtain ⟨k, hk, rfl⟩ := h
  obtain ⟨-, rfl⟩ := List.getElem?_eq_some_iff.mp hk
  rw [List.getElem_range]

theorem recovered_trimmed (hne : blocks ≠ []) (hlines : ∀ b ∈ blocks, b ≠ [])
    (hends : ∀ b ∈ blocks, ∀ line ∈ b, EndsInBorder line.text) :
    Recovered blocks ((List.range (height blocks)).map fun i =>
      trimEnd (wholeLine false blocks i).toList) where
  height := by
    rw [List.length_map, List.length_range]
    exact isGreatest_foldl_max List.length hne
  width b hb := isGreatest_foldl_max (fun line : Line => line.text.length) (hlines b hb)
  length_le := by
    rw [List.forall_mem_map]
    intro i _
    obtain ⟨blanks, -, hwhole⟩ := Text.exists_trimEnd_blank (wholeLine false blocks i).toList
    have hlength := congrArg List.length hwhole
    rw [List.length_append, length_wholeLine hne] at hlength
    omega
  parts i cs hcs k b hb := by
    rw [getElem?_trimmed hcs, ← length_wholeLine hne i, (padded_wholeLine hends i).padTo_trimEnd,
      toList_wholeLine]
    have hstretch := stretch_intercalate between.toList (getElem?_map_padTo hb i)
    rw [map_length_padTo, padTo_length (length_lineChars_le b i)] at hstretch
    exact hstretch
  kept i cs hcs k b hb := by
    obtain ⟨front, back, hwhole, hfront, -, -⟩ :=
      exists_around between.toList (getElem?_map_padTo hb i)
    rw [map_length_padTo] at hfront
    cases hline : b[i]? with
    | none =>
      rw [lineChars, hline]
      exact List.take_zero
    | some line =>
      obtain ⟨start, c, htext, hc⟩ :=
        hends b (List.mem_of_getElem? hb) line (List.mem_of_getElem? hline)
      have hchars : lineChars b i = start ++ [c] := by rw [lineChars, hline, ← htext]; rfl
      -- the line of the block ends in a border, so trimming leaves it alone
      obtain ⟨rest, hrest⟩ := prefix_trimEnd hc (front ++ start)
        (List.replicate (blockWidth b - (lineChars b i).length) ' ' ++ back)
      have hcs : cs = front ++ lineChars b i ++ rest := by
        rw [getElem?_trimmed hcs, toList_wholeLine, hwhole, padTo]
        rw [List.append_assoc front, ← hchars] at hrest
        rw [hrest]
        simp only [List.append_assoc]
      rw [hcs]
      exact stretch_append hfront rfl

/-- The lines of a drawing are not broken by its texts. -/
theorem splitOn_beside (h : ∀ b ∈ blocks, ∀ line ∈ b, '\n' ∉ line.text.toList)
    (hheight : 0 < height blocks) :
    (beside false blocks).toList.splitOn '\n' =
      (List.range (height blocks)).map fun i => trimEnd (wholeLine false blocks i).toList := by
  have hunbroken : ∀ i, '\n' ∉ (wholeLine false blocks i).toList := by
    intro i
    refine not_mem_intercalate (by decide) (List.forall_mem_map.mpr ?_)
    intro b hb
    unfold segment
    split
    · next line hline =>
      rw [paint_plain]
      exact not_mem_pad (by decide) (h b hb line (mem_of_stored hline)) _
    · exact not_mem_pad (by decide) List.not_mem_nil _
  have hlines : (besideLines false blocks).map String.toList =
      (List.range (height blocks)).map fun i => trimEnd (wholeLine false blocks i).toList := by
    rw [besideLines_eq, List.map_map]
    refine List.map_congr_left ?_
    intro i _
    exact String.toList_ofList
  rw [beside, String.toList_intercalate, hlines]
  refine List.splitOn_intercalate '\n' ?_ ?_
  · rw [List.forall_mem_map]
    intro i _ hmem
    obtain ⟨blanks, -, hwhole⟩ := Text.exists_trimEnd_blank (wholeLine false blocks i).toList
    exact hunbroken i (hwhole ▸ List.mem_append_left blanks hmem)
  · intro hnil
    have hlength := congrArg List.length hnil
    rw [List.length_map, List.length_range, List.length_nil] at hlength
    omega

end Drawings

/-- **Tables side by side lose nothing.** -/
theorem beside_recovered {ts : List Annotated} (hne : ts ≠ [])
    (h : ∀ t ∈ ts, LacksChar '\n' t.table) :
    Recovered (ts.map tableBlock) ((beside false (ts.map tableBlock)).toList.splitOn '\n') := by
  have hblocks : ts.map tableBlock ≠ [] := mt List.map_eq_nil_iff.mp hne
  have hlines : ∀ b ∈ ts.map tableBlock, 0 < b.length := by
    rw [List.forall_mem_map]
    intro t _
    rw [tableBlock_length]
    omega
  have hheight : 0 < height (ts.map tableBlock) := by
    obtain ⟨⟨b, hb, hlength⟩, -⟩ := isGreatest_foldl_max List.length hblocks
    rw [height, ← hlength]
    exact hlines b hb
  rw [splitOn_beside (List.forall_mem_map.mpr fun t ht => not_mem_tableBlock rfl (h t ht)) hheight]
  refine recovered_trimmed hblocks ?_ ?_
  · intro b hb
    exact List.length_pos_iff.mp (hlines b hb)
  · rw [List.forall_mem_map]
    intro t _
    exact endsInBorder_tableBlock t

/-- A table with a label that is wider than its box, and one with a label for its row. -/
def unequalTables : List Annotated :=
  [⟨⟨[], []⟩, some (.group 12345), none⟩, ⟨⟨["t.a"], [[.text ""], [.text "x"]]⟩, none, some [.kept]⟩]

theorem beside_recovered_unequalTables :
    unequalTables ≠ [] ∧ (∀ t ∈ unequalTables, LacksChar '\n' t.table) ∧
      besideLines false (unequalTables.map tableBlock) = [
        "[g12345]   +------+-----+",
        "++         |      | t.a |",
        "||         +------+-----+",
        "++         | kept |     |",
        "++         |      | x   |",
        "           +------+-----+"] ∧
      Recovered (unequalTables.map tableBlock)
        ((beside false (unequalTables.map tableBlock)).toList.splitOn '\n') := by
  have hne : unequalTables ≠ [] := List.cons_ne_nil _ _
  have h : ∀ t ∈ unequalTables, LacksChar '\n' t.table := by
    rw [unequalTables, List.forall_mem_cons, List.forall_mem_singleton]
    constructor <;> constructor <;> decide
  exact ⟨hne, h, by decide +kernel, beside_recovered hne h⟩

end QueryTrace.Drawing
