/-
Colour changes nothing but colour.

Tinted and bold text stands between sequences of the terminal.  The lines of a block are padded
before they are painted, but blanks at the end of a line are dropped after that.  So in colour the
blanks in front of the last sequence are left.  This file shows that nothing else is different.

* `withoutEffects` — a text without the sequences, and `Painted` — a text with some here and there:
  they are all that is deleted (`Painted.withoutEffects_append`);
* `Painted.trimmed` — what is dropped at the end of a painted text is blank without colour too;
* `trimLines` — a text without the blanks at the end of each line, and `EndsOnLine` — no line break
  is among those that are dropped;
* `SameButColour` — both together, kept by lines below each other;
* `colourable_tableBlock` — all lines of tables can be coloured so;
* **`drawStep_withoutEffects`** — steps are drawn alike with and without colour.

Design notes: a cell may hold line breaks, and blanks in front of them.  The border behind the cell
keeps them at both ways of drawing, so they are no blanks at the end of a block.
-/
import Mathlib.Data.List.Induction
import QueryTrace.Proofs.DrawnLines

namespace QueryTrace.Drawing

open Text (isBlank isBlankText trimEnd)

/-! ### Effects of the terminal -/

/-- What follows the effect that a text begins with. -/
def afterEffect? : List Char → Option (List Char)
  | '\x1b' :: '[' :: cs =>
    match cs.dropWhile (· != 'm') with
    | [] => none
    | _ :: rest => some rest
  | _ => none

theorem length_of_afterEffect? {cs rest : List Char} (h : afterEffect? cs = some rest) :
    rest.length < cs.length := by
  unfold afterEffect? at h
  split at h
  · next cs =>
    split at h
    · cases h
    · next c rest' hdrop =>
      cases h
      have hsuffix : c :: rest <:+ cs := hdrop ▸ List.dropWhile_suffix _
      have hle := hsuffix.length_le
      rw [List.length_cons] at hle
      simp only [List.length_cons]
      omega
  · cases h

/-- The text without its effects, those sequences of the terminal that begin with an escape and a
bracket and end in an `m`. -/
def withoutEffects (cs : List Char) : List Char :=
  match _h : afterEffect? cs with
  | some rest => withoutEffects rest
  | none =>
    match cs with
    | [] => []
    | c :: cs => c :: withoutEffects cs
termination_by cs.length
decreasing_by
  · exact length_of_afterEffect? ‹_›
  · exact Nat.lt_succ_self _

theorem afterEffect?_of_ne {c : Char} (hc : c ≠ '\x1b') (cs : List Char) :
    afterEffect? (c :: cs) = none := by
  unfold afterEffect?
  split
  · next heq => exact absurd (List.cons.inj heq).1 hc
  · rfl

theorem afterEffect?_effect {effect : List Char} (h : 'm' ∉ effect) (rest : List Char) :
    afterEffect? ('\x1b' :: '[' :: (effect ++ 'm' :: rest)) = some rest := by
  have hall : ∀ c ∈ effect, (c != 'm') = true := by
    intro c hc
    rw [bne_iff_ne]
    rintro rfl
    exact h hc
  rw [afterEffect?, List.dropWhile_append_of_pos hall]
  rfl

theorem withoutEffects_nil : withoutEffects [] = [] := by
  rw [withoutEffects]
  rfl

theorem withoutEffects_cons {c : Char} (hc : c ≠ '\x1b') (cs : List Char) :
    withoutEffects (c :: cs) = c :: withoutEffects cs := by
  rw [withoutEffects]
  split
  · next h =>
    rw [afterEffect?_of_ne hc] at h
    cases h
  · rfl

theorem withoutEffects_effect {effect : List Char} (h : 'm' ∉ effect) (rest : List Char) :
    withoutEffects ('\x1b' :: '[' :: (effect ++ 'm' :: rest)) = withoutEffects rest := by
  rw [withoutEffects]
  split
  · next h' =>
    rw [afterEffect?_effect h] at h'
    cases h'
    rfl
  · next h' =>
    rw [afterEffect?_effect h] at h'
    cases h'

/-! ### Painted texts -/

/-- Is the first text the second one with effects here and there? -/
inductive Painted : List Char → List Char → Prop where
  | nil : Painted [] []
  | char {cs ds : List Char} {c : Char} (h : Painted cs ds) (hc : c ≠ '\x1b') :
    Painted (cs ++ [c]) (ds ++ [c])
  | effect {cs ds effect : List Char} (h : Painted cs ds) (he : 'm' ∉ effect) :
    Painted (cs ++ ('\x1b' :: '[' :: effect) ++ ['m']) ds

namespace Painted

variable {cs ds cs' ds' effect : List Char}

theorem append (h : Painted cs ds) (h' : Painted cs' ds') : Painted (cs ++ cs') (ds ++ ds') := by
  induction h' with
  | nil => rwa [List.append_nil, List.append_nil]
  | char _ hc ih =>
    rw [← List.append_assoc, ← List.append_assoc]
    exact ih.char hc
  | effect _ he ih =>
    rw [← List.append_assoc, ← List.append_assoc]
    exact ih.effect he

theorem plain (h : '\x1b' ∉ cs) : Painted cs cs := by
  induction cs using List.reverseRecOn with
  | nil => exact .nil
  | append_singleton cs c ih =>
    rw [List.mem_append, not_or, List.mem_singleton] at h
    exact (ih h.1).char (Ne.symm h.2)

theorem ofEffect (he : 'm' ∉ effect) : Painted ('\x1b' :: '[' :: effect ++ ['m']) [] :=
  Painted.nil.effect he

theorem intercalate {sep : List Char} {xs ys : List (List Char)} (hsep : '\x1b' ∉ sep)
    (h : List.Forall₂ Painted xs ys) : Painted (sep.intercalate xs) (sep.intercalate ys) :=
  intercalate_rel .nil (fun h h' => (h.append (.plain hsep)).append h') h

/-- **The effects are deleted, and nothing else.** -/
theorem withoutEffects_append (h : Painted cs ds) (rest : List Char) :
    withoutEffects (cs ++ rest) = ds ++ withoutEffects rest := by
  induction h generalizing rest with
  | nil => rfl
  | char _ hc ih => rw [List.append_assoc, List.singleton_append, ih, withoutEffects_cons hc,
      List.append_assoc, List.singleton_append]
  | effect _ he ih =>
    rw [List.append_assoc, List.append_assoc, List.singleton_append, List.cons_append,
      List.cons_append, ih, withoutEffects_effect he]

theorem trimEnd_concat {c : Char} (hc : isBlank c = false) (cs : List Char) :
    Text.trimEnd (cs ++ [c]) = cs ++ [c] := by
  have htext : isBlankText [c] = false := by rw [isBlankText, List.all_cons, hc]; rfl
  have hlast : Text.trimEnd [c] = [c] := by simp [Text.trimEnd, hc]
  rw [Text.trimEnd_append htext, hlast]

/-- An effect at the end keeps blanks in front of it, so less may be trimmed. -/
theorem trimmed (h : Painted cs ds) : ∃ ds' blanks, Painted (trimEnd cs) ds' ∧
    isBlankText blanks = true ∧ ds = ds' ++ blanks := by
  induction h with
  | nil => exact ⟨[], [], .nil, rfl, rfl⟩
  | @char cs ds c h hc ih =>
    cases hblank : isBlank c with
    | true =>
      have htext : isBlankText [c] = true := by rw [isBlankText, List.all_cons, hblank]; rfl
      obtain ⟨ds', blanks, hds', hblanks, rfl⟩ := ih
      refine ⟨ds', blanks ++ [c], ?_, ?_, List.append_assoc _ _ _⟩
      · rwa [Text.trimEnd_append_blank htext]
      · rw [Text.isBlankText_append, hblanks, htext]
        rfl
    | false =>
      rw [trimEnd_concat hblank]
      exact ⟨_, [], h.char hc, rfl, (List.append_nil _).symm⟩
  | effect h he _ =>
    -- nothing is trimmed behind the last letter of an effect
    rw [trimEnd_concat (by decide)]
    exact ⟨_, [], h.effect he, rfl, (List.append_nil _).symm⟩

end Painted

/-! ### Lines and their ends -/

/-- The text without the blanks at the end of each line. -/
def trimLines (cs : List Char) : List Char :=
  ['\n'].intercalate ((cs.splitOn '\n').map trimEnd)

theorem intercalate_append {sep : List Char} {xs ys : List (List Char)} (hx : xs ≠ [])
    (hy : ys ≠ []) :
    sep.intercalate (xs ++ ys) = sep.intercalate xs ++ sep ++ sep.intercalate ys := by
  induction xs with
  | nil => exact absurd rfl hx
  | cons x xs ih =>
    cases xs with
    | nil =>
      obtain ⟨y, ys, rfl⟩ := List.exists_cons_of_ne_nil hy
      rw [List.singleton_append, List.intercalate_cons_cons, List.intercalate_singleton]
    | cons x' xs =>
      rw [List.cons_append, List.cons_append, List.intercalate_cons_cons, ← List.cons_append,
        ih (List.cons_ne_nil _ _), List.intercalate_cons_cons]
      simp only [List.append_assoc]

theorem trimLines_append (cs ds : List Char) :
    trimLines (cs ++ ['\n'] ++ ds) = trimLines cs ++ ['\n'] ++ trimLines ds := by
  have hne : ∀ es : List Char, (es.splitOn '\n').map trimEnd ≠ [] := fun es =>
    mt List.map_eq_nil_iff.mp (List.splitOn_ne_nil _ _)
  rw [trimLines, List.append_assoc, List.singleton_append, List.splitOn_append_cons_self,
    List.map_append, intercalate_append (hne cs) (hne ds)]
  rfl

theorem trimLines_of_not_mem {cs : List Char} (h : '\n' ∉ cs) : trimLines cs = trimEnd cs := by
  rw [trimLines, List.splitOn_eq_singleton h, List.map_singleton, List.intercalate_singleton]

/-- Blanks at the end of the last line are trimmed like the others. -/
theorem trimLines_append_blank {blanks : List Char} (hblanks : isBlankText blanks = true)
    (hbreak : '\n' ∉ blanks) (cs : List Char) : trimLines (cs ++ blanks) = trimLines cs := by
  induction hn : cs.length using Nat.strongRecOn generalizing cs with
  | ind n ih =>
    by_cases h : '\n' ∈ cs
    · -- the blanks go to the end of what is behind the line break
      obtain ⟨front, back, rfl⟩ := List.append_of_mem h
      have hback := ih back.length (by rw [← hn]; simp; omega) back rfl
      rw [← List.singleton_append, ← List.append_assoc, List.append_assoc _ back,
        trimLines_append, trimLines_append, hback]
    · rw [trimLines_of_not_mem h, trimLines_of_not_mem, Text.trimEnd_append_blank hblanks]
      rw [List.mem_append, not_or]
      exact ⟨h, hbreak⟩

/-- Is there no line break among the blanks at the end of the text? -/
def EndsOnLine (cs : List Char) : Prop :=
  ∀ blanks, blanks <:+ cs → isBlankText blanks = true → '\n' ∉ blanks

namespace EndsOnLine

variable {cs ds : List Char}

theorem of_not_mem (h : '\n' ∉ cs) : EndsOnLine cs :=
  fun _ hsuffix _ hmem => h (hsuffix.subset hmem)

theorem concat {c : Char} (hc : isBlank c = false) (cs : List Char) : EndsOnLine (cs ++ [c]) := by
  intro blanks hsuffix hblanks hmem
  rcases List.eq_nil_or_concat blanks with rfl | ⟨front, d, rfl⟩
  · cases hmem
  · obtain ⟨more, hmore⟩ := hsuffix
    rw [List.concat_eq_append, ← List.append_assoc] at hmore
    obtain ⟨-, hlast⟩ := List.append_inj' hmore rfl
    cases hlast
    rw [List.concat_eq_append, Text.isBlankText_append, Bool.and_eq_true] at hblanks
    have hd := List.all_eq_true.mp hblanks.2 c (List.mem_singleton_self c)
    rw [hc] at hd
    cases hd

theorem append (hc : EndsOnLine cs) (hd : EndsOnLine ds) : EndsOnLine (cs ++ ds) := by
  intro blanks hsuffix hblanks
  -- the blanks begin in the second text, or else they reach into the first one
  rcases List.suffix_or_suffix_of_suffix hsuffix (List.suffix_append cs ds) with h | ⟨front, rfl⟩
  · exact hd blanks h hblanks
  · obtain ⟨more, hmore⟩ := hsuffix
    rw [← List.append_assoc] at hmore
    have hfront : front <:+ cs := ⟨more, List.append_cancel_right hmore⟩
    rw [Text.isBlankText_append, Bool.and_eq_true] at hblanks
    rw [List.mem_append, not_or]
    exact ⟨hc front hfront hblanks.1, hd ds List.suffix_rfl hblanks.2⟩

theorem intercalate {sep : List Char} {xs : List (List Char)} (hsep : '\n' ∉ sep)
    (h : ∀ x ∈ xs, EndsOnLine x) : EndsOnLine (sep.intercalate xs) :=
  intercalate_rel (R := fun cs _ => EndsOnLine cs) (of_not_mem List.not_mem_nil)
    (fun h h' => (h.append (of_not_mem hsep)).append h') (List.forall₂_same.mpr h)

/-- Only blanks are trimmed, so no line is lost. -/
theorem trimLines_trimEnd (h : EndsOnLine cs) : trimLines (trimEnd cs) = trimLines cs := by
  obtain ⟨blanks, hblanks, hcs⟩ := Text.exists_trimEnd_blank cs
  have hbreak := h blanks ⟨_, hcs⟩ hblanks
  rw [← trimLines_append_blank hblanks hbreak, hcs]

end EndsOnLine

/-! ### Texts in colour -/

/-- Are the texts the same, line by line, but for effects in the first one and for blanks at the
ends of lines? -/
def SameButColour (coloured plain : List Char) : Prop :=
  ∃ cs, Painted coloured cs ∧ trimLines cs = trimLines plain

theorem SameButColour.withoutEffects {coloured plain : List Char}
    (h : SameButColour coloured plain) :
    trimLines (withoutEffects coloured) = trimLines plain := by
  obtain ⟨cs, hpainted, htrim⟩ := h
  have hstrip := hpainted.withoutEffects_append []
  rw [List.append_nil, withoutEffects_nil, List.append_nil] at hstrip
  rw [hstrip, htrim]

theorem SameButColour.append {coloured plain coloured' plain' : List Char}
    (h : SameButColour coloured plain) (h' : SameButColour coloured' plain') :
    SameButColour (coloured ++ ['\n'] ++ coloured') (plain ++ ['\n'] ++ plain') := by
  obtain ⟨cs, hpainted, htrim⟩ := h
  obtain ⟨cs', hpainted', htrim'⟩ := h'
  have hbreak : Painted ['\n'] ['\n'] := .plain (by decide)
  refine ⟨cs ++ ['\n'] ++ cs', (hpainted.append hbreak).append hpainted', ?_⟩
  rw [trimLines_append, trimLines_append, htrim, htrim']

theorem SameButColour.lines {xs ys : List (List Char)} (h : List.Forall₂ SameButColour xs ys) :
    SameButColour (['\n'].intercalate xs) (['\n'].intercalate ys) :=
  intercalate_rel ⟨[], .nil, rfl⟩ SameButColour.append h

/-- **A line may be trimmed in colour.**  Behind an effect blanks are trimmed, and those in front of
it are left. -/
theorem SameButColour.trimmed {coloured plain : List Char} (h : Painted coloured plain)
    (hend : EndsOnLine plain) : SameButColour (trimEnd coloured) (trimEnd plain) := by
  obtain ⟨cs, blanks, hcs, hblanks, rfl⟩ := h.trimmed
  refine ⟨cs, hcs, ?_⟩
  rw [hend.trimLines_trimEnd,
    trimLines_append_blank hblanks (hend blanks (List.suffix_append _ _) hblanks)]

/-! ### Texts without escapes -/

/-- Is there no escape in the text? -/
def EscapeFree (s : String) : Prop :=
  '\x1b' ∉ s.toList

instance (s : String) : Decidable (EscapeFree s) :=
  inferInstanceAs (Decidable (_ ∉ _))

theorem isDrawingChar_escape : isDrawingChar '\x1b' = false := by
  decide

/-! ### Lines of tables -/

/-- Are there no escapes in the names of the columns and in the texts of the cells? -/
structure WithoutEscapes (t : Table) : Prop where
  columns : ∀ c ∈ t.columns, EscapeFree c
  cells : ∀ cells ∈ cellTexts t, ∀ c ∈ cells, EscapeFree c

/-- A line that is to be coloured: it has no escapes, and no line break is trimmed off its end. -/
structure Colourable (text : String) : Prop where
  escapeFree : EscapeFree text
  ends : EndsOnLine text.toList

theorem colourable_tableBlock {t : Annotated} (h : WithoutEscapes t.table) :
    ∀ line ∈ tableBlock t, Colourable line.text := by
  intro line hline
  constructor
  · exact not_mem_tableBlock isDrawingChar_escape ⟨h.columns, h.cells⟩ line hline
  · obtain ⟨front, c, htext, hc⟩ := endsInBorder_tableBlock t line hline
    rw [htext]
    exact .concat hc front

/-! ### Painted lines -/

theorem painted_withEffect {effect text : String} (he : 'm' ∉ effect.toList)
    (h : EscapeFree text) : Painted (withEffect effect text).toList text.toList := by
  have hlist : (withEffect effect text).toList = '\x1b' :: '[' :: effect.toList ++ ['m'] ++
      text.toList ++ ['\x1b', '[', '0'] ++ ['m'] := by simp [withEffect]
  rw [hlist]
  exact ((Painted.ofEffect he).append (.plain h)).effect (by decide)

theorem painted_paint (label : Option Label) {text : String} (h : EscapeFree text) :
    Painted (paint true label text).toList text.toList := by
  cases label with
  | none => exact .plain h
  | some label =>
    refine painted_withEffect ?_ h
    cases labelColour label <;> decide

section Blocks

variable {b : Block} {blocks : List Block}

theorem mem_of_stored {line : Line} {i : Nat} (h : b.toArray[i]? = some line) : line ∈ b :=
  List.mem_toArray.mp (Array.mem_of_getElem? h)

theorem painted_segment (h : ∀ line ∈ b, Colourable line.text) (width i : Nat) :
    Painted (segment true b.toArray width i).toList (segment false b.toArray width i).toList := by
  unfold segment
  split
  · next line hline =>
    rw [paint_plain]
    have hfree := (h line (mem_of_stored hline)).escapeFree
    exact painted_paint line.label (not_mem_pad (by decide) hfree width)
  · exact .plain (not_mem_pad (by decide) (List.not_mem_nil) width)

theorem endsOnLine_pad {text : String} (h : EndsOnLine text.toList) (width : Nat) :
    EndsOnLine (pad width text).toList := by
  rw [pad, String.toList_append, String.toList_ofList]
  exact h.append (.of_not_mem fun hmem => absurd (List.eq_of_mem_replicate hmem) (by decide))

theorem endsOnLine_segment (h : ∀ line ∈ b, Colourable line.text) (width i : Nat) :
    EndsOnLine (segment false b.toArray width i).toList := by
  unfold segment
  split
  · next line hline =>
    rw [paint_plain]
    exact endsOnLine_pad (h line (mem_of_stored hline)).ends width
  · exact endsOnLine_pad (.of_not_mem List.not_mem_nil) width

/-- A line of several blocks, with the blanks at its end. -/
def wholeLine (colour : Bool) (blocks : List Block) (i : Nat) : String :=
  between.intercalate (blocks.map fun b => segment colour b.toArray (blockWidth b) i)

theorem besideLines_eq (colour : Bool) (blocks : List Block) :
    besideLines colour blocks =
      (List.range (height blocks)).map fun i => Text.trimEndText (wholeLine colour blocks i) := by
  simp [besideLines, wholeLine, Function.comp_def]

/-- **Blocks are the same in colour.** -/
theorem sameButColour_beside (h : ∀ b ∈ blocks, ∀ line ∈ b, Colourable line.text) :
    SameButColour (beside true blocks).toList (beside false blocks).toList := by
  have hpainted : ∀ i,
      Painted (wholeLine true blocks i).toList (wholeLine false blocks i).toList := by
    intro i
    rw [wholeLine, wholeLine, String.toList_intercalate, String.toList_intercalate, List.map_map,
      List.map_map]
    refine Painted.intercalate (by decide) ?_
    rw [List.forall₂_map_left_iff, List.forall₂_map_right_iff, List.forall₂_same]
    exact fun b hb => painted_segment (h b hb) _ i
  have hends : ∀ i, EndsOnLine (wholeLine false blocks i).toList := by
    intro i
    rw [wholeLine, String.toList_intercalate, List.map_map]
    refine .intercalate (by decide) (List.forall_mem_map.mpr fun b hb => ?_)
    exact endsOnLine_segment (h b hb) _ i
  rw [beside, beside, String.toList_intercalate, String.toList_intercalate, besideLines_eq,
    besideLines_eq, List.map_map, List.map_map]
  refine SameButColour.lines ?_
  rw [List.forall₂_map_left_iff, List.forall₂_map_right_iff, List.forall₂_same]
  intro i _
  simp only [Function.comp_apply, Text.trimEndText, String.toList_ofList]
  exact .trimmed (hpainted i) (hends i)

end Blocks

/-! ### Steps -/

/-- The line above the tables of a step. -/
def headingLine (s : Step) (index total : Nat) : String :=
  "Step " ++ toString (index + 1) ++ "/" ++ toString total ++ ": " ++ s.kind.title

theorem escapeFree_headingLine (s : Step) (index total : Nat) :
    EscapeFree (headingLine s index total) := by
  have htitle : EscapeFree s.kind.title := by cases s.kind <;> decide
  have hnumber : ∀ n : Nat, EscapeFree (toString n) := not_mem_toString isDrawingChar_escape
  refine not_mem_append (not_mem_append (not_mem_append (not_mem_append
    (not_mem_append ?_ (hnumber _)) ?_) (hnumber _)) ?_) htitle
  all_goals decide

/-- What is below the heading of a step. -/
def tablesText (colour : Bool) (s : Step) : String :=
  if s.tables.isEmpty then "(no tables)" else beside colour (s.tables.map tableBlock)

theorem drawStep_eq (colour : Bool) (s : Step) (index total : Nat) :
    (drawStep colour s index total).toList =
      (embolden colour (headingLine s index total)).toList ++ ['\n'] ++
        (tablesText colour s).toList := by
  simp [drawStep, headingLine, tablesText]

/-- **Colour changes nothing but colour.**  The drawing of a step without escapes in its tables is
the same in colour, but for the effects and for blanks at the ends of lines. -/
theorem drawStep_withoutEffects {s : Step} (h : ∀ t ∈ s.tables, WithoutEscapes t.table)
    (index total : Nat) :
    trimLines (withoutEffects (drawStep true s index total).toList) =
      trimLines (drawStep false s index total).toList := by
  have hheading : SameButColour (embolden true (headingLine s index total)).toList
      (embolden false (headingLine s index total)).toList :=
    ⟨_, painted_withEffect (by decide) (escapeFree_headingLine s index total), rfl⟩
  have htables : SameButColour (tablesText true s).toList (tablesText false s).toList := by
    unfold tablesText
    split
    · exact ⟨_, .plain (by decide), rfl⟩
    · refine sameButColour_beside (List.forall_mem_map.mpr fun t ht => ?_)
      exact colourable_tableBlock (h t ht)
  rw [drawStep_eq, drawStep_eq]
  exact (hheading.append htables).withoutEffects

/-- A step with tables of different heights and labels, and with line breaks in a cell. -/
def marked : Step where
  kind := .havingMarked
  tables := [
    .withRowLabels ⟨["t.a", "t.b"], [[.text "p \n", .null], [.text "", .boolean true]]⟩
      [.kept, .source 1],
    .withLabel ⟨["t.a"], []⟩ .rejected]

theorem drawStep_withoutEffects_marked :
    (∀ t ∈ marked.tables, WithoutEscapes t.table) ∧
      '\x1b' ∈ (drawStep true marked 6 9).toList ∧
      trimLines (withoutEffects (drawStep true marked 6 9).toList) =
        trimLines (drawStep false marked 6 9).toList := by
  have h : ∀ t ∈ marked.tables, WithoutEscapes t.table := by
    simp only [marked, List.forall_mem_cons]
    exact ⟨⟨by decide, by decide⟩, ⟨by decide, by decide⟩, by simp⟩
  refine ⟨h, ?_, drawStep_withoutEffects h 6 9⟩
  simp [drawStep, embolden, withEffect]

end QueryTrace.Drawing
