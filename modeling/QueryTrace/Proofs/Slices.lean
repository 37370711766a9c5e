/-
The statements of a script as parts of the script.

A script is cut into statements, and the statements may be put together to a script again.  This
file says what is left of a script between its statements, and that the second script has the
statements of the first.

* `SlicedBy` — pieces that stand in a text one behind the other, with only certain characters
  between and around them; **`sliced_found`**: so do the statements of a script, with blanks and
  semicolons between them;
* `IsFound` — lists of statements as they are found in scripts, told by the statements alone;
* **`found_of_sliced`** — any text in which such statements stand with only blanks between them has
  these statements;
* **`statements_stable`** — both, for the statements of a script.

Design notes: only the last statement may be without a semicolon, or have a quote that is never
closed.  Whatever stands behind it would be read as a part of it, but for blanks.
-/
import QueryTrace.Proofs.LineByLine
import QueryTrace.Proofs.Pieces

namespace QueryTrace.Script

/-! ### Pieces that stand in a text -/

/-- The pieces stand in the text one behind the other, and the characters between and around them
are all of one kind. -/
inductive SlicedBy (gap : Char → Prop) : List (List Char) → List Char → Prop where
  | last {between : List Char} (h : ∀ c ∈ between, gap c) : SlicedBy gap [] between
  | piece {between rest : List Char} {pieces : List (List Char)} (p : List Char)
      (h : ∀ c ∈ between, gap c) (hrest : SlicedBy gap pieces rest) :
      SlicedBy gap (p :: pieces) (between ++ (p ++ rest))

section SlicedBy

variable {gap : Char → Prop} {pieces : List (List Char)} {text between : List Char}

theorem SlicedBy.prepend (h : SlicedBy gap pieces text) (hb : ∀ c ∈ between, gap c) :
    SlicedBy gap pieces (between ++ text) := by
  cases h with
  | last h => exact .last (List.forall_mem_append.mpr ⟨hb, h⟩)
  | piece p h hrest =>
    rw [← List.append_assoc]
    exact .piece p (List.forall_mem_append.mpr ⟨hb, h⟩) hrest

/-- A piece at the front of the text. -/
theorem SlicedBy.cons (h : SlicedBy gap pieces text) (p : List Char) :
    SlicedBy gap (p :: pieces) (p ++ text) :=
  .piece p (List.forall_mem_nil gap) h

theorem sliced_intercalate (h : ∀ c ∈ between, gap c) (pieces : List (List Char)) :
    SlicedBy gap pieces (between.intercalate pieces) := by
  have hnone : SlicedBy gap [] [] := .last (List.forall_mem_nil gap)
  induction pieces with
  | nil => exact hnone
  | cons p pieces ih =>
    cases pieces with
    | nil =>
      have hp := hnone.cons p
      rw [List.append_nil] at hp
      rwa [List.intercalate_singleton]
    | cons q pieces =>
      rw [List.intercalate_cons_cons, List.append_assoc]
      exact (ih.prepend h).cons p

end SlicedBy

/-- A blank or a semicolon. -/
def IsFiller (c : Char) : Prop :=
  Text.isBlank c = true ∨ c = ';'

theorem blank_of_isBlankText {cs : List Char} (h : Text.isBlankText cs = true) :
    ∀ c ∈ cs, Text.isBlank c = true :=
  List.all_eq_true.mp h

theorem filler_of_isBlankText {cs : List Char} (h : Text.isBlankText cs = true) :
    ∀ c ∈ cs, IsFiller c :=
  fun c hc => .inl (blank_of_isBlankText h c hc)

theorem statementOfPiece_eq_none {piece : List Char} (h : statementOfPiece piece = none) :
    Text.isBlankText piece = true := by
  unfold statementOfPiece at h
  split at h
  · assumption
  · cases h

/-- What is behind the last semicolon, if it is not blank, is a statement between blanks. -/
theorem sliced_tail (tail : List Char) :
    SlicedBy IsFiller (statementOfTail tail).toList tail := by
  unfold statementOfTail
  split
  · next hblank => exact .last (filler_of_isBlankText hblank)
  · obtain ⟨front, hfront, hstart⟩ := Text.exists_blank_trimStart tail
    obtain ⟨back, hback, hend⟩ := Text.exists_trimEnd_blank (Text.trimStart tail)
    have hsliced : SlicedBy IsFiller [Text.trim tail] (front ++ (Text.trim tail ++ back)) :=
      .piece _ (filler_of_isBlankText hfront) (.last (filler_of_isBlankText hback))
    rwa [Text.trim, hend, hstart] at hsliced

theorem sliced_pieces (pieces : List (List Char)) (tail : List Char) :
    SlicedBy IsFiller (pieces.filterMap statementOfPiece ++ (statementOfTail tail).toList)
      (pieces.flatMap (· ++ [';']) ++ tail) := by
  induction pieces with
  | nil => exact sliced_tail tail
  | cons p pieces ih =>
    rw [List.flatMap_cons, List.append_assoc]
    cases hp : statementOfPiece p with
    | none =>
      -- a blank piece is filled up with its semicolon
      have hblank := filler_of_isBlankText (statementOfPiece_eq_none hp)
      have hsemicolon : ∀ c ∈ [';'], IsFiller c := fun c hc => .inr (List.mem_singleton.mp hc)
      rw [List.filterMap_cons_none hp]
      exact ih.prepend (List.forall_mem_append.mpr ⟨hblank, hsemicolon⟩)
    | some cs =>
      obtain ⟨front, hfront, hstart⟩ := Text.exists_blank_trimStart p
      have hcs : p ++ [';'] = front ++ cs := by
        rw [statementOfPiece_eq_some hp, ← List.append_assoc, hstart]
      rw [List.filterMap_cons_some hp, hcs, List.append_assoc]
      exact .piece cs (filler_of_isBlankText hfront) ih

/-- **Between and around its statements a script has blanks and semicolons only.** -/
theorem sliced_found (cs : List Char) : SlicedBy IsFiller (found cs) cs := by
  have h := sliced_pieces (cut none cs).1 (cut none cs).2
  rwa [cut_text] at h

/-! ### Statements told by themselves -/

/-- The text is not cut, and it begins with a character that is not blank. -/
structure Begins (cs : List Char) : Prop where
  uncut : Uncut none cs
  head : ∃ c, cs.head? = some c ∧ Text.isBlank c = false

/-- Statements with their semicolons, and perhaps one behind them that has none. -/
inductive IsFound : List (List Char) → Prop where
  | nil : IsFound []
  | rest {cs : List Char} (hb : Begins cs) (hlast : ∀ c ∈ cs.getLast?, Text.isBlank c = false) :
      IsFound [cs]
  | ended {front : List Char} {more : List (List Char)} (hb : Begins front)
      (hq : front.foldl quoteAfter none = none) (hmore : IsFound more) :
      IsFound ((front ++ [';']) :: more)

section Begins

variable {cs : List Char} (h : Begins cs)

include h

/-- The first character of a statement is no semicolon either, since that would be its end. -/
theorem Begins.exists_head : ∃ c rest, cs = c :: rest ∧ Text.isBlank c = false ∧ c ≠ ';' := by
  obtain ⟨c, hc, hblank⟩ := h.head
  obtain ⟨rest, rfl⟩ := List.head?_eq_some_iff.mp hc
  exact ⟨c, rest, rfl, hblank, fun hsemi => h.uncut.1 ⟨rfl, hsemi⟩⟩

theorem Begins.isBlankText : Text.isBlankText cs = false := by
  obtain ⟨c, rest, rfl, hblank, -⟩ := h.exists_head
  rw [Text.isBlankText, List.all_cons, hblank]
  rfl

theorem Begins.trimStart : Text.trimStart cs = cs := by
  obtain ⟨c, rest, rfl, hblank, -⟩ := h.exists_head
  rw [Text.trimStart, List.dropWhile_cons, hblank]
  rfl

end Begins

theorem begins_of_append {cs ds : List Char} (hu : Uncut none (cs ++ ds)) (hne : cs ≠ [])
    (hhead : ∀ c ∈ cs.head?, Text.isBlank c = false) : Begins cs := by
  obtain ⟨c, rest, rfl⟩ := List.exists_cons_of_ne_nil hne
  exact ⟨(uncut_append.mp hu).1, c, rfl, hhead c rfl⟩

/-- What is found in pieces and the text behind them are statements. -/
theorem isFound_of_pieces {pieces : List (List Char)} {tail : List Char}
    (h : Pieces none pieces tail) :
    IsFound (pieces.filterMap statementOfPiece ++ (statementOfTail tail).toList) := by
  induction pieces with
  | nil =>
    rw [List.filterMap_nil, List.nil_append, statementOfTail]
    split
    · exact .nil
    · next hblank =>
      have hu := uncut_trimStart (h.uncut_tail rfl)
      obtain ⟨blanks, -, htail⟩ := Text.exists_trimEnd_blank (Text.trimStart tail)
      have hne : Text.trim tail ≠ [] := by
        rw [Text.trim, ne_eq, Text.trimEnd_eq_nil_iff]
        intro hb
        obtain ⟨front, hfront, hstart⟩ := Text.exists_blank_trimStart tail
        rw [← hstart, Text.isBlankText_append, hfront, hb] at hblank
        exact hblank rfl
      rw [← htail] at hu
      exact .rest (begins_of_append hu hne (Text.isBlank_of_head?_trim tail))
        (Text.isBlank_of_getLast?_trimEnd _)
  | cons p pieces ih =>
    obtain ⟨hu, hq⟩ := h.uncut_piece rfl List.mem_cons_self
    have hmore : Pieces none pieces tail := by
      cases h with
      | piece _ _ rest => exact rest
    cases hp : statementOfPiece p with
    | none =>
      rw [List.filterMap_cons_none hp]
      exact ih hmore
    | some cs =>
      have hu := uncut_trimStart hu
      have hquote := foldl_quoteAfter_trimStart p
      have hne : Text.trimStart p ≠ [] := by
        rw [Text.trimStart, ne_eq, Text.dropWhile_eq_nil_iff_all, ← Text.isBlankText]
        intro hb
        rw [statementOfPiece, if_pos hb] at hp
        cases hp
      rw [← List.append_nil (Text.trimStart p)] at hu
      rw [List.filterMap_cons_some hp, statementOfPiece_eq_some hp]
      exact .ended (begins_of_append hu hne (Text.isBlank_of_head?_trimStart p)) (hquote.trans hq)
        (ih hmore)

theorem isFound_found (cs : List Char) : IsFound (found cs) :=
  isFound_of_pieces (pieces_of_cut none cs)

theorem IsFound.mem {ps : List (List Char)} (h : IsFound ps) {cs : List Char} (hcs : cs ∈ ps) :
    IsFound [cs] := by
  induction h with
  | nil => cases hcs
  | rest hb hlast =>
    cases List.mem_singleton.mp hcs
    exact .rest hb hlast
  | ended hb hq _ ih =>
    rcases List.mem_cons.mp hcs with rfl | hcs
    · exact .ended hb hq .nil
    · exact ih hcs

/-- A statement is trimmed, and it has more in it than blanks and semicolons. -/
theorem IsFound.single {cs : List Char} (h : IsFound [cs]) :
    Text.trim cs = cs ∧ ∃ c ∈ cs, ¬ IsFiller c := by
  have hfiller : ∀ {c}, Text.isBlank c = false → c ≠ ';' → ¬ IsFiller c := by
    rintro c hblank hsemi (hb | hs)
    · rw [hblank] at hb
      cases hb
    · exact hsemi hs
  cases h with
  | rest hb hlast =>
    obtain ⟨c, rest, rfl, hblank, hsemi⟩ := hb.exists_head
    refine ⟨Text.trim_of_not_blank (fun d hd => ?_) hlast, c, List.mem_cons_self,
      hfiller hblank hsemi⟩
    cases hd
    exact hblank
  | @ended front _ hb hq _ =>
    refine ⟨by rw [trim_semicolon, hb.trimStart], ?_⟩
    obtain ⟨c, rest, rfl, hblank, hsemi⟩ := hb.exists_head
    exact ⟨c, List.mem_cons_self, hfiller hblank hsemi⟩

/-! ### Statements put together -/

theorem cut_of_uncut {quote : Option Char} {cs : List Char} (h : Uncut quote cs) :
    cut quote cs = ([], cs) := by
  induction cs generalizing quote with
  | nil => rfl
  | cons c cs ih =>
    obtain ⟨hc, hrest⟩ := h
    rw [cut, if_neg, ih hrest]
    intro hcond
    rw [Bool.and_eq_true, Option.isNone_iff_eq_none, beq_iff_eq] at hcond
    exact hc hcond

/-- Blanks in front of a script do not matter. -/
theorem found_blank_append {cs ds : List Char} (h : Text.isBlankText cs = true) :
    found (cs ++ ds) = found ds := by
  rw [found, cut_append, foldl_quoteAfter_none_of_blank h,
    cut_of_not_mem (semicolon_not_mem_blank h), found]
  rcases cut none ds with ⟨_ | ⟨piece, pieces⟩, tail⟩
  · simp only [statementOfTail_append h]
  · simp only [List.nil_append, List.filterMap_cons, statementOfPiece_append h]

theorem found_of_uncut {cs : List Char} (h : Uncut none cs) :
    found cs = (statementOfTail cs).toList := by
  rw [found, cut_of_uncut h]
  rfl

theorem found_ended {front : List Char} (hb : Begins front)
    (hq : front.foldl quoteAfter none = none) : found (front ++ [';']) = [front ++ [';']] := by
  have hpiece : statementOfPiece front = some (front ++ [';']) := by
    rw [statementOfPiece, hb.isBlankText, trim_semicolon, hb.trimStart]
    rfl
  have hcut : cut none (front ++ [';']) = ([front], []) := by
    have hsemicolon : cut none [';'] = ([[]], []) := rfl
    rw [cut_append, hq, cut_of_uncut hb.uncut, hsemicolon]
    simp only [List.append_nil, List.nil_append]
  rw [found, hcut, List.filterMap_cons_some hpiece]
  rfl

/-- **Statements with blanks between and around them are found again**, whatever the blanks. -/
theorem found_of_sliced {ps : List (List Char)} {text : List Char} (h : IsFound ps)
    (ht : SlicedBy (fun c => Text.isBlank c = true) ps text) : found text = ps := by
  induction h generalizing text with
  | nil =>
    cases ht with
    | last hb => exact found_blank (List.all_eq_true.mpr hb)
  | @rest cs hb hlast =>
    have htrim := (IsFound.rest hb hlast).single.1
    cases ht with
    | piece _ hbetween hrest =>
      cases hrest with
      | last hbehind =>
        rw [found_blank_append (List.all_eq_true.mpr hbetween),
          found_append_blank _ (List.all_eq_true.mpr hbehind), found_of_uncut hb.uncut,
          statementOfTail, hb.isBlankText, htrim]
        rfl
  | @ended front more hb hq _ ih =>
    cases ht with
    | @piece _ rest _ _ hbetween hrest =>
      -- no quote is open at the semicolon, so the script begins anew behind it
      have hclosed : found (front ++ ';' :: [] ++ rest) =
          found (front ++ ';' :: []) ++ found rest := found_append_of_closed rfl hq
      rw [found_blank_append (List.all_eq_true.mpr hbetween), hclosed, found_ended hb hq, ih hrest]
      rfl

/-- **Cutting is lossless and stable.**  The statements of a script stand in it one behind the
other, with nothing but blanks and semicolons between and around them; each is trimmed and has more
in it than those; and a script that is made of them with blanks in between has the same statements,
so that each of them is its own only statement. -/
theorem statements_stable (script : String) :
    SlicedBy IsFiller ((statements script).map String.toList) script.toList ∧
    (∀ piece ∈ statements script,
      Text.trim piece.toList = piece.toList ∧ ∃ c ∈ piece.toList, ¬ IsFiller c) ∧
    (∀ gap : String, Text.isBlankText gap.toList = true →
      statements (gap.intercalate (statements script)) = statements script) ∧
    ∀ piece ∈ statements script, statements piece = [piece] := by
  have hfound : (statements script).map String.toList = found script.toList := by
    rw [statements_eq_found, List.map_map]
    simp [Function.comp_def]
  have hisFound : IsFound ((statements script).map String.toList) :=
    hfound ▸ isFound_found script.toList
  have hmem : ∀ piece ∈ statements script, IsFound [piece.toList] :=
    fun piece hp => hisFound.mem (List.mem_map_of_mem hp)
  refine ⟨hfound ▸ sliced_found script.toList, fun piece hp => (hmem piece hp).single,
    fun gap hgap => ?_, fun piece hp => ?_⟩
  · have hsliced := sliced_intercalate (blank_of_isBlankText hgap)
      ((statements script).map String.toList)
    rw [statements_eq_found, String.toList_intercalate, found_of_sliced hisFound hsliced,
      List.map_map]
    simp [Function.comp_def]
  · have hsliced := sliced_intercalate (List.forall_mem_nil fun c => Text.isBlank c = true)
      [piece.toList]
    rw [List.intercalate_singleton] at hsliced
    rw [statements_eq_found, found_of_sliced (hmem piece hp) hsliced]
    simp

/-- Blank statements are dropped, and the last statement has a quote that is never closed. -/
theorem statements_stable_unclosed :
    statements ";\n SELECT 'a;b' ;; x 'c; " = ["SELECT 'a;b' ;", "x 'c;"] ∧
    statements ("\n".intercalate ["SELECT 'a;b' ;", "x 'c;"]) = ["SELECT 'a;b' ;", "x 'c;"] ∧
    statements "x 'c;" = ["x 'c;"] := by
  have hscript : statements ";\n SELECT 'a;b' ;; x 'c; " = ["SELECT 'a;b' ;", "x 'c;"] := by
    decide +kernel
  obtain ⟨-, -, hjoined, hsingle⟩ := statements_stable ";\n SELECT 'a;b' ;; x 'c; "
  rw [hscript] at hjoined hsingle
  exact ⟨hscript, hjoined "\n" (by decide), hsingle "x 'c;" (by simp)⟩

end QueryTrace.Script
