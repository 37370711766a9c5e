/-
Scripts typed line by line.

A session looks for the end of a statement at the end of each line, and a script is cut at every
semicolon outside of quotes.  The two run the same statements as long as no line ends in a semicolon
that is quoted.

* `Script.found` — the statements of a script, and `Script.typed` those of its lines;
* `found_append_of_closed` and `found_append_ne` — behind a semicolon that is not quoted a script
  begins anew, and behind one that is quoted it does not;
* **`typed_eq_found_iff`** — when typing and reading find the same statements;
* **`executed_run_iff`** — when a session that is fed a text executes what it would execute reading
  the text from a file.

Design notes: a line that ends in a quoted semicolon does no harm if nothing but blank lines follow,
because then both accounts end with the open quote.
-/
import QueryTrace.Proofs.Recording

namespace QueryTrace

/-! ### Scripts behind a text -/

namespace Script

/-- The statements of a script as lists of characters. -/
def found (cs : List Char) : List (List Char) :=
  (cut none cs).1.filterMap statementOfPiece ++ (statementOfTail (cut none cs).2).toList

theorem statements_eq_found (script : String) :
    statements script = (found script.toList).map String.ofList := rfl

theorem statementOfTail_blank {cs : List Char} (h : Text.isBlankText cs = true) :
    statementOfTail cs = none :=
  if_pos h

theorem found_blank {cs : List Char} (h : Text.isBlankText cs = true) : found cs = [] := by
  rw [found, cut_of_not_mem (semicolon_not_mem_blank h), statementOfTail_blank h]
  rfl

/-- Blanks behind a script do not matter. -/
theorem found_append_blank (cs : List Char) {ds : List Char} (h : Text.isBlankText ds = true) :
    found (cs ++ ds) = found cs := by
  have htail : statementOfTail ((cut none cs).2 ++ ds) = statementOfTail (cut none cs).2 := by
    rw [statementOfTail, statementOfTail, Text.isBlankText_append, h, Bool.and_true,
      Text.trim_append_blank h]
  rw [found, cut_append, cut_of_not_mem (semicolon_not_mem_blank h)]
  show (cut none cs).1.filterMap statementOfPiece ++
    (statementOfTail ((cut none cs).2 ++ ds)).toList = _
  rw [htail]
  rfl

/-- A blank text in front of a statement does not matter. -/
theorem statementOfPiece_append {cs ds : List Char} (h : Text.isBlankText cs = true) :
    statementOfPiece (cs ++ ds) = statementOfPiece ds := by
  rw [statementOfPiece, statementOfPiece, Text.isBlankText_append, h, Bool.true_and, Text.trim,
    List.append_assoc, Text.trimStart_blank_append h, ← Text.trim]

theorem statementOfTail_append {cs ds : List Char} (h : Text.isBlankText cs = true) :
    statementOfTail (cs ++ ds) = statementOfTail ds := by
  rw [statementOfTail, statementOfTail, Text.isBlankText_append, h, Bool.true_and, Text.trim,
    Text.trimStart_blank_append h, ← Text.trim]

section Semicolon

variable {cs ds blanks : List Char} (hblanks : Text.isBlankText blanks = true)

include hblanks

/-- The quote that is open at a semicolon is open behind it, with blanks or without. -/
theorem foldl_semicolon :
    (cs ++ ';' :: blanks).foldl quoteAfter none = cs.foldl quoteAfter none := by
  have hquote : ∀ q, cs.foldl quoteAfter none = some q → q ∈ quotes :=
    fun _ => mem_quotes
  rw [List.foldl_append, List.foldl_cons, quoteAfter_semicolon hquote,
    foldl_quoteAfter_blank hblanks hquote]

/-- **Behind a semicolon outside of quotes a script begins anew.** -/
theorem found_append_of_closed (h : cs.foldl quoteAfter none = none) :
    found (cs ++ ';' :: blanks ++ ds) = found (cs ++ ';' :: blanks) ++ found ds := by
  have hend : cut none (cs ++ ';' :: blanks) = ((cut none cs).1 ++ [(cut none cs).2], blanks) := by
    have hcut : cut none (';' :: blanks) = ([[]], blanks) := by
      rw [cut, if_pos (by decide), cut_of_not_mem (semicolon_not_mem_blank hblanks)]
    rw [cut_append, h, hcut]
    simp only [List.append_nil]
  have hnone : (cs ++ ';' :: blanks).foldl quoteAfter none = none :=
    (foldl_semicolon hblanks).trans h
  rw [found, cut_append, hnone, found, found, hend, statementOfTail_blank hblanks]
  rcases cut none ds with ⟨_ | ⟨piece, pieces⟩, tail⟩
  · simp only [statementOfTail_append hblanks, List.filterMap_nil, List.nil_append,
      Option.toList_none, List.append_nil]
  · simp only [List.filterMap_append, List.filterMap_cons, statementOfPiece_append hblanks,
      Option.toList_none, List.append_nil, List.append_assoc]

/-- **Behind a semicolon within quotes the statement goes on**, unless nothing follows but blanks.
So what is found there is not what would be found if a script began anew. -/
theorem found_append_ne {q : Char} (h : cs.foldl quoteAfter none = some q)
    (hds : Text.isBlankText ds = false) (more : List (List Char)) :
    found (cs ++ ';' :: blanks ++ ds) ≠ found (cs ++ ';' :: blanks) ++ more := by
  have hq : q ∈ quotes := mem_quotes h
  have hend : cut none (cs ++ ';' :: blanks) =
      ((cut none cs).1, (cut none cs).2 ++ ';' :: blanks) := by
    have hcut : cut (some q) (';' :: blanks) = ([], ';' :: blanks) := by
      have hsemicolon : quoteAfter (some q) ';' = some q := by
        refine quoteAfter_semicolon fun p hp => ?_
        obtain rfl := Option.some.inj hp
        exact hq
      rw [cut, if_neg (by simp), hsemicolon,
        cut_of_not_mem (semicolon_not_mem_blank hblanks)]
    rw [cut_append, h, hcut]
  have hopen : (cs ++ ';' :: blanks).foldl quoteAfter none = some q :=
    (foldl_semicolon hblanks).trans h
  -- the text that has been begun at the semicolon, and the statement that it would be
  generalize hbegun : (cut none cs).2 ++ ';' :: blanks = begun at hend
  have hblank : Text.isBlankText begun = false := by
    rw [← hbegun, Text.isBlankText_append, Bool.and_eq_false_iff]
    exact .inr rfl
  have hfound : found (cs ++ ';' :: blanks) =
      (cut none cs).1.filterMap statementOfPiece ++ [Text.trim begun] := by
    rw [found, hend, statementOfTail, hblank]
    rfl
  have hlonger : ∀ es, Text.isBlankText es = false → ∀ rest,
      (cut none cs).1.filterMap statementOfPiece ++ Text.trim (begun ++ es) :: rest ≠
        found (cs ++ ';' :: blanks) ++ more := by
    intro es hes rest heq
    rw [hfound, List.append_assoc] at heq
    exact Text.trim_append_ne hblank hes (List.cons.inj (List.append_cancel_left heq)).1
  have htext := cut_text (some q) ds
  rw [found, cut_append none (cs ++ ';' :: blanks), hopen, hend]
  rcases hcut : cut (some q) ds with ⟨_ | ⟨piece, pieces⟩, tail⟩
  · obtain rfl : tail = ds := by rwa [hcut] at htext
    have htail : statementOfTail (begun ++ tail) = some (Text.trim (begun ++ tail)) := by
      rw [statementOfTail, Text.isBlankText_append, hblank]
      rfl
    simp only [htail, Option.toList_some]
    exact hlonger tail hds []
  · have hpiece : statementOfPiece (begun ++ piece) =
        some (Text.trim (begun ++ (piece ++ [';']))) := by
      rw [statementOfPiece, Text.isBlankText_append, hblank, List.append_assoc]
      rfl
    have hsemicolon : Text.isBlankText (piece ++ [';']) = false := by
      rw [Text.isBlankText_append, Bool.and_eq_false_iff]
      exact .inr rfl
    simp only [List.filterMap_append, List.filterMap_cons, hpiece, List.append_assoc,
      List.cons_append]
    exact hlonger _ hsemicolon _

end Semicolon

/-! ### Scripts in lines -/

/-- Does the line end in a semicolon? -/
def endsInSemicolon (l : List Char) : Bool :=
  (Text.trimEnd l).getLast? == some ';'

/-- The statements that are found when a script is taken line by line, behind what was collected:
each line that ends in a semicolon is the last of its script. -/
def typed : List Char → List (List Char) → List (List Char)
  | pending, [] => found pending
  | pending, l :: ls =>
    if endsInSemicolon l then found (pending ++ (l ++ ['\n'])) ++ typed [] ls
    else typed (pending ++ (l ++ ['\n'])) ls

/-- Behind a text, no line ends in a semicolon that is quoted, unless nothing follows but blanks. -/
def EndsUnquoted (text : List Char) (ls : List (List Char)) : Prop :=
  ∀ before l after, ls = before ++ l :: after → endsInSemicolon l = true →
    (text ++ Text.unlines (before ++ [l])).foldl quoteAfter none = none ∨
      Text.isBlankText (Text.unlines after) = true

theorem endsUnquoted_cons {text l : List Char} {ls : List (List Char)} :
    EndsUnquoted text (l :: ls) ↔
      (endsInSemicolon l = true → (text ++ (l ++ ['\n'])).foldl quoteAfter none = none ∨
        Text.isBlankText (Text.unlines ls) = true) ∧ EndsUnquoted (text ++ (l ++ ['\n'])) ls := by
  constructor
  · intro h
    have hfirst := h [] l ls rfl
    rw [List.nil_append, Text.unlines_singleton] at hfirst
    refine ⟨hfirst, ?_⟩
    intro before m after hls hm
    have hbehind := h (l :: before) m after (congrArg (l :: ·) hls) hm
    rwa [List.cons_append, Text.append_unlines_cons] at hbehind
  · rintro ⟨hfirst, hrest⟩ before m after hls hm
    cases before with
    | nil =>
      obtain ⟨rfl, rfl⟩ := List.cons.inj hls
      rw [List.nil_append, Text.unlines_singleton]
      exact hfirst hm
    | cons k before =>
      rw [List.cons_append] at hls
      obtain ⟨rfl, hbehind⟩ := List.cons.inj hls
      rw [List.cons_append, Text.append_unlines_cons]
      exact hrest before m after hbehind hm

/-- All that matters of the text in front is the quote that it leaves open. -/
theorem endsUnquoted_congr {text text' : List Char} {ls : List (List Char)}
    (h : text.foldl quoteAfter none = text'.foldl quoteAfter none) :
    EndsUnquoted text ls ↔ EndsUnquoted text' ls := by
  simp only [EndsUnquoted, List.foldl_append, h]

/-- A line that ends in a semicolon is not blank. -/
theorem isBlankText_of_endsInSemicolon {l : List Char} (h : endsInSemicolon l = true) :
    Text.isBlankText l = false := by
  obtain ⟨front, blanks, rfl, -⟩ := Text.exists_of_getLast?_trimEnd (beq_iff_eq.mp h)
  rw [Text.isBlankText_append, Bool.and_eq_false_iff]
  exact .inr rfl

theorem isBlankText_unlines_cons {l : List Char} {ls : List (List Char)} :
    Text.isBlankText (Text.unlines (l :: ls)) = true ↔
      Text.isBlankText l = true ∧ Text.isBlankText (Text.unlines ls) = true := by
  rw [Text.unlines_cons, Text.isBlankText_append, Bool.and_eq_true]
  rfl

theorem not_endsInSemicolon_of_blank {l : List Char} (h : Text.isBlankText l = true) :
    endsInSemicolon l = false := by
  rw [Bool.eq_false_iff]
  intro hl
  rw [isBlankText_of_endsInSemicolon hl] at h
  cases h

theorem endsUnquoted_of_blank (text : List Char) {ls : List (List Char)}
    (h : Text.isBlankText (Text.unlines ls) = true) : EndsUnquoted text ls := by
  induction ls generalizing text with
  | nil =>
    intro before l after hls
    exact absurd hls.symm (List.append_ne_nil_of_right_ne_nil before (List.cons_ne_nil l after))
  | cons l ls ih =>
    obtain ⟨-, hls⟩ := isBlankText_unlines_cons.mp h
    exact endsUnquoted_cons.mpr ⟨fun _ => .inr hls, ih _ hls⟩

/-- Blank lines hold no statements. -/
theorem typed_blank (pending : List Char) {ls : List (List Char)}
    (h : Text.isBlankText (Text.unlines ls) = true) : typed pending ls = found pending := by
  induction ls generalizing pending with
  | nil => rfl
  | cons l ls ih =>
    obtain ⟨hl, hls⟩ := isBlankText_unlines_cons.mp h
    have hline : Text.isBlankText (l ++ ['\n']) = true := by
      rw [Text.isBlankText_append, hl]
      rfl
    rw [typed, if_neg (by rw [not_endsInSemicolon_of_blank hl]; exact Bool.false_ne_true),
      ih _ hls, found_append_blank _ hline]

instance decidableEndsUnquoted : ∀ text ls, Decidable (EndsUnquoted text ls)
  | text, [] => isTrue (endsUnquoted_of_blank text rfl)
  | text, l :: ls =>
    have := decidableEndsUnquoted (text ++ (l ++ ['\n'])) ls
    decidable_of_iff _ endsUnquoted_cons.symm

/-- **Taken line by line, a script has the statements that it has as a whole exactly if no line
ends in a quoted semicolon** in front of something that is not blank. -/
theorem typed_eq_found_iff (pending : List Char) (ls : List (List Char)) :
    typed pending ls = found (pending ++ Text.unlines ls) ↔ EndsUnquoted pending ls := by
  induction ls generalizing pending with
  | nil =>
    have hnil : pending ++ Text.unlines [] = pending := List.append_nil pending
    rw [typed, hnil]
    exact ⟨fun _ => endsUnquoted_of_blank pending rfl, fun _ => rfl⟩
  | cons l ls ih =>
    rw [typed, Text.append_unlines_cons, endsUnquoted_cons]
    cases hl : endsInSemicolon l with
    | false =>
      simp only [Bool.false_eq_true, ↓reduceIte, false_implies, true_and]
      exact ih (pending ++ (l ++ ['\n']))
    | true =>
      simp only [↓reduceIte, true_implies]
      obtain ⟨front, blanks, rfl, hblanks⟩ :=
        Text.exists_of_getLast?_trimEnd (beq_iff_eq.mp hl)
      have hline : Text.isBlankText (blanks ++ ['\n']) = true := by
        rw [Text.isBlankText_append, hblanks]
        rfl
      have hends : pending ++ (front ++ ';' :: blanks ++ ['\n']) =
          (pending ++ front) ++ ';' :: (blanks ++ ['\n']) := by
        simp only [List.append_assoc, List.cons_append]
      rw [hends, foldl_semicolon hline]
      cases hquote : (pending ++ front).foldl quoteAfter none with
      | none =>
        have hnone := (foldl_semicolon hline).trans hquote
        rw [found_append_of_closed hline hquote, List.append_right_inj,
          endsUnquoted_congr (hnone.trans List.foldl_nil.symm)]
        exact (ih []).trans (and_iff_right (.inl rfl)).symm
      | some q =>
        by_cases hblank : Text.isBlankText (Text.unlines ls) = true
        · rw [typed_blank [] hblank, found_append_blank _ hblank]
          have hnothing : found [] = [] := found_blank rfl
          rw [hnothing, List.append_nil]
          exact ⟨fun _ => ⟨.inr hblank, endsUnquoted_of_blank _ hblank⟩, fun _ => rfl⟩
        · have hdiffer := found_append_ne hline hquote (Bool.eq_false_iff.mpr hblank) (typed [] ls)
          refine ⟨fun heq => absurd heq.symm hdiffer, ?_⟩
          rintro ⟨hnone | hls, -⟩
          · cases hnone
          · exact absurd hls hblank

end Script

/-! ### Sessions -/

namespace Session

variable {σ : Type}

section Lines

variable (fileText : String → Except String String)

section Line

variable {l : List Char} (h : (Text.trimStart l).head? ≠ some '.') (pending : String)

include h

theorem isCommand_of_head : isCommand pending (String.ofList l) = false := by
  rw [isCommand, String.toList_ofList, Bool.and_eq_false_iff]
  exact .inr (beq_eq_false_iff_ne.mpr h)

theorem leaves_of_head : leaves pending (String.ofList l) = false := by
  rw [leaves, isCommand_of_head h, Bool.false_and]

theorem pendingAfter_of_head : pendingAfter pending (String.ofList l) =
    if Script.endsInSemicolon l then "" else pending ++ line (String.ofList l) := by
  rw [pendingAfter, isCommand_of_head h, endsStatement, String.toList_ofList]
  rfl

/-- The acts that a line asks for if it is no command. -/
theorem actsOfLine_of_head : actsOfLine fileText pending (String.ofList l) =
    .collect (pendingAfter pending (String.ofList l)) ::
      if Script.endsInSemicolon l then actsOfScript (pending ++ line (String.ofList l))
      else [] := by
  rw [actsOfLine, isCommand_of_head h, endsStatement, String.toList_ofList]
  rfl

end Line

variable {ls : List (List Char)} (hls : ∀ l ∈ ls, (Text.trimStart l).head? ≠ some '.')

include hls

/-- An input without commands obeys none. -/
theorem obey_not_mem_actsOfInput (wanted : Bool) (pending : String) (command : Command)
    (h : command.script? = none) :
    .obey command h ∉ actsOfInput fileText wanted pending (ls.map String.ofList) := by
  induction ls generalizing pending with
  | nil =>
    rw [List.map_nil, actsOfInput]
    split
    · simp
    · simpa using obey_not_mem_actsOfScript pending command h
  | cons l ls ih =>
    have hl := hls l List.mem_cons_self
    have hrest := ih fun m hm => hls m (List.mem_cons_of_mem l hm)
    rw [List.map_cons, actsOfInput, actsOfLine_of_head fileText hl, leaves_of_head hl]
    split
    · simpa using ⟨obey_not_mem_actsOfScript _ command h, hrest _⟩
    · simpa using hrest _

/-- The statements of an input without commands. -/
theorem statements_actsOfInput (wanted : Bool) (pending : String) :
    (actsOfInput fileText wanted pending (ls.map String.ofList)).filterMap Act.statement? =
      (Script.typed pending.toList ls).map String.ofList := by
  induction ls generalizing pending with
  | nil =>
    rw [List.map_nil, actsOfInput, Script.typed]
    split
    · next hblank =>
      rw [Script.found_blank hblank]
      rfl
    · exact statements_actsOfScript pending
  | cons l ls ih =>
    have hl := hls l List.mem_cons_self
    have hrest := ih fun m hm => hls m (List.mem_cons_of_mem l hm)
    have htext : (pending ++ line (String.ofList l)).toList = pending.toList ++ (l ++ ['\n']) := by
      rw [String.toList_append, line, String.toList_append, String.toList_ofList]
      rfl
    rw [List.map_cons, actsOfInput, actsOfLine_of_head fileText hl, leaves_of_head hl,
      pendingAfter_of_head hl, Script.typed, ← htext]
    cases Script.endsInSemicolon l with
    | true =>
      have hfound : (actsOfScript (pending ++ line (String.ofList l))).filterMap Act.statement? =
          (Script.found (pending ++ line (String.ofList l)).toList).map String.ofList :=
        statements_actsOfScript _
      have hmore : _ = (Script.typed [] ls).map String.ofList := hrest ""
      simp only [↓reduceIte, Bool.false_eq_true, List.map_append, ← hfound, ← hmore]
      exact List.filterMap_append
    | false => exact hrest (pending ++ line (String.ofList l))

end Lines

/-- **A session that is fed a text executes what it would execute reading the text from a file
exactly if no line ends in a quoted semicolon** in front of something that is not blank.  The text
has no carriage returns, and no line of it begins like a command. -/
theorem executed_run_iff (console : Console σ) (s : Session (Recorded σ))
    (hpending : s.pending = "") {path text : String} (hfile : console.fileText path = .ok text)
    (hreturn : '\r' ∉ text.toList)
    (hhead : ∀ l ∈ Text.lines text.toList, (Text.trimStart l).head? ≠ some '.') :
    (run console.recording s text).session.store.executed =
        (perform console.recording s (.read (some path))).session.store.executed ↔
      Script.EndsUnquoted [] (Text.lines text.toList) := by
  have hrun : (run console.recording s text).session.store.executed = s.store.executed ++
      (Script.typed [] (Text.lines text.toList)).map String.ofList := by
    have hacts := statements_actsOfInput console.fileText hhead console.prompt ""
    obtain ⟨hsession, -⟩ := Prod.mk.inj (outcome_feedAll console.recording s
      ((Text.lines text.toList).map String.ofList))
    rw [hpending] at hsession
    rw [run, hsession]
    refine (executed_inTurn console s (obey_not_mem_actsOfInput _ hhead console.prompt "")).trans ?_
    exact congrArg (s.store.executed ++ ·) hacts
  have hread : (perform console.recording s (.read (some path))).session.store.executed =
      s.store.executed ++ (Script.found text.toList).map String.ofList := by
    have hperform : perform console.recording s (.read (some path)) =
        runScript console.recording s text := by
      have hrecording : console.recording.fileText path = .ok text := hfile
      rw [perform, runFile, hrecording]
    rw [hperform, runScript_eq, executed_inTurn console s (obey_not_mem_actsOfScript text),
      statements_actsOfScript, Script.statements_eq_found]
  have hwhole : Script.found ([] ++ Text.unlines (Text.lines text.toList)) =
      Script.found text.toList := by
    rcases Text.unlines_lines hreturn with hlines | hlines
    · exact congrArg Script.found hlines
    · exact (congrArg Script.found hlines).trans (Script.found_append_blank _ rfl)
  rw [hrun, hread, List.append_right_inj,
    List.map_inj_right fun _ _ => String.ofList_injective, ← hwhole]
  exact Script.typed_eq_found_iff [] _

/-- The statements that are executed when a session with an empty shelf is fed a text. -/
def executedFed (text : String) : List String :=
  let s : Session Shelf := { store := {}, preferences := {} }
  (run (Console.onShelf fun _ => .ok text).recording s.record text).session.store.executed

/-- The statements that are executed when it reads the text from a file. -/
def executedRead (text : String) : List String :=
  let s : Session Shelf := { store := {}, preferences := {} }
  (perform (Console.onShelf fun _ => .ok text).recording s.record
    (.read (some "f.sql"))).session.store.executed

/-- A quoted semicolon does no harm within a line, and at its end it does. -/
theorem executed_run_iff_quotedSemicolon :
    executedFed "SELECT a\nFROM t; SELECT ';' AS s;\nSELECT b" =
      executedRead "SELECT a\nFROM t; SELECT ';' AS s;\nSELECT b" ∧
    executedFed "SELECT 'a;\nb' AS s;\n" = ["SELECT 'a;", "b' AS s;"] ∧
    executedRead "SELECT 'a;\nb' AS s;\n" = ["SELECT 'a;\nb' AS s;"] ∧
    executedFed "SELECT 'a;\nb' AS s;\n" ≠ executedRead "SELECT 'a;\nb' AS s;\n" := by
  have hiff (text : String) (hreturn : '\r' ∉ text.toList)
      (hhead : ∀ l ∈ Text.lines text.toList, (Text.trimStart l).head? ≠ some '.') :
      executedFed text = executedRead text ↔ Script.EndsUnquoted [] (Text.lines text.toList) :=
    executed_run_iff (Console.onShelf fun _ => .ok text) _ rfl rfl hreturn hhead
  refine ⟨?_, by decide +kernel, by decide +kernel, ?_⟩
  · exact (hiff _ (by decide) (by decide +kernel)).mpr (by decide +kernel)
  · intro heq
    exact absurd ((hiff _ (by decide) (by decide +kernel)).mp heq) (by decide +kernel)

end Session

end QueryTrace
