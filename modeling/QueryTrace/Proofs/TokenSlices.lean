/-
The tokens of a text as parts of the text.

A token is a bare string, which does not say where in the text it is from.  This file gives each
token its place.

* `openQuote` — the quote that is open behind a text, told character by character;
* `Slice` — a stretch of a text, between what is in front of it and what is behind it;
* `Slice.IsToken` — the slices that are one special character, one run of other characters that goes
  as far as it can, or the text behind an opening quote;
* `Placed` — slices that are tokens, in order and without overlap, between two places of a text, and
  that leave out nothing there but blanks outside of quotes;
* **`scan_slices`** — the tokens of a text are such slices of the whole text.

Design notes: the content between two quotes may be empty.  It covers no character then, so that
there is such a token is said apart from what the tokens cover.
-/
import QueryTrace.Proofs.Scanning

namespace QueryTrace.Token

/-! ### Open quotes -/

/-- The open quote after one more character, if any. -/
def quoteStep : Option Char → Char → Option Char
  | some q, c => if c = q then none else some q
  | none, c => if quotes.contains c then some c else none

/-- The quote that is open behind the text, if any. -/
def openQuote (cs : List Char) : Option Char :=
  cs.foldl quoteStep none

section OpenQuote

variable {before cs : List Char} (h : openQuote before = none)

include h

theorem openQuote_plain (hcs : ∀ c ∈ cs, quotes.contains c = false) :
    openQuote (before ++ cs) = none := by
  rw [openQuote, List.foldl_append, ← openQuote, h]
  induction cs with
  | nil => rfl
  | cons c cs ih =>
    have hc : quoteStep none c = none := by
      rw [quoteStep, hcs c List.mem_cons_self]
      rfl
    rw [List.foldl_cons, hc]
    exact ih fun d hd => hcs d (List.mem_cons_of_mem c hd)

/-- A quote is open from where it stands first to where it stands again. -/
theorem openQuote_opening {q : Char} (hq : quotes.contains q = true) (hcs : q ∉ cs) :
    openQuote (before ++ q :: cs) = some q := by
  have hfirst : quoteStep none q = some q := if_pos hq
  rw [openQuote, List.foldl_append, ← openQuote, h, List.foldl_cons, hfirst]
  induction cs with
  | nil => rfl
  | cons c cs ih =>
    rw [List.mem_cons, not_or] at hcs
    have hc : quoteStep (some q) c = some q := if_neg (Ne.symm hcs.1)
    rw [List.foldl_cons, hc]
    exact ih hcs.2

theorem openQuote_quoted {q : Char} (hq : quotes.contains q = true) (hcs : q ∉ cs) :
    openQuote (before ++ q :: cs ++ [q]) = none := by
  have hopen := openQuote_opening h hq hcs
  rw [openQuote] at hopen
  rw [openQuote, List.foldl_append, hopen]
  exact if_pos rfl

end OpenQuote

/-! ### Slices -/

/-- A stretch of the text, between what is in front of it and what is behind it. -/
structure Slice (text : List Char) where
  before : List Char
  piece : List Char
  behind : List Char
  spells : before ++ (piece ++ behind) = text

namespace Slice

variable {text : List Char}

/-- The place where the slice begins. -/
def start (s : Slice text) : Nat :=
  s.before.length

/-- The place behind the slice. -/
def stop (s : Slice text) : Nat :=
  s.before.length + s.piece.length

/-- The slice as a token. -/
def token (s : Slice text) : Token :=
  String.ofList s.piece

/-- Is the character at this place in the slice? -/
def Covers (s : Slice text) (n : Nat) : Prop :=
  s.start ≤ n ∧ n < s.stop

/-- The first slice ends before the second begins, and they are not the same empty slice. -/
def Precedes (s t : Slice text) : Prop :=
  s.stop ≤ t.start ∧ s.start < t.stop

/-- One special character: a mark or a quote outside of quotes, or the quote that closes another. -/
def IsSpecial (s : Slice text) : Prop :=
  ∃ c, s.piece = [c] ∧
    (openQuote s.before = none ∧ (marks.contains c = true ∨ quotes.contains c = true) ∨
      openQuote s.before = some c)

/-- Characters outside of quotes that are neither special nor blank, and all of them that there are
in a row. -/
structure IsRun (s : Slice text) : Prop where
  outside : openQuote s.before = none
  ne_nil : s.piece ≠ []
  word : ∀ c ∈ s.piece, isWordChar c = true
  begins : ∀ c ∈ s.before.getLast?, isWordChar c = false
  ends : ∀ c ∈ s.behind.head?, isWordChar c = false

/-- The text behind an opening quote, up to the next quote of its kind or, if there is none, to the
end. -/
def IsContent (s : Slice text) : Prop :=
  ∃ front q, s.before = front ++ [q] ∧ openQuote front = none ∧ quotes.contains q = true ∧
    q ∉ s.piece ∧ (s.behind.head? = some q ∨ s.behind = [])

/-- The three kinds of token. -/
def IsToken (s : Slice text) : Prop :=
  s.IsSpecial ∨ s.IsRun ∨ s.IsContent

theorem mem_of_covers (s : Slice text) {front back : List Char} {c : Char}
    (ht : front ++ c :: back = text) (hc : s.Covers front.length) : c ∈ s.piece := by
  obtain ⟨hstart, hstop⟩ := hc
  have hget : text[front.length]? = some c := by
    rw [← ht, List.getElem?_append_right (Nat.le_refl _), Nat.sub_self]
    rfl
  have hin : front.length - s.before.length < s.piece.length := by
    rw [start] at hstart
    rw [stop] at hstop
    omega
  rw [← s.spells, List.getElem?_append_right hstart, List.getElem?_append_left hin] at hget
  exact List.mem_of_getElem? hget

end Slice

variable {text : List Char}

/-- A blank outside of quotes, behind the text in front of it. -/
def IsGap (front : List Char) (c : Char) : Prop :=
  Text.isBlank c = true ∧ openQuote front = none

/-! ### Tokens in their places -/

/-- Between the two places of the text the slices are the tokens: each is a token, they are in order
and do not overlap, just the gaps are left out, and no content is missing. -/
structure Placed (start stop : Nat) (slices : List (Slice text)) : Prop where
  ordered : slices.Pairwise Slice.Precedes
  inside : ∀ s ∈ slices, start ≤ s.start ∧ start < s.stop ∧ s.stop ≤ stop
  covered : ∀ front c back, front ++ c :: back = text → start ≤ front.length →
    front.length < stop → ((∃ s ∈ slices, s.Covers front.length) ↔ ¬ IsGap front c)
  tokens : ∀ s ∈ slices, s.IsToken
  contents : ∀ front q back, front ++ q :: back = text → start ≤ front.length →
    front.length < stop → openQuote front = none → quotes.contains q = true →
      ∃ s ∈ slices, s.before = front ++ [q] ∧ s.IsContent

theorem placed_nil (n : Nat) : Placed n n ([] : List (Slice text)) where
  ordered := .nil
  inside _ hs := nomatch hs
  covered front _ _ _ hle hlt := by omega
  tokens _ hs := nomatch hs
  contents front _ _ _ hle hlt := by omega

/-- What is placed up to a place and what is placed from there on. -/
theorem Placed.append {a b c : Nat} {xs ys : List (Slice text)} (hab : a ≤ b) (hbc : b ≤ c)
    (hx : Placed a b xs) (hy : Placed b c ys) : Placed a c (xs ++ ys) where
  ordered := by
    refine List.pairwise_append.mpr ⟨hx.ordered, hy.ordered, fun s hs t ht => ?_⟩
    obtain ⟨-, -, hstop⟩ := hx.inside s hs
    obtain ⟨hstart, hlt, -⟩ := hy.inside t ht
    have hle : s.start ≤ s.stop := Nat.le_add_right _ _
    exact ⟨by omega, by omega⟩
  inside s hs := by
    rcases List.mem_append.mp hs with hs | hs
    · obtain ⟨hstart, hlt, hstop⟩ := hx.inside s hs
      omega
    · obtain ⟨hstart, hlt, hstop⟩ := hy.inside s hs
      omega
  covered front d back ht hle hlt := by
    rcases Nat.lt_or_ge front.length b with hb | hb
    · rw [← hx.covered front d back ht hle hb]
      refine ⟨fun ⟨s, hs, hcovers⟩ => ?_, fun ⟨s, hs, hcovers⟩ =>
        ⟨s, List.mem_append_left _ hs, hcovers⟩⟩
      rcases List.mem_append.mp hs with hs | hs
      · exact ⟨s, hs, hcovers⟩
      · have hstart := (hy.inside s hs).1
        have hcov := hcovers.1
        omega
    · rw [← hy.covered front d back ht hb hlt]
      refine ⟨fun ⟨s, hs, hcovers⟩ => ?_, fun ⟨s, hs, hcovers⟩ =>
        ⟨s, List.mem_append_right _ hs, hcovers⟩⟩
      rcases List.mem_append.mp hs with hs | hs
      · have hstop := (hx.inside s hs).2.2
        have hcov := hcovers.2
        omega
      · exact ⟨s, hs, hcovers⟩
  tokens s hs := by
    rcases List.mem_append.mp hs with hs | hs
    · exact hx.tokens s hs
    · exact hy.tokens s hs
  contents front q back ht hle hlt hopen hq := by
    rcases Nat.lt_or_ge front.length b with hb | hb
    · obtain ⟨s, hs, hcontent⟩ := hx.contents front q back ht hle hb hopen hq
      exact ⟨s, List.mem_append_left _ hs, hcontent⟩
    · obtain ⟨s, hs, hcontent⟩ := hy.contents front q back ht hb hlt hopen hq
      exact ⟨s, List.mem_append_right _ hs, hcontent⟩

/-- What stands at the place behind a text. -/
theorem eq_of_length {front before back rest : List Char} {c d : Char}
    (h : front ++ c :: back = text) (ht : before ++ d :: rest = text)
    (hle : before.length ≤ front.length) (hlt : front.length < before.length + 1) :
    front = before ∧ c = d := by
  obtain ⟨hfront, hrest⟩ := List.append_inj (h.trans ht.symm) (by omega)
  exact ⟨hfront, (List.cons.inj hrest).1⟩

/-- A blank outside of quotes is left out. -/
theorem placed_blank {before rest : List Char} {c : Char} (ht : before ++ c :: rest = text)
    (hopen : openQuote before = none) (hc : Text.isBlank c = true) :
    Placed before.length (before.length + 1) ([] : List (Slice text)) where
  ordered := .nil
  inside _ hs := nomatch hs
  covered front d back h hle hlt := by
    obtain ⟨rfl, rfl⟩ := eq_of_length h ht hle hlt
    exact iff_of_false (fun ⟨_, hs, _⟩ => nomatch hs) fun hgap => hgap ⟨hc, hopen⟩
  tokens _ hs := nomatch hs
  contents front q back h hle hlt _ hq := by
    obtain ⟨rfl, rfl⟩ := eq_of_length h ht hle hlt
    rw [isBlank_of_quote hq] at hc
    cases hc

/-- A token in which no blank or quote stands outside of quotes. -/
theorem placed_one {s : Slice text} (hs : s.IsToken) (hne : s.piece ≠ [])
    (hplain : ∀ front c back, front ++ c :: back = text → s.Covers front.length →
      openQuote front = none → Text.isBlank c = false ∧ quotes.contains c = false) :
    Placed s.start s.stop [s] where
  ordered := List.pairwise_singleton _ _
  inside t ht := by
    obtain rfl := List.mem_singleton.mp ht
    have hpos := List.length_pos_iff.mpr hne
    refine ⟨Nat.le_refl _, ?_, Nat.le_refl _⟩
    rw [Slice.start, Slice.stop]
    omega
  covered front c back ht hle hlt := by
    refine iff_of_true ⟨s, List.mem_singleton_self s, hle, hlt⟩ fun ⟨hblank, hopen⟩ => ?_
    rw [(hplain front c back ht ⟨hle, hlt⟩ hopen).1] at hblank
    cases hblank
  tokens t ht := by
    obtain rfl := List.mem_singleton.mp ht
    exact hs
  contents front q back ht hle hlt hopen hq := by
    rw [(hplain front q back ht ⟨hle, hlt⟩ hopen).2] at hq
    cases hq

section Quoted

variable {before content rest : List Char} {q : Char} (hopen : openQuote before = none)
  (hq : quotes.contains q = true) (hcontent : q ∉ content)

include hopen hq hcontent

/-- From the opening quote on that quote is open, up to the end of its content. -/
theorem openQuote_of_inside {front back : List Char} {c : Char} (h : front ++ c :: back = text)
    (ht : before ++ q :: (content ++ rest) = text) (hlt : before.length < front.length)
    (hle : front.length ≤ before.length + 1 + content.length) : openQuote front = some q := by
  have hfront : front = text.take front.length := by
    rw [← h, List.take_left]
  have hinside : text.take front.length =
      before ++ q :: content.take (front.length - before.length - 1) := by
    obtain ⟨n, hn⟩ : ∃ n, front.length = before.length + (n + 1) :=
      ⟨front.length - before.length - 1, by omega⟩
    have hlen : n ≤ content.length := by omega
    rw [hn, ← ht, List.take_length_add_append, List.take_succ_cons,
      List.take_append_of_le_length hlen, Nat.add_sub_cancel_left, Nat.add_sub_cancel]
  rw [hfront, hinside]
  exact openQuote_opening hopen hq fun hmem => hcontent (List.mem_of_mem_take hmem)

/-- An opening quote and the text behind it. -/
theorem placed_content (ht : before ++ q :: (content ++ rest) = text)
    (hrest : rest.head? = some q ∨ rest = []) :
    ∃ slices : List (Slice text),
      slices.map Slice.token = [q.toString, String.ofList content] ∧
      Placed before.length (before.length + 1 + content.length) slices := by
  let opening : Slice text := ⟨before, [q], content ++ rest, ht⟩
  let inner : Slice text := ⟨before ++ [q], content, rest, by rw [List.append_assoc]; exact ht⟩
  have hinner : inner.IsContent := ⟨before, q, rfl, hopen, hq, hcontent, hrest⟩
  have hstart : inner.start = before.length + 1 := List.length_append
  have hstop : inner.stop = before.length + 1 + content.length :=
    congrArg (· + content.length) hstart
  have hfirst : opening.start = before.length ∧ opening.stop = before.length + 1 := ⟨rfl, rfl⟩
  -- only at the opening quote no quote is open
  have hplace : ∀ {front back : List Char} {c : Char}, front ++ c :: back = text →
      before.length ≤ front.length → front.length < before.length + 1 + content.length →
      openQuote front = none → front = before ∧ c = q := by
    intro front back c h hle hlt hnone
    rcases Nat.lt_or_ge before.length front.length with hin | hout
    · rw [openQuote_of_inside hopen hq hcontent h ht hin (by omega)] at hnone
      cases hnone
    · exact eq_of_length h ht hle (by omega)
  refine ⟨[opening, inner], rfl, ⟨?ordered, ?inside, ?covered, ?tokens, ?contents⟩⟩
  case ordered => exact List.pairwise_pair.mpr ⟨by omega, by omega⟩
  case inside =>
    exact List.forall_mem_cons.mpr ⟨by omega, List.forall_mem_singleton.mpr (by omega)⟩
  case covered =>
    intro front c back h hle hlt
    refine iff_of_true ?_ fun ⟨hblank, hnone⟩ => ?_
    · rcases Nat.lt_or_ge front.length (before.length + 1) with hb | hb
      · exact ⟨opening, List.mem_cons_self, by omega, by omega⟩
      · exact ⟨inner, List.mem_cons_of_mem _ List.mem_cons_self, by omega, by omega⟩
    · obtain ⟨-, rfl⟩ := hplace h hle hlt hnone
      rw [isBlank_of_quote hq] at hblank
      cases hblank
  case tokens =>
    have hspecial : opening.IsSpecial := ⟨q, rfl, .inl ⟨hopen, .inr hq⟩⟩
    exact List.forall_mem_cons.mpr
      ⟨.inl hspecial, List.forall_mem_singleton.mpr (.inr (.inr hinner))⟩
  case contents =>
    intro front c back h hle hlt hnone _
    obtain ⟨rfl, rfl⟩ := hplace h hle hlt hnone
    exact ⟨inner, List.mem_cons_of_mem _ List.mem_cons_self, rfl, hinner⟩

/-- The closing quote behind the text. -/
theorem placed_closing (ht : before ++ q :: (content ++ q :: rest) = text) :
    ∃ s : Slice text, s.token = q.toString ∧
      Placed (before.length + 1 + content.length) (before.length + (content.length + 2)) [s] := by
  let closing : Slice text :=
    ⟨before ++ q :: content, [q], rest, by rw [List.append_assoc]; exact ht⟩
  have hstart : closing.start = before.length + 1 + content.length := by
    rw [Slice.start, List.length_append, List.length_cons]
    omega
  have hstop : closing.stop = before.length + (content.length + 2) := by
    rw [Slice.stop, ← Slice.start, hstart, List.length_singleton]
    omega
  have hopened : openQuote closing.before = some q := openQuote_opening hopen hq hcontent
  have hspecial : closing.IsSpecial := ⟨q, rfl, .inr hopened⟩
  refine ⟨closing, rfl, ?_⟩
  rw [← hstart, ← hstop]
  refine placed_one (.inl hspecial) (List.cons_ne_nil q []) fun front c back h hc hnone => ?_
  obtain ⟨hle, hlt⟩ := hc
  have hinside := openQuote_of_inside hopen hq hcontent h ht (by omega) (by omega)
  rw [hnone] at hinside
  cases hinside

end Quoted

/-! ### Whole texts -/

section Lexemes

variable {l : Lexeme} {ls : List Lexeme} {before : List Char} (h : Lexed (l :: ls))

include h

/-- Behind a lexeme no quote is open, unless nothing is behind it. -/
theorem Lexed.openQuote_text (hopen : openQuote before = none) :
    ls = [] ∨ openQuote (before ++ l.text) = none := by
  cases h with
  | @blank c _ hc _ =>
    refine .inr (openQuote_plain hopen fun d hd => ?_)
    obtain rfl := List.mem_singleton.mp hd
    exact not_quote_of_isBlank hc
  | @mark c _ hc _ =>
    refine .inr (openQuote_plain hopen fun d hd => ?_)
    obtain rfl := List.mem_singleton.mp hd
    exact not_quote_of_mark hc
  | word _ hcs _ _ =>
    exact .inr (openQuote_plain hopen fun d hd => not_quote_of_isWordChar (hcs d hd))
  | @quoted q content _ hq hmem _ =>
    have hclosed := openQuote_quoted hopen hq hmem
    rw [List.append_assoc] at hclosed
    exact .inr hclosed
  | unclosed _ _ => exact .inl rfl

/-- A word touches nothing that could be a part of it. -/
theorem Lexed.getLast?_text (hword : ∃ ds, ls.head? = some (.word ds)) :
    ∀ c ∈ (before ++ l.text).getLast?, isWordChar c = false := by
  have hend : ∀ {cs : List Char} {d : Char}, isWordChar d = false →
      ∀ c ∈ (cs ++ [d]).getLast?, isWordChar c = false := by
    intro cs d hd c hc
    rw [List.getLast?_concat] at hc
    cases hc
    exact hd
  cases h with
  | blank hc _ => exact hend (isWordChar_of_isBlank hc)
  | mark hc _ => exact hend (isWordChar_of_mark hc)
  | word _ _ hn _ =>
    obtain ⟨ds, hds⟩ := hword
    exact (hn ds hds).elim
  | @quoted q content _ hq _ _ =>
    rw [Lexeme.text, ← List.append_assoc]
    exact hend (isWordChar_of_quote hq)
  | unclosed _ _ =>
    obtain ⟨ds, hds⟩ := hword
    cases hds

/-- **The tokens of a lexeme are in their places.** -/
theorem Lexed.placed_head (ht : before ++ (l.text ++ ls.flatMap Lexeme.text) = text)
    (hopen : openQuote before = none)
    (hfirst : (∃ ds, l = .word ds) → ∀ c ∈ before.getLast?, isWordChar c = false) :
    ∃ slices : List (Slice text), slices.map Slice.token = l.tokens ∧
      Placed before.length (before.length + l.text.length) slices := by
  cases h with
  | blank hc _ => exact ⟨[], rfl, placed_blank ht hopen hc⟩
  | @mark c _ hc _ =>
    let special : Slice text := ⟨before, [c], ls.flatMap Lexeme.text, ht⟩
    have hmark : special.IsSpecial := ⟨c, rfl, .inl ⟨hopen, .inl hc⟩⟩
    refine ⟨[special], rfl, placed_one (.inl hmark) (List.cons_ne_nil c []) ?_⟩
    intro front d back hd hcovers _
    obtain rfl := List.mem_singleton.mp (special.mem_of_covers hd hcovers)
    exact ⟨isBlank_of_mark hc, not_quote_of_mark hc⟩
  | @word cs _ hne hcs hn hls =>
    let run : Slice text := ⟨before, cs, ls.flatMap Lexeme.text, ht⟩
    have hrun : run.IsRun := ⟨hopen, hne, hcs, hfirst ⟨cs, rfl⟩, hls.breaks hn⟩
    refine ⟨[run], rfl, placed_one (.inr (.inl hrun)) hne ?_⟩
    intro front d back hd hcovers _
    have hw := hcs d (run.mem_of_covers hd hcovers)
    exact ⟨isBlank_of_isWordChar hw, not_quote_of_isWordChar hw⟩
  | @quoted q content _ hq hmem _ =>
    have ht : before ++ q :: (content ++ q :: ls.flatMap Lexeme.text) = text := by
      rw [← ht]
      simp [Lexeme.text]
    obtain ⟨slices, htokens, hplaced⟩ := placed_content hopen hq hmem ht (.inl rfl)
    obtain ⟨closing, hclosing, hplaced'⟩ := placed_closing hopen hq hmem ht
    have hlength : (Lexeme.quoted q content).text.length = content.length + 2 := by
      simp [Lexeme.text]
    rw [hlength]
    refine ⟨slices ++ [closing], ?_, hplaced.append (by omega) (by omega) hplaced'⟩
    rw [List.map_append, htokens, List.map_singleton, hclosing]
    rfl
  | @unclosed q content hq hmem =>
    have ht : before ++ q :: (content ++ []) = text := ht
    obtain ⟨slices, htokens, hplaced⟩ := placed_content hopen hq hmem ht (.inr rfl)
    have hlength : before.length + (Lexeme.unclosed q content).text.length =
        before.length + 1 + content.length := by
      rw [Lexeme.text, List.length_cons]
      omega
    exact ⟨slices, htokens, hlength ▸ hplaced⟩

end Lexemes

/-- From a place outside of quotes on, the tokens of the lexemes are in their places. -/
theorem Lexed.exists_placed {ls : List Lexeme} (h : Lexed ls) {before : List Char}
    (ht : before ++ ls.flatMap Lexeme.text = text) (hopen : openQuote before = none)
    (hfirst : (∃ ds, ls.head? = some (.word ds)) → ∀ c ∈ before.getLast?, isWordChar c = false) :
    ∃ slices : List (Slice text), slices.map Slice.token = ls.flatMap Lexeme.tokens ∧
      Placed before.length text.length slices := by
  induction ls generalizing before with
  | nil =>
    rw [List.flatMap_nil, List.append_nil] at ht
    exact ⟨[], rfl, ht ▸ placed_nil before.length⟩
  | cons l ls ih =>
    rw [List.flatMap_cons] at ht
    have hlength : (before ++ l.text).length = before.length + l.text.length := List.length_append
    obtain ⟨slices, htokens, hplaced⟩ := h.placed_head ht hopen fun ⟨ds, hds⟩ =>
      hfirst ⟨ds, congrArg some hds⟩
    obtain ⟨more, hmore, hplaced'⟩ : ∃ slices : List (Slice text),
        slices.map Slice.token = ls.flatMap Lexeme.tokens ∧
          Placed (before.length + l.text.length) text.length slices := by
      rw [← List.append_assoc] at ht
      rcases h.openQuote_text hopen with rfl | hclosed
      · rw [List.flatMap_nil, List.append_nil] at ht
        rw [← hlength, ht]
        exact ⟨[], rfl, placed_nil _⟩
      · rw [← hlength]
        exact ih h.tail ht hclosed h.getLast?_text
    have hle : before.length + l.text.length ≤ text.length := by
      rw [← ht, List.length_append, List.length_append]
      omega
    refine ⟨slices ++ more, ?_, hplaced.append (by omega) hle hplaced'⟩
    rw [List.map_append, htokens, hmore, List.flatMap_cons]

/-- **Scanning loses and invents nothing.**  The tokens of a text are slices of it, in order and
without overlap.  The characters in none of them are the blanks outside of quotes.  Each is one
special character, or as long a run as there can be of characters that are neither special nor
blank, or the text from an opening quote to the next quote of its kind or to the end; and behind
every opening quote there is such a text. -/
theorem scan_slices (text : String) :
    ∃ slices : List (Slice text.toList), scan text = slices.map Slice.token ∧
      slices.Pairwise Slice.Precedes ∧
      (∀ front c back, front ++ c :: back = text.toList →
        ((∀ s ∈ slices, ¬ s.Covers front.length) ↔
          Text.isBlank c = true ∧ openQuote front = none)) ∧
      (∀ s ∈ slices, s.IsToken) ∧
      ∀ front q back, front ++ q :: back = text.toList → openQuote front = none →
        quotes.contains q = true → ∃ s ∈ slices, s.before = front ++ [q] ∧ s.IsContent := by
  have hfirst : (∃ ds, (lexemes text.toList).head? = some (.word ds)) →
      ∀ c ∈ ([] : List Char).getLast?, isWordChar c = false := fun _ c hc => nomatch hc
  obtain ⟨slices, htokens, hplaced⟩ :=
    (lexed_lexemes text.toList).exists_placed (lexemes_text text.toList) rfl hfirst
  have hlt : ∀ {front back : List Char} {c : Char}, front ++ c :: back = text.toList →
      front.length < text.toList.length := by
    intro front back c h
    rw [← h, List.length_append, List.length_cons]
    omega
  refine ⟨slices, htokens.symm, hplaced.ordered, fun front c back h => ?_, hplaced.tokens,
    fun front q back h hopen hq => hplaced.contents front q back h (Nat.zero_le _) (hlt h) hopen hq⟩
  have hcovered := hplaced.covered front c back h (Nat.zero_le _) (hlt h)
  constructor
  · intro hno
    refine Decidable.byContradiction fun hgap => ?_
    obtain ⟨s, hs, hcovers⟩ := hcovered.mpr hgap
    exact hno s hs hcovers
  · intro hgap s hs hcovers
    exact hcovered.mp ⟨s, hs, hcovers⟩ hgap

-- an empty content, and one that goes on to the end
example : scan "a''b \"c; " = ["a", "'", "", "'", "b", "\"", "c; "] := by decide +kernel

end QueryTrace.Token
