/-
Tokens written out again.

The tokens of a text can be written one after another with one space between neighbours, whatever
stood between them before.  Only a quoted text has to stay together: a space beside one of its
quotes would go into its content.

* `pieces` — the tokens, a quoted text with its quotes being one piece, and `respaced` is the text
  of the pieces with single spaces between them;
* **`scan_respaced`** — this text has the same tokens again.

Design notes: `pieces` looks at nothing but the tokens.  They tell which quotes open, because the
token behind an opening quote is always its content, even where the content is a quote itself.
-/
import QueryTrace.Proofs.Scanning

namespace QueryTrace.Token

/-- The tokens, with each opening quote, its content and its closing quote in one piece.  The last
quote need not be closed. -/
def pieces : List Token → List String
  | [] => []
  | [t] => [t]
  | [q, content] => if isQuote q then [q ++ content] else [q, content]
  | q :: content :: close :: ts =>
    if isQuote q then (q ++ content ++ close) :: pieces ts
    else q :: pieces (content :: close :: ts)

/-- The tokens as a text, with a single space between one piece and the next. -/
def respaced (ts : List Token) : String :=
  " ".intercalate (pieces ts)

/-! ### Pieces -/

theorem pieces_cons {t : Token} (ht : isQuote t = false) (ts : List Token) :
    pieces (t :: ts) = t :: pieces ts := by
  match ts with
  | [] => rfl
  | [u] => exact if_neg (by rw [ht]; decide)
  | u :: v :: ts => rw [pieces, if_neg (by rw [ht]; decide)]

theorem pieces_quoted {q : Token} (hq : isQuote q = true) (content close : Token)
    (ts : List Token) :
    pieces (q :: content :: close :: ts) = (q ++ content ++ close) :: pieces ts := by
  rw [pieces, if_pos hq]

theorem pieces_unclosed {q : Token} (hq : isQuote q = true) (content : Token) :
    pieces [q, content] = [q ++ content] := by
  rw [pieces, if_pos hq]

/-! ### Spaces between pieces -/

/-- Behind a piece comes the end of the text, or a space and the other pieces.  No word goes on
there, and the space is no token. -/
theorem exists_behind (ps : List (List Char)) :
    ∃ rest, Breaks rest ∧ tokensOf rest = tokensOf ([' '].intercalate ps) ∧
      ∀ p, [' '].intercalate (p :: ps) = p ++ rest := by
  cases ps with
  | nil => exact ⟨[], breaks_nil, rfl, fun p => by rw [List.intercalate_singleton, List.append_nil]⟩
  | cons p ps =>
    refine ⟨' ' :: [' '].intercalate (p :: ps), breaks_cons (by decide) _, tokensOf_space _, ?_⟩
    intro p'
    rw [List.intercalate_cons_cons, List.append_assoc, List.singleton_append]

/-- One token or quoted text after another, from the front of the text. -/
theorem Scanned.tokensOf_pieces {ts : List Token} (h : Scanned ts) :
    tokensOf ([' '].intercalate ((pieces ts).map String.toList)) = ts := by
  induction h with
  | nil => exact tokensOf_nil
  | @name t ts ht _ ih =>
    obtain ⟨rest, hbreaks, hrest, hbehind⟩ := exists_behind ((pieces ts).map String.toList)
    rw [pieces_cons ht.isQuote_eq_false, List.map_cons, hbehind, tokensOf_name ht hbreaks, hrest,
      ih]
  | @quoted q content ts hq hmem _ ih =>
    obtain ⟨rest, -, hrest, hbehind⟩ := exists_behind ((pieces ts).map String.toList)
    have hpiece : (q.toString ++ String.ofList content ++ q.toString).toList ++ rest =
        q :: content ++ q :: rest := by
      simp
    rw [pieces_quoted (isQuote_iff.mpr ⟨q, hq, rfl⟩), List.map_cons, hbehind, hpiece,
      tokensOf_quoted hq hmem, hrest, ih]
  | @unclosed q content hq hmem =>
    have hpiece : (q.toString ++ String.ofList content).toList = q :: content := by
      simp
    rw [pieces_unclosed (isQuote_iff.mpr ⟨q, hq, rfl⟩), List.map_singleton,
      List.intercalate_singleton, hpiece, tokensOf_quote hq, if_neg (by simpa using hmem)]

/-- **Spaces between tokens say nothing.**  The tokens of a text, written with a single space
between neighbours but none beside the content of a quoted text, are scanned as the same tokens
again, also when the last quote is never closed. -/
theorem scan_respaced (text : String) : scan (respaced (scan text)) = scan text := by
  have hscanned : Scanned (scan text) := scanned_tokensOf text.toList
  show tokensOf (respaced (scan text)).toList = scan text
  rw [respaced, String.toList_intercalate]
  exact hscanned.tokensOf_pieces

-- a content that is a quote, an empty one, and one that goes on to the end
example : respaced (scan "a>=b'\"''' \"c; ") = "a > = b '\"' '' \"c; " := by decide +kernel

end QueryTrace.Token
