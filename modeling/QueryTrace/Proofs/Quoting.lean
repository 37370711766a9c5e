/-
Quoted texts inside a text.

The scanner cuts a text into lexemes, and a quoted text is one of them with all that stands in it.
What stands in it can be exchanged, and nothing else changes: the new text has the same lexemes but
for the one.

* `contents` — what stands in the quoted texts, in their order;
* `QuotedPiece` — one quoted text with what is before and behind it; `QuotedPiece.replace` puts
  another content in its place, and **`QuotedPiece.lexemes_replace`** gives the lexemes then;
* **`Lexed.alike_with`**, **`QuotedPiece.alike`** — the tokens of both texts are alike.
-/
import QueryTrace.Proofs.Lockstep

namespace QueryTrace

open Token

/-! ### Contents and tokens -/

/-- What stands between the quotes of a quoted text. -/
def Lexeme.content? : Lexeme → Option String
  | quoted _ content => some (String.ofList content)
  | _ => none

/-- The contents of the quoted texts, in their order. -/
def contents (ls : List Lexeme) : List String :=
  ls.filterMap Lexeme.content?

/-- The tokens from the quote on that is never closed. -/
def openEnd : List Lexeme → List Token
  | [] => []
  | .unclosed q content :: _ => [q.toString, String.ofList content]
  | _ :: ls => openEnd ls

/-- Does the lexeme begin with a quote that is never closed? -/
def Lexeme.isUnclosed : Lexeme → Bool
  | unclosed _ _ => true
  | _ => false

/-- Is every quote in the text closed? -/
def Closed (text : String) : Prop :=
  ∀ l ∈ lexemes text.toList, l.isUnclosed = false

instance (text : String) : Decidable (Closed text) :=
  inferInstanceAs (Decidable (∀ l ∈ lexemes text.toList, l.isUnclosed = false))

theorem openEnd_eq_nil {ls : List Lexeme} (h : ∀ l ∈ ls, l.isUnclosed = false) :
    openEnd ls = [] := by
  induction ls with
  | nil => rfl
  | cons l ls ih =>
    have hl := h l List.mem_cons_self
    have hls := ih fun l hl => h l (List.mem_cons_of_mem _ hl)
    cases l with
    | unclosed q content => cases hl
    | _ => exact hls

theorem Token.Lexed.blocked_openEnd {ls : List Lexeme} (h : Lexed ls) : Blocked (openEnd ls) := by
  induction h with
  | nil => exact .inl rfl
  | unclosed hq _ => exact .inr ⟨_, _, Expr.isQuote_toString hq, rfl, by simp⟩
  | blank _ _ ih => exact ih
  | mark _ _ ih => exact ih
  | word _ _ _ _ ih => exact ih
  | quoted _ _ _ ih => exact ih

theorem openEnd_of_mem {ls : List Lexeme} (h : Lexed ls) {q : Char} {content : List Char}
    (hmem : .unclosed q content ∈ ls) : openEnd ls = [q.toString, String.ofList content] := by
  induction h with
  | nil => cases hmem
  | unclosed _ _ =>
    cases List.mem_singleton.mp hmem
    rfl
  | blank _ _ ih => exact ih (by simpa using hmem)
  | mark _ _ ih => exact ih (by simpa using hmem)
  | word _ _ _ _ ih => exact ih (by simpa using hmem)
  | quoted _ _ _ ih => exact ih (by simpa using hmem)

/-- The tokens of the lexeme, with what `f` makes of the content between its quotes. -/
def Lexeme.tokensWith (f : String → String) : Lexeme → List Token
  | quoted q content => [q.toString, f (String.ofList content), q.toString]
  | l => l.tokens

/-- The tokens of a text are alike to those with other contents. -/
theorem Token.Lexed.alike_with (f : String → String) {ls : List Lexeme} (h : Lexed ls) :
    Alike (openEnd ls) (contents ls) ((contents ls).map f) (ls.flatMap Lexeme.tokens)
      (ls.flatMap (Lexeme.tokensWith f)) := by
  induction h with
  | nil => exact .stop (.inl rfl)
  | blank _ _ ih => exact ih
  | mark hc _ ih => exact .name (IsName.isQuote_eq_false (.inr ⟨_, hc, rfl⟩)) ih
  | word hne hcs _ _ ih => exact .name (IsName.isQuote_eq_false (.inl (isWord_ofList hne hcs))) ih
  | quoted hq _ _ ih => exact .quoted (Expr.isQuote_toString hq) ih
  | unclosed hq hmem => exact .stop (Lexed.unclosed hq hmem).blocked_openEnd

/-- The tokens of a text are alike to themselves. -/
theorem Token.Lexed.alike {ls : List Lexeme} (h : Lexed ls) :
    Alike (openEnd ls) (contents ls) (contents ls) (ls.flatMap Lexeme.tokens)
      (ls.flatMap Lexeme.tokens) := by
  have hsame : Lexeme.tokensWith id = Lexeme.tokens := by
    funext l
    cases l <;> rfl
  have ha := h.alike_with id
  rwa [List.map_id, hsame] at ha

/-! ### Another content -/

section Exchange

variable {before behind : List Lexeme} {q : Char} {content : List Char}

theorem Token.Lexed.exchange {new : List Char} (h : Lexed (before ++ .quoted q content :: behind))
    (hnew : q ∉ new) : Lexed (before ++ .quoted q new :: behind) := by
  induction before with
  | nil =>
    cases h with
    | quoted hq _ rest => exact .quoted hq hnew rest
  | cons l before ih =>
    rw [List.cons_append] at h ⊢
    generalize hls : before ++ .quoted q content :: behind = ls at h
    cases h with
    | blank hc rest => exact .blank hc (ih (hls ▸ rest))
    | mark hc rest => exact .mark hc (ih (hls ▸ rest))
    -- the lexeme behind a word is the same, or it is the quoted text and no word
    | word hne hcs hn rest =>
      refine .word hne hcs (fun ds => ?_) (ih (hls ▸ rest))
      subst hls
      cases before with
      | nil => simp
      | cons l' before => exact hn ds
    | quoted hq hmem rest => exact .quoted hq hmem (ih (hls ▸ rest))
    | unclosed _ _ => simp at hls

/-- The tokens before and after are alike, and their contents differ in one place. -/
theorem Token.Lexed.alike_exchange (h : Lexed (before ++ .quoted q content :: behind))
    (new : List Char) :
    Alike (openEnd behind) (contents (before ++ .quoted q content :: behind))
      ((contents (before ++ .quoted q content :: behind)).set (contents before).length
        (String.ofList new))
      ((before ++ .quoted q content :: behind).flatMap Lexeme.tokens)
      ((before ++ .quoted q new :: behind).flatMap Lexeme.tokens) := by
  induction before with
  | nil =>
    cases h with
    | quoted hq _ rest => exact .quoted (Expr.isQuote_toString hq) rest.alike
  | cons l before ih =>
    rw [List.cons_append] at h
    generalize hls : before ++ .quoted q content :: behind = ls at h
    cases h with
    | blank _ rest => exact ih (hls ▸ rest)
    | mark hc rest => exact .name (IsName.isQuote_eq_false (.inr ⟨_, hc, rfl⟩)) (ih (hls ▸ rest))
    | word hne hcs _ rest =>
      exact .name (IsName.isQuote_eq_false (.inl (isWord_ofList hne hcs))) (ih (hls ▸ rest))
    | quoted hq _ rest => exact .quoted (Expr.isQuote_toString hq) (ih (hls ▸ rest))
    | unclosed _ _ => simp at hls

end Exchange

/-- A quoted text inside a text. -/
structure QuotedPiece (text : String) where
  before : List Lexeme
  quote : Char
  content : List Char
  behind : List Lexeme
  lexemes_eq : lexemes text.toList = before ++ .quoted quote content :: behind

namespace QuotedPiece

variable {text : String} (p : QuotedPiece text)

/-- The number of quoted texts in front of this one. -/
def place : Nat :=
  (contents p.before).length

/-- The text with another content between the quotes of this one. -/
def replace (new : String) : String :=
  String.ofList ((p.before ++ .quoted p.quote new.toList :: p.behind).flatMap Lexeme.text)

theorem lexemes_replace {new : String} (h : p.quote ∉ new.toList) :
    lexemes (p.replace new).toList = p.before ++ .quoted p.quote new.toList :: p.behind := by
  have hlexed : Lexed (p.before ++ .quoted p.quote p.content :: p.behind) :=
    p.lexemes_eq ▸ lexed_lexemes text.toList
  rw [replace, String.toList_ofList, (hlexed.exchange h).lexemes_text]

/-- The tokens of the text and of the text with another content differ in that content. -/
theorem alike {new : String} (h : p.quote ∉ new.toList) :
    Alike (openEnd p.behind) (contents (lexemes text.toList))
      ((contents (lexemes text.toList)).set p.place new) (scan text) (scan (p.replace new)) := by
  have hlexed := lexed_lexemes text.toList
  rw [p.lexemes_eq] at hlexed
  have ha := hlexed.alike_exchange new.toList
  rw [String.ofList_toList] at ha
  rw [scan, scan, p.lexemes_replace h, p.lexemes_eq]
  exact ha

end QuotedPiece

end QueryTrace
