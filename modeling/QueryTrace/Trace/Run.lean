/-
What a trace is made in: the store, the limits and the clock.

A trace asks the store for whole tables and looks at the clock from time to time.  `Progress` keeps
the questions asked so far and the number of looks, also when the trace fails.

* `checkTime_unlimited` — without a time budget a look at the clock changes nothing but the count;
* `readTable` — the one question that a trace ever asks.

Design notes: the clock is a function of the number of looks, so a trace is a function of its
setting.  The budget is in milliseconds and the clock in nanoseconds.
-/
import QueryTrace.Table.Annotated

namespace QueryTrace

/-- The bounds on a trace. -/
structure Limits where
  /-- The greatest number of rows of a product. -/
  maxProductRows : Option Nat := some 100000
  /-- The time for the whole trace, in milliseconds. -/
  timeBudget : Option Nat := none
  deriving DecidableEq, Repr, Inhabited

/-- The answers of a store: a question has several tables for an answer, or a complaint. -/
abbrev Catalogue := String → Except String (List Table)

/-- All that a trace depends on besides its statement. -/
structure Setting where
  store : Catalogue
  limits : Limits := {}
  /-- The nanoseconds that have passed at the first look, the second, and so on. -/
  clock : Nat → Nat := fun _ => 0

/-- How far a trace has come. -/
structure Progress where
  /-- The questions put to the store. -/
  queries : List String := []
  /-- How often the clock was looked at. -/
  looks : Nat := 0
  deriving DecidableEq, Repr

/-- A part of a trace. -/
abbrev Run (α : Type) := ExceptT Failure (StateM Progress) α

namespace Run

/-- An outcome that is known already. -/
def ofExcept {ε α : Type} (cause : ε → Failure) (x : Except ε α) : Run α :=
  match x with
  | .ok a => pure a
  | .error e => throw (cause e)

/-- Fails if the time is used up. -/
def checkTime (s : Setting) : Run Unit := do
  let p ← get
  set { p with looks := p.looks + 1 }
  match s.limits.timeBudget with
  | some budget =>
    if budget * 1000000 < s.clock p.looks then throw (.resource (.outOfTime budget))
  | none => pure ()

theorem checkTime_unlimited {s : Setting} (h : s.limits.timeBudget = none) (p : Progress) :
    checkTime s p = (.ok (), { p with looks := p.looks + 1 }) := by
  unfold checkTime
  rw [h]
  rfl

/-- The number of rows between two looks at the clock. -/
def pace : Nat := 1024

/-- Before every so many rows, a look at the clock. -/
def keepPace (s : Setting) (row : Nat) : Run Unit :=
  if row % pace = 0 then checkTime s else pure ()

/-- The looks at the clock that go with work on `rows` rows. -/
def keepPaceOver (s : Setting) (rows : Nat) : Run Unit :=
  (List.range rows).forM (keepPace s)

/-- The question for a whole table. -/
def readTable (name : String) : String :=
  "SELECT * FROM " ++ name ++ ";"

/-- A whole table, as the store has it. -/
def fetch (s : Setting) (name : String) : Run Table := do
  let question := readTable name
  modify fun p => { p with queries := p.queries ++ [question] }
  match ← ofExcept .store (s.store question) with
  | [] => throw (.store ("no result set for table " ++ name))
  | t :: _ => ofExcept .evaluation (Table.checked t.columns t.rows)

end Run

end QueryTrace
