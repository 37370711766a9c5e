/-
Stores that remember what was executed in them.

Every engine can be made to write down the statements that it executes, each with the store that it
met.  A store that is opened has no history yet.

* `Engine.recording` and `Console.recording` — the same engine and console with a history;
* **`outcome_inTurn_feed_recording`** — a session does not notice that its store remembers;
* `executed_inTurn` — acts that obey no command add their statements to the history.

Design notes: the history is written where the engine is told to execute a statement, so it says
what a session has had executed without any second account of sessions.
-/
import QueryTrace.Console.Shelf
import QueryTrace.Proofs.Acts

namespace QueryTrace

/-- A store and what was executed in it: each statement with the store that it met. -/
structure Recorded (σ : Type) where
  store : σ
  history : List (σ × String) := []

variable {σ : Type}

/-- The statements that were executed, in order. -/
def Recorded.executed (r : Recorded σ) : List String :=
  r.history.map Prod.snd

/-- The engine, writing down what it executes. -/
def Engine.recording (e : Engine σ) : Engine (Recorded σ) where
  answer r := e.answer r.store
  next r sql := { store := e.next r.store sql, history := r.history ++ [(r.store, sql)] }
  tableNames r := e.tableNames r.store
  schema r := e.schema r.store
  openStore path := (e.openStore path).map fun store => { store }

/-- The console with an engine that writes down what it executes. -/
def Console.recording (console : Console σ) : Console (Recorded σ) where
  engine := console.engine.recording
  format := console.format
  fileText := console.fileText
  clock r := console.clock r.store
  colour := console.colour
  prompt := console.prompt

/-- A store that is opened has no history yet. -/
theorem Console.openStore_recording {console : Console σ} {path : Option String} {r : Recorded σ}
    (h : console.recording.engine.openStore path = .ok r) :
    ∃ store, console.engine.openStore path = .ok store ∧ r = { store } := by
  have hmap : (console.engine.openStore path).map (fun store => { store }) = .ok r := h
  cases hopen : console.engine.openStore path with
  | ok store =>
    rw [hopen] at hmap
    exact ⟨store, rfl, (Except.ok.inj hmap).symm⟩
  | error message =>
    rw [hopen] at hmap
    cases hmap

namespace Session

/-- The session with a store that has no history yet. -/
def record (s : Session σ) : Session (Recorded σ) where
  store := { store := s.store }
  preferences := s.preferences
  cursor := s.cursor
  pending := s.pending

/-- The session without the history of its store. -/
def forget (s : Session (Recorded σ)) : Session σ where
  store := s.store.store
  preferences := s.preferences
  cursor := s.cursor
  pending := s.pending

variable (console : Console σ)

/-! ### Sessions do not notice -/

theorem outcome_carryOut_recording (s : Session (Recorded σ)) (a : Act) :
    (a.carryOut console s.forget).outcome =
      ((a.carryOut console.recording s).session.forget,
        (a.carryOut console.recording s).text) := by
  cases a with
  | say text => rfl
  | collect lines => rfl
  | run sql => rfl
  | obey command h =>
    cases command with
    | openStore path =>
      show (changeStore console s.forget path).outcome =
        ((changeStore console.recording s path).session.forget,
          (changeStore console.recording s path).text)
      have hopen : console.recording.engine.openStore path =
          (console.engine.openStore path).map fun store => { store } := rfl
      unfold changeStore
      rw [hopen]
      cases console.engine.openStore path <;> rfl
    | read path =>
      obtain rfl : path = none := h
      rfl
    | visualize setting => cases setting <;> rfl
    | step number => cases number <;> rfl
    | _ => rfl

theorem outcome_inTurn_recording (s : Session (Recorded σ)) (acts : List Act) :
    (inTurn (Act.carryOut console) s.forget acts).outcome =
      ((inTurn (Act.carryOut console.recording) s acts).session.forget,
        (inTurn (Act.carryOut console.recording) s acts).text) := by
  induction acts generalizing s with
  | nil => rfl
  | cons a acts ih =>
    obtain ⟨hsession, htext⟩ := Prod.mk.inj (outcome_carryOut_recording console s a)
    obtain ⟨hsessions, htexts⟩ := Prod.mk.inj (ih (a.carryOut console.recording s).session)
    rw [outcome_inTurn_cons, hsession, htext, hsessions, htexts]
    rfl

/-- **A session does not notice that its store remembers**, whatever lines it is fed. -/
theorem outcome_inTurn_feed_recording (s : Session (Recorded σ)) (inputs : List String) :
    (inTurn (feed console) s.forget inputs).outcome =
      ((inTurn (feed console.recording) s inputs).session.forget,
        (inTurn (feed console.recording) s inputs).text) := by
  obtain ⟨hsession, htext⟩ := Prod.mk.inj
    (outcome_inTurn_feed console.recording s inputs)
  rw [outcome_inTurn_feed, hsession, htext]
  exact outcome_inTurn_recording console s _

/-! ### Histories -/

/-- Acts that obey no command add their statements to the history. -/
theorem executed_inTurn (s : Session (Recorded σ)) {acts : List Act}
    (h : ∀ command hc, Act.obey command hc ∉ acts) :
    (inTurn (Act.carryOut console.recording) s acts).session.store.executed =
      s.store.executed ++ acts.filterMap Act.statement? := by
  induction acts generalizing s with
  | nil => exact (List.append_nil _).symm
  | cons a acts ih =>
    have hrest := ih (a.carryOut console.recording s).session
      fun command hc hmem => h command hc (List.mem_cons_of_mem a hmem)
    refine hrest.trans ?_
    cases a with
    | say text => rfl
    | collect lines => rfl
    | run sql =>
      show (s.store.history ++ [(s.store.store, sql)]).map Prod.snd ++ _ = _
      rw [List.map_append, List.append_assoc]
      rfl
    | obey command hc => exact absurd List.mem_cons_self (h command hc)

end Session

/-! ### Sessions over a shelf -/

/-- A console over shelves that writes no colours and asks for nothing. -/
def Console.onShelf (fileText : String → Except String String) : Console Shelf where
  engine := Shelf.engine fileText
  format := id
  fileText := fileText

/-- Two animals. -/
def Shelf.pets : Shelf where
  tables := [("pets", ⟨["name"], [[.text "rex"], [.text "ann"]]⟩)]

end QueryTrace
