/-
What a part of a trace may come to.

A part of a trace depends on how far the trace has come, because it looks at the clock.  Three
judgements speak about it without mentioning the progress:

* `Run.Follows x R r` — whatever the progress, `x` fails as the calculation `r` does, or both
  succeed with values that `R` relates;
* `Run.Ensures x P` — whatever the progress, a value that `x` returns has the property `P`;
* `Run.FailsOnly x P` — whatever the progress, a failure of `x` has the property `P`.

They go through the steps of a `do` block (`follows_bind`, `ensures_bind`, `failsOnly_bind`) and
through lists (`follows_mapM`, `ensures_mapM`, `failsOnly_mapM`), so each stage of a trace has one
lemma of each kind that is asked for.

Design notes: a look at the clock follows a calculation only without a time budget, while `Ensures`
asks nothing of the budget since it is silent on failures.
-/
import QueryTrace.Trace.Run

namespace QueryTrace

/-! ### Sequences that may fail -/

section Sequences

variable {ε ε' α β γ : Type}

@[simp] theorem except_ok_bind (a : α) (f : α → Except ε β) : (Except.ok a >>= f) = f a := rfl

@[simp] theorem except_error_bind (e : ε) (f : α → Except ε β) :
    (Except.error e >>= f) = .error e := rfl

theorem except_bind_eq_ok {x : Except ε α} {f : α → Except ε β} {b : β} :
    (x >>= f) = .ok b ↔ ∃ a, x = .ok a ∧ f a = .ok b := by
  cases x <;> simp

theorem except_map_eq_ok {x : Except ε α} {f : α → β} {b : β} :
    x.map f = .ok b ↔ ∃ a, x = .ok a ∧ f a = b := by
  cases x <;> simp [Except.map]

/-- Results may be compared where errors cannot. -/
theorem eq_ok_of_toOption {x : Except ε α} {a : α} (h : x.toOption = some a) : x = .ok a := by
  cases x with
  | ok b =>
    cases h
    rfl
  | error e => cases h

/-- A renamed error may be renamed before or after the steps that follow. -/
theorem mapError_bind (cause : ε → ε') (x : Except ε α) (f : α → Except ε β) :
    (x >>= f).mapError cause = x.mapError cause >>= fun a => (f a).mapError cause := by
  cases x <;> rfl

theorem mapError_mapM (cause : ε → ε') (f : α → Except ε β) (l : List α) :
    (l.mapM f).mapError cause = l.mapM fun a => (f a).mapError cause := by
  induction l with
  | nil => rfl
  | cons a l ih =>
    simp only [List.mapM_cons]
    rw [mapError_bind]
    congr 1
    funext b
    rw [mapError_bind, ih]
    rfl

theorem mapM_congr {m : Type → Type} [Monad m] [LawfulMonad m] {f g : α → m β} {l : List α}
    (h : ∀ a ∈ l, f a = g a) : l.mapM f = l.mapM g := by
  induction l with
  | nil => rfl
  | cons a l ih =>
    rw [List.mapM_cons, List.mapM_cons, h a List.mem_cons_self,
      ih fun b hb => h b (List.mem_cons_of_mem a hb)]

theorem mapM_length {f : α → Except ε β} {l : List α} {bs : List β} (h : l.mapM f = .ok bs) :
    bs.length = l.length := by
  induction l generalizing bs with
  | nil =>
    rw [List.mapM_nil] at h
    cases h
    rfl
  | cons a l ih =>
    rw [List.mapM_cons] at h
    obtain ⟨b, -, h⟩ := except_bind_eq_ok.mp h
    obtain ⟨rest, hr, h⟩ := except_bind_eq_ok.mp h
    cases h
    rw [List.length_cons, List.length_cons, ih hr]

/-- Every value of a calculation for each item is the value for one of the items. -/
theorem exists_of_mem_mapM {f : α → Except ε β} {l : List α} {bs : List β}
    (h : l.mapM f = .ok bs) : ∀ b ∈ bs, ∃ a ∈ l, f a = .ok b := by
  induction l generalizing bs with
  | nil =>
    rw [List.mapM_nil] at h
    cases h
    simp
  | cons a l ih =>
    rw [List.mapM_cons] at h
    obtain ⟨b, hb, h⟩ := except_bind_eq_ok.mp h
    obtain ⟨rest, hr, h⟩ := except_bind_eq_ok.mp h
    cases h
    intro c hc
    rcases List.mem_cons.mp hc with rfl | hc
    · exact ⟨a, by simp, hb⟩
    · obtain ⟨a', ha', hc⟩ := ih hr c hc
      exact ⟨a', by simp [ha'], hc⟩

theorem forall_mem_of_mapM {f : α → Except ε β} {P : β → Prop} {l : List α} {bs : List β}
    (h : l.mapM f = .ok bs) (hP : ∀ a b, f a = .ok b → P b) : ∀ b ∈ bs, P b := by
  intro b hb
  obtain ⟨a, -, ha⟩ := exists_of_mem_mapM h b hb
  exact hP a b ha

/-- What holds between any two items holds between the values for them. -/
theorem pairwise_of_mapM {f : α → Except ε β} {R : α → α → Prop} {S : β → β → Prop} {l : List α}
    {bs : List β} (hl : l.Pairwise R) (h : l.mapM f = .ok bs)
    (hRS : ∀ a ∈ l, ∀ a' ∈ l, ∀ b b', f a = .ok b → f a' = .ok b' → R a a' → S b b') :
    bs.Pairwise S := by
  induction l generalizing bs with
  | nil =>
    rw [List.mapM_nil] at h
    cases h
    exact .nil
  | cons a l ih =>
    rw [List.mapM_cons] at h
    obtain ⟨b, hb, h⟩ := except_bind_eq_ok.mp h
    obtain ⟨rest, hr, h⟩ := except_bind_eq_ok.mp h
    cases h
    obtain ⟨ha, hl⟩ := List.pairwise_cons.mp hl
    refine List.pairwise_cons.mpr ⟨fun b' hb' => ?_, ih hl hr fun c hc d hd =>
      hRS c (by simp [hc]) d (by simp [hd])⟩
    obtain ⟨a', ha', hfa'⟩ := exists_of_mem_mapM hr b' hb'
    exact hRS a (by simp) a' (by simp [ha']) b b' hb hfa' (ha a' ha')

end Sequences

namespace Run

variable {α β γ δ : Type}

theorem bind_apply (x : Run α) (f : α → Run β) (p : Progress) :
    (x >>= f) p = match x p with
      | (.ok a, q) => f a q
      | (.error e, q) => (.error e, q) := by
  show (match x p with | (r, q) => ExceptT.bindCont f r q) = _
  rcases x p with ⟨r, q⟩
  cases r <;> rfl

theorem ofExcept_apply {ε : Type} (cause : ε → Failure) (x : Except ε α) (p : Progress) :
    ofExcept cause x p = (x.mapError cause, p) := by
  cases x <;> rfl

/-! ### Runs that follow a calculation -/

/-- Whatever the progress, `x` fails with the failure of `r`, or both succeed and their values are
in the relation. -/
def Follows (x : Run α) (R : α → β → Prop) (r : Except Failure β) : Prop :=
  ∀ p, match (x p).1, r with
    | .ok a, .ok b => R a b
    | .error e, .error e' => e = e'
    | _, _ => False

theorem follows_pure {R : α → β → Prop} {a : α} {b : β} (h : R a b) :
    (pure a : Run α).Follows R (.ok b) :=
  fun _ => h

theorem follows_throw {R : α → β → Prop} (e : Failure) :
    (throw e : Run α).Follows R (.error e) :=
  fun _ => rfl

theorem follows_modify (f : Progress → Progress) :
    (modify f : Run PUnit).Follows Eq (.ok ⟨⟩) :=
  fun _ => rfl

theorem follows_ofExcept {ε : Type} (cause : ε → Failure) (x : Except ε α) :
    (ofExcept cause x).Follows Eq (x.mapError cause) := by
  intro p
  rw [ofExcept_apply]
  cases x <;> rfl

/-- What follows a failure does not matter, so `f` and `g` are compared on related values only, and
only on the value of `r`. -/
theorem follows_bind {x : Run α} {f : α → Run γ} {R : α → β → Prop} {r : Except Failure β}
    {g : β → Except Failure δ} {S : γ → δ → Prop} (hx : x.Follows R r)
    (hf : ∀ a b, r = .ok b → R a b → (f a).Follows S (g b)) : (x >>= f).Follows S (r >>= g) := by
  intro p
  have hp := hx p
  rw [bind_apply]
  rcases hxp : x p with ⟨out, q⟩
  rw [hxp] at hp
  cases out with
  | ok a =>
    cases r with
    | ok b => exact hf a b rfl hp q
    | error e => exact hp.elim
  | error e =>
    cases r with
    | ok b => exact hp.elim
    | error e' => exact hp

/-- A step of the run that cannot fail has no counterpart in the calculation. -/
theorem follows_bind_ok {x : Run α} {f : α → Run γ} {R : α → β → Prop} {b : β}
    {r : Except Failure δ} {S : γ → δ → Prop} (hx : x.Follows R (.ok b))
    (hf : ∀ a, R a b → (f a).Follows S r) : (x >>= f).Follows S r := by
  intro p
  have hp := hx p
  rw [bind_apply]
  rcases hxp : x p with ⟨out, q⟩
  rw [hxp] at hp
  cases out with
  | ok a => exact hf a hp q
  | error e => exact hp.elim

/-- If the relation is that of a function, the outcomes are equal. -/
theorem Follows.map_eq {x : Run α} {f : α → γ} {g : β → γ} {r : Except Failure β}
    (h : x.Follows (fun a b => f a = g b) r) (p : Progress) : (x p).1.map f = r.map g := by
  have hp := h p
  cases ho : (x p).1 with
  | ok a =>
    rw [ho] at hp
    cases r with
    | ok b => exact congrArg Except.ok hp
    | error e => exact hp.elim
  | error e =>
    rw [ho] at hp
    cases r with
    | ok b => exact hp.elim
    | error e' => exact congrArg Except.error hp

theorem follows_mapM {f : α → Run β} {g : α → Except Failure β} {l : List α}
    (h : ∀ a ∈ l, (f a).Follows Eq (g a)) : (l.mapM f).Follows Eq (l.mapM g) := by
  induction l with
  | nil => exact follows_pure rfl
  | cons a l ih =>
    simp only [List.mapM_cons]
    refine follows_bind (h a (by simp)) ?_
    rintro b _ - rfl
    refine follows_bind (ih fun c hc => h c (by simp [hc])) ?_
    rintro bs _ - rfl
    exact follows_pure rfl

theorem follows_checkTime {s : Setting} (h : s.limits.timeBudget = none) :
    (checkTime s).Follows Eq (.ok ()) := by
  intro p
  rw [checkTime_unlimited h]

theorem follows_keepPace {s : Setting} (h : s.limits.timeBudget = none) (row : Nat) :
    (keepPace s row).Follows Eq (.ok ()) := by
  unfold keepPace
  split
  · exact follows_checkTime h
  · exact follows_pure rfl

theorem follows_keepPaceOver {s : Setting} (h : s.limits.timeBudget = none) (rows : Nat) :
    (keepPaceOver s rows).Follows Eq (.ok ()) := by
  unfold keepPaceOver
  induction List.range rows with
  | nil => exact follows_pure rfl
  | cons i l ih => exact follows_bind_ok (follows_keepPace h i) fun _ _ => ih

/-! ### Properties of returned values -/

/-- Whatever the progress, a returned value has the property. -/
def Ensures (x : Run α) (P : α → Prop) : Prop :=
  ∀ p a q, x p = (.ok a, q) → P a

theorem ensures_pure {P : α → Prop} {a : α} (h : P a) : Ensures (pure a) P := by
  intro p b q hb
  cases hb
  exact h

theorem ensures_ofExcept {ε : Type} {cause : ε → Failure} {x : Except ε α} {P : α → Prop}
    (h : ∀ a, x = .ok a → P a) : Ensures (ofExcept cause x) P := by
  intro p a q ha
  rw [ofExcept_apply] at ha
  cases x with
  | ok b =>
    cases ha
    exact h _ rfl
  | error e => cases ha

theorem ensures_bind {x : Run α} {f : α → Run β} {P : α → Prop} {Q : β → Prop}
    (hx : x.Ensures P) (hf : ∀ a, P a → (f a).Ensures Q) : (x >>= f).Ensures Q := by
  intro p b q h
  rw [bind_apply] at h
  rcases hxp : x p with ⟨out, p'⟩
  rw [hxp] at h
  cases out with
  | ok a => exact hf a (hx p a p' hxp) p' b q h
  | error e => cases h

theorem ensures_throw {P : α → Prop} (e : Failure) : (throw e : Run α).Ensures P := by
  intro p a q h
  cases h

theorem ensures_trivial (x : Run α) : x.Ensures fun _ => True :=
  fun _ _ _ _ => trivial

theorem ensures_mapM {f : α → Run β} {P : β → Prop} {l : List α}
    (h : ∀ a ∈ l, (f a).Ensures P) :
    (l.mapM f).Ensures fun bs => bs.length = l.length ∧ ∀ b ∈ bs, P b := by
  induction l with
  | nil => exact ensures_pure (by simp)
  | cons a l ih =>
    rw [List.mapM_cons]
    refine ensures_bind (h a (by simp)) fun b hb => ?_
    refine ensures_bind (ih fun c hc => h c (by simp [hc])) fun bs hbs => ?_
    refine ensures_pure ⟨by simp [hbs.1], fun c hc => ?_⟩
    rcases List.mem_cons.mp hc with rfl | hc
    · exact hb
    · exact hbs.2 c hc

/-- Values that know what they were made from know the whole list. -/
theorem ensures_mapM_origin {f : α → Run β} {origin : β → α} (l : List α)
    (h : ∀ a, (f a).Ensures fun b => origin b = a) :
    (l.mapM f).Ensures fun bs => bs.map origin = l := by
  induction l with
  | nil => exact ensures_pure rfl
  | cons a l ih =>
    rw [List.mapM_cons]
    refine ensures_bind (h a) fun b hb => ?_
    refine ensures_bind ih fun bs hbs => ?_
    exact ensures_pure (by rw [List.map_cons, hb, hbs])

/-! ### Properties of failures -/

/-- Whatever the progress, a failure has the property. -/
def FailsOnly (x : Run α) (P : Failure → Prop) : Prop :=
  ∀ p e q, x p = (.error e, q) → P e

theorem failsOnly_pure (a : α) (P : Failure → Prop) : FailsOnly (pure a) P := by
  intro p e q h
  cases h

theorem failsOnly_ofExcept {ε : Type} {cause : ε → Failure} {x : Except ε α} {P : Failure → Prop}
    (h : ∀ e, x = .error e → P (cause e)) : FailsOnly (ofExcept cause x) P := by
  intro p e q he
  rw [ofExcept_apply] at he
  cases x with
  | ok a => cases he
  | error e' =>
    cases he
    exact h e' rfl

/-- Of what follows, only the values that can be returned matter. -/
theorem failsOnly_bind_of_ensures {x : Run α} {f : α → Run β} {P : Failure → Prop}
    {Q : α → Prop} (hx : x.FailsOnly P) (hq : x.Ensures Q) (hf : ∀ a, Q a → (f a).FailsOnly P) :
    (x >>= f).FailsOnly P := by
  intro p e q h
  rw [bind_apply] at h
  rcases hxp : x p with ⟨out, p'⟩
  rw [hxp] at h
  cases out with
  | ok a => exact hf a (hq p a p' hxp) p' e q h
  | error e' =>
    cases h
    exact hx p e q hxp

theorem failsOnly_bind {x : Run α} {f : α → Run β} {P : Failure → Prop} (hx : x.FailsOnly P)
    (hf : ∀ a, (f a).FailsOnly P) : (x >>= f).FailsOnly P :=
  failsOnly_bind_of_ensures hx (ensures_trivial x) fun a _ => hf a

theorem failsOnly_mapM {f : α → Run β} {P : Failure → Prop} {l : List α}
    (h : ∀ a ∈ l, (f a).FailsOnly P) : (l.mapM f).FailsOnly P := by
  induction l with
  | nil => exact failsOnly_pure [] P
  | cons a l ih =>
    rw [List.mapM_cons]
    refine failsOnly_bind (h a (by simp)) fun b => ?_
    exact failsOnly_bind (ih fun c hc => h c (by simp [hc])) fun bs => failsOnly_pure _ P

theorem failsOnly_throw {P : Failure → Prop} {e : Failure} (h : P e) :
    (throw e : Run α).FailsOnly P := by
  intro p e' q he
  cases he
  exact h

theorem failsOnly_checkTime {s : Setting} {P : Failure → Prop}
    (h : ∀ budget, s.limits.timeBudget = some budget → P (.resource (.outOfTime budget))) :
    (checkTime s).FailsOnly P := by
  unfold checkTime
  refine failsOnly_bind (fun p e q he => by cases he) fun p => ?_
  refine failsOnly_bind (fun p e q he => by cases he) fun _ => ?_
  cases hb : s.limits.timeBudget with
  | none => exact failsOnly_pure () P
  | some budget =>
    dsimp only
    split
    · exact failsOnly_throw (h budget hb)
    · exact failsOnly_pure () P

theorem failsOnly_keepPace {s : Setting} {P : Failure → Prop}
    (h : ∀ budget, s.limits.timeBudget = some budget → P (.resource (.outOfTime budget)))
    (row : Nat) : (keepPace s row).FailsOnly P := by
  unfold keepPace
  split
  · exact failsOnly_checkTime h
  · exact failsOnly_pure () P

theorem failsOnly_keepPaceOver {s : Setting} {P : Failure → Prop}
    (h : ∀ budget, s.limits.timeBudget = some budget → P (.resource (.outOfTime budget)))
    (rows : Nat) : (keepPaceOver s rows).FailsOnly P := by
  unfold keepPaceOver
  induction List.range rows with
  | nil => exact failsOnly_pure () P
  | cons i l ih => exact failsOnly_bind (failsOnly_keepPace h i) fun _ => ih

end Run

end QueryTrace
