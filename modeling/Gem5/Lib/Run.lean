import Gem5.Lib.Result

namespace Lib

/-- A machine that takes one command at a time, answers it and moves to its
next state, or faults. -/
structure Machine (S C O : Type) where
  step : S → C → Result (O × S)

namespace Machine

variable {S T C O : Type}

/-- Executes the commands in order and collects the answers. -/
def run (m : Machine S C O) : S → List C → Result (List O × S)
  | s, [] => .ok ([], s)
  | s, c :: cs => do
    let (o, s') ← m.step s c
    let (os, s'') ← m.run s' cs
    .ok (o :: os, s'')

/-- The states that some run from `start` goes through. -/
inductive Reaches (m : Machine S C O) (start : S) : S → Prop where
  | start : Reaches m start start
  | step {s s' : S} {c : C} {o : O} (before : Reaches m start s) (h : m.step s c = .ok (o, s')) :
      Reaches m start s'

/-- Every state that the run of `cs` from `s` goes through satisfies `Q`. -/
def StatesAll (m : Machine S C O) (Q : S → Prop) : S → List C → Prop
  | s, [] => Q s
  | s, c :: cs => Q s ∧ ∀ o s', m.step s c = .ok (o, s') → m.StatesAll Q s' cs

/-- Every step that the run of `cs` from `s` takes satisfies `P`, a property of
the command and of the state it is executed in. -/
def StepsAll (m : Machine S C O) (P : S → C → Prop) : S → List C → Prop
  | _, [] => True
  | s, c :: cs => P s c ∧ ∀ o s', m.step s c = .ok (o, s') → m.StepsAll P s' cs

/-- The machine that also keeps a log of the steps it has taken, newest first:
the state before, the command and the answer. -/
def logged (m : Machine S C O) : Machine (S × List (S × C × O)) C O where
  step := fun (s, log) c => do
    let (o, s') ← m.step s c
    .ok (o, s', (s, c, o) :: log)

variable {m : Machine S C O} {s s' : S} {os : List O}

theorem run_nil_eq_ok_iff : m.run s [] = .ok (os, s') ↔ os = [] ∧ s' = s := by
  simp [run, eq_comm]

variable {cs : List C}

theorem run_cons_eq_ok_iff : m.run s (c :: cs) = .ok (os, s'') ↔
      ∃ o s' rest, m.step s c = .ok (o, s') ∧ m.run s' cs = .ok (rest, s'') ∧ os = o :: rest := by
  simp only [run, Result.bind_eq_ok_iff]
  constructor
  · rintro ⟨⟨o, s'⟩, hstep, ⟨rest, last⟩, hrun, hdone⟩
    cases hdone
    exact ⟨o, s', rest, hstep, hrun, rfl⟩
  · rintro ⟨o, s', rest, hstep, hrun, rfl⟩
    exact ⟨(o, s'), hstep, (rest, s''), hrun, rfl⟩

theorem Reaches.run {start : S} (hreach : m.Reaches start s) (hrun : m.run s cs = .ok (os, s')) :
    m.Reaches start s' := by
  induction cs generalizing s os with
  | nil =>
    obtain ⟨-, rfl⟩ := run_nil_eq_ok_iff.mp hrun
    exact hreach
  | cons c cs ih =>
    obtain ⟨o, next, rest, hstep, hrest, -⟩ := run_cons_eq_ok_iff.mp hrun
    exact ih (.step hreach hstep) hrest

theorem Reaches.trans (hfirst : m.Reaches s₁ s₂) (hsecond : m.Reaches s₂ s₃) : m.Reaches s₁ s₃ := by
  induction hsecond with
  | start => exact hfirst
  | step _ h ih => exact .step ih h

theorem logged_step_eq_ok_iff : m.logged.step (s, log) c = .ok (o, after) ↔
      ∃ s', m.step s c = .ok (o, s') ∧ after = (s', (s, c, o) :: log) := by
  simp only [logged, Result.bind_eq_ok_iff]
  constructor
  · rintro ⟨⟨answer, s'⟩, hstep, hdone⟩
    cases hdone
    exact ⟨s', hstep, rfl⟩
  · rintro ⟨s', hstep, rfl⟩
    exact ⟨(o, s'), hstep, rfl⟩

/-- The log does not change what is run. -/
theorem run_of_logged_run (hrun : m.logged.run (s, log) cs = .ok (os, after)) : m.run s cs = .ok (os, after.1) := by
  induction cs generalizing s log os with
  | nil =>
    obtain ⟨rfl, rfl⟩ := run_nil_eq_ok_iff.mp hrun
    rfl
  | cons c cs ih =>
    obtain ⟨o, next, rest, hstep, hrest, rfl⟩ := run_cons_eq_ok_iff.mp hrun
    obtain ⟨s', hcall, rfl⟩ := logged_step_eq_ok_iff.mp hstep
    exact run_cons_eq_ok_iff.mpr ⟨o, s', rest, hcall, ih hrest, rfl⟩

variable {I : S → Prop}

/-- The rule of invariants: what holds at the start and is kept by every step
holds in every state reached. -/
theorem Reaches.invariant {start : S} (hreach : m.Reaches start s) (hstart : I start)
    (hstep : ∀ s c o s', I s → m.step s c = .ok (o, s') → I s') : I s := by
  induction hreach with
  | start => exact hstart
  | step _ h ih => exact hstep _ _ _ _ ih h

variable {G : S → C → Prop}

/-- The rule of invariants for runs whose steps all satisfy `G`. -/
theorem run_invariant (hstep : ∀ s c o s', I s → G s c → m.step s c = .ok (o, s') → I s') (hI : I s)
    (hguard : m.StepsAll G s cs) (hrun : m.run s cs = .ok (os, s')) : I s' := by
  induction cs generalizing s os with
  | nil =>
    obtain ⟨-, rfl⟩ := run_nil_eq_ok_iff.mp hrun
    exact hI
  | cons c cs ih =>
    obtain ⟨o, next, rest, hnext, hrest, -⟩ := run_cons_eq_ok_iff.mp hrun
    exact ih (hstep s c o next hI hguard.1 hnext) (hguard.2 o next hnext) hrest

/-- The rule of progress: where every admissible step returns and keeps `I`, so does every
run of such steps. -/
theorem run_progress (hstep : ∀ s c, I s → G s c → ∃ o s', m.step s c = .ok (o, s') ∧ I s') (hI : I s)
    (hguard : m.StepsAll G s cs) : ∃ os s', m.run s cs = .ok (os, s') ∧ I s' := by
  induction cs generalizing s with
  | nil => exact ⟨[], s, rfl, hI⟩
  | cons c cs ih =>
    obtain ⟨o, next, hnext, hI'⟩ := hstep s c hI hguard.1
    obtain ⟨os, last, hrun, hlast⟩ := ih hI' (hguard.2 o next hnext)
    exact ⟨o :: os, last, run_cons_eq_ok_iff.mpr ⟨o, next, os, hnext, hrun, rfl⟩, hlast⟩

variable {P : S → C → Prop}

theorem stepsAll_cons_of_ok (h : m.step s c = .ok (o, s')) : m.StepsAll P s (c :: cs) ↔ P s c ∧ m.StepsAll P s' cs := by
  simp [StepsAll, h]

theorem stepsAll_cons_of_error (h : m.step s c = .error fault) : m.StepsAll P s (c :: cs) ↔ P s c := by
  simp [StepsAll, h]

instance decidableStepsAll (m : Machine S C O) (P : S → C → Prop) [∀ s c, Decidable (P s c)] :
    ∀ s cs, Decidable (m.StepsAll P s cs)
  | _, [] => isTrue trivial
  | s, c :: cs =>
    match h : m.step s c with
    | .error _ => decidable_of_iff _ (stepsAll_cons_of_error h).symm
    | .ok (_, s') =>
      have := decidableStepsAll m P s' cs
      decidable_of_iff _ (stepsAll_cons_of_ok h).symm

theorem StepsAll.and (h : m.StepsAll P s cs) (h' : m.StepsAll Q s cs) : m.StepsAll (fun s c => P s c ∧ Q s c) s cs := by
  induction cs generalizing s with
  | nil => trivial
  | cons c cs ih => exact ⟨⟨h.1, h'.1⟩, fun o s' hstep => ih (h.2 o s' hstep) (h'.2 o s' hstep)⟩

/-- The rule of exact conditions. If, under the invariant `I`, a step from a
`Q` state ends in a `Q` state exactly when the step satisfies `P`, then a
run visits `Q` states only exactly when all of its steps satisfy `P`. -/
theorem statesAll_iff_stepsAll {Q : S → Prop}
    (hstep : ∀ s c o s', I s → Q s → m.step s c = .ok (o, s') → I s' ∧ (Q s' ↔ P s c)) (hI : I s) (hQ : Q s)
    (hrun : m.run s cs = .ok (os, s')) : m.StatesAll Q s cs ↔ m.StepsAll P s cs := by
  induction cs generalizing s os with
  | nil => simp [StatesAll, StepsAll, hQ]
  | cons c cs ih =>
    obtain ⟨o, next, rest, hnext, hrest, -⟩ := run_cons_eq_ok_iff.mp hrun
    obtain ⟨hInext, hiff⟩ := hstep s c o next hI hQ hnext
    have hstates : m.StatesAll Q s (c :: cs) ↔ m.StatesAll Q next cs := by
      simp [StatesAll, hQ, hnext]
    rw [hstates, stepsAll_cons_of_ok hnext, ← hiff]
    constructor
    · intro hall
      have hQnext : Q next := by
        cases cs with
        | nil => exact hall
        | cons => exact hall.1
      exact ⟨hQnext, (ih hInext hQnext hrest).mp hall⟩
    · rintro ⟨hQnext, hall⟩
      exact (ih hInext hQnext hrest).mpr hall

/-- Forward simulation, with a guard: while the steps of the second machine
satisfy `P` it answers every command as the first one does. -/
theorem run_simulates {m₁ : Machine S C O} {m₂ : Machine T C O} {R : S → T → Prop} {P : T → C → Prop}
    (hstep : ∀ s t c o s', R s t → P t c → m₁.step s c = .ok (o, s') → ∃ t', m₂.step t c = .ok (o, t') ∧ R s' t')
    (hR : R s t) (hguard : m₂.StepsAll P t cs) (hrun : m₁.run s cs = .ok (os, s')) :
    ∃ t', m₂.run t cs = .ok (os, t') ∧ R s' t' := by
  induction cs generalizing s t os with
  | nil =>
    obtain ⟨rfl, rfl⟩ := run_nil_eq_ok_iff.mp hrun
    exact ⟨t, rfl, hR⟩
  | cons c cs ih =>
    obtain ⟨o, next, rest, hnext, hrest, rfl⟩ := run_cons_eq_ok_iff.mp hrun
    obtain ⟨t', ht, hR'⟩ := hstep s t c o next hR hguard.1 hnext
    obtain ⟨last, hlast, hRlast⟩ := ih hR' (hguard.2 o t' ht) hrest
    exact ⟨last, run_cons_eq_ok_iff.mpr ⟨o, t', rest, ht, hlast, rfl⟩, hRlast⟩

/-- The rule for steps: under the invariant `I`, every step that is taken with
an admissible command satisfies `P`. -/
theorem stepsAll_of_run {A : C → Prop} (hstep : ∀ s c o s', I s → A c → m.step s c = .ok (o, s') → P s c ∧ I s')
    (hI : I s) (hA : ∀ c ∈ cs, A c) (hrun : m.run s cs = .ok (os, s')) : m.StepsAll P s cs := by
  induction cs generalizing s os with
  | nil => trivial
  | cons c cs ih =>
    obtain ⟨o, next, rest, hnext, hrest, -⟩ := run_cons_eq_ok_iff.mp hrun
    obtain ⟨hP, hInext⟩ := hstep s c o next hI (hA c List.mem_cons_self) hnext
    exact (stepsAll_cons_of_ok hnext).mpr ⟨hP, ih hInext (fun c hc => hA c (List.mem_cons_of_mem _ hc)) hrest⟩

theorem stepsAll_of_forall (m : Machine S C O) (h : ∀ s c, P s c) (s : S) (cs : List C) : m.StepsAll P s cs := by
  induction cs generalizing s with
  | nil => trivial
  | cons c cs ih => exact ⟨h s c, fun o s' _ => ih s'⟩

/-- Two conditions that an invariant makes equivalent on every step that is
taken, and that satisfies `G`, are met by the same runs of such steps. -/
theorem stepsAll_congr_of_guard {Q : S → C → Prop}
    (hstep : ∀ s c o s', I s → G s c → m.step s c = .ok (o, s') → (P s c ↔ Q s c) ∧ I s') (hI : I s)
    (hguard : m.StepsAll G s cs) (hrun : m.run s cs = .ok (os, s')) : m.StepsAll P s cs ↔ m.StepsAll Q s cs := by
  induction cs generalizing s os with
  | nil => exact Iff.rfl
  | cons c cs ih =>
    obtain ⟨o, next, rest, hnext, hrest, -⟩ := run_cons_eq_ok_iff.mp hrun
    obtain ⟨hiff, hInext⟩ := hstep s c o next hI hguard.1 hnext
    rw [stepsAll_cons_of_ok hnext, stepsAll_cons_of_ok hnext, hiff, ih hInext (hguard.2 o next hnext) hrest]

/-- Two conditions that an invariant makes equivalent on every step that is
taken are met by the same runs. -/
theorem stepsAll_congr {Q : S → C → Prop}
    (hstep : ∀ s c o s', I s → m.step s c = .ok (o, s') → (P s c ↔ Q s c) ∧ I s') (hI : I s)
    (hrun : m.run s cs = .ok (os, s')) : m.StepsAll P s cs ↔ m.StepsAll Q s cs :=
  stepsAll_congr_of_guard (G := fun _ _ => True) (fun s c o s' hI _ h => hstep s c o s' hI h) hI
    (m.stepsAll_of_forall (fun _ _ => trivial) s cs) hrun

end Machine

end Lib
