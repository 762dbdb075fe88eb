import Gem5.Pred.Calls

open Lib Result List

namespace Gem5.InFlight

/-- A branch in flight. `before` is the predictor as it was when the branch was
predicted; `direction` is the direction the fetched path takes at the
branch, as last decided by the prediction, by a BTB miss or by a correction. -/
structure Branch (S H : Type) where
  pc : Addr
  conditional : Bool
  before : S
  history : H
  direction : Bool

/-- The branches of one thread: those in flight and the directions of those
committed, both youngest first. -/
structure State (S H : Type) where
  predictor : S
  inflight : List (Branch S H)
  retired : List Bool

/-- The calls `BPredUnit` makes for one thread: younger branches are predicted,
the youngest one is overruled by the BTB, corrected or squashed, and the
oldest one commits. -/
inductive Event where
  | lookup (pc : Addr)
  | uncondBranch (pc : Addr)
  | btbUpdate
  | correct (taken : Bool)
  | squash
  | commit (taken : Bool)
  deriving DecidableEq, Repr

variable {S H : Type}

def start (s : S) : State S H := ⟨s, [], []⟩

/-- The directions of all branches on the current path, youngest first. -/
def State.path (m : State S H) : List Bool := m.inflight.map Branch.direction ++ m.retired

def machine (d : DirectionPredictor S H) (tid : ThreadID) : Machine (State S H) Event (Option Bool) where
  step
    | m, .lookup pc => do
      let (taken, h, s) ← d.lookup m.predictor tid pc
      .ok (some taken, { m with predictor := s, inflight := ⟨pc, true, m.predictor, h, taken⟩ :: m.inflight })
    | m, .uncondBranch pc => do
      let (h, s) ← d.uncondBranch m.predictor tid pc
      .ok (none, { m with predictor := s, inflight := ⟨pc, false, m.predictor, h, true⟩ :: m.inflight })
    | ⟨predictor, b :: rest, retired⟩, .btbUpdate => do
      let s ← d.btbUpdate predictor tid b.pc b.history
      .ok (none, ⟨s, { b with direction := false } :: rest, retired⟩)
    | ⟨predictor, b :: rest, retired⟩, .correct taken => do
      let s ← d.update predictor tid b.pc taken b.history true
      .ok (none, ⟨s, { b with direction := taken } :: rest, retired⟩)
    | ⟨predictor, b :: rest, retired⟩, .squash => do
      let s ← d.squash predictor tid b.history
      .ok (none, ⟨s, rest, retired⟩)
    | ⟨predictor, b :: rest, retired⟩, .commit taken => do
      let oldest := (b :: rest).getLast (List.cons_ne_nil b rest)
      let s ← d.update predictor tid oldest.pc taken oldest.history false
      .ok (none, ⟨s, (b :: rest).dropLast, oldest.direction :: retired⟩)
    | ⟨_, [], _⟩, _ => .error .dangling

variable {d : DirectionPredictor S H} {tid : ThreadID} {m m' : State S H} {o : Option Bool}

/-- What an event does. -/
inductive Step (d : DirectionPredictor S H) (tid : ThreadID) (m : State S H) :
  Event → Option Bool → State S H → Prop where
  | lookup {pc : Addr} {taken : Bool} {h : H} {s : S} (hcall : d.lookup m.predictor tid pc = .ok (taken, h, s)) :
      Step d tid m (.lookup pc) (some taken) ⟨s, ⟨pc, true, m.predictor, h, taken⟩ :: m.inflight, m.retired⟩
  | uncondBranch {pc : Addr} {h : H} {s : S} (hcall : d.uncondBranch m.predictor tid pc = .ok (h, s)) :
      Step d tid m (.uncondBranch pc) none ⟨s, ⟨pc, false, m.predictor, h, true⟩ :: m.inflight, m.retired⟩
  | btbUpdate {b : Branch S H} {rest : List (Branch S H)} {s : S} (hinflight : m.inflight = b :: rest)
      (hcall : d.btbUpdate m.predictor tid b.pc b.history = .ok s) :
      Step d tid m .btbUpdate none ⟨s, { b with direction := false } :: rest, m.retired⟩
  | correct {taken : Bool} {b : Branch S H} {rest : List (Branch S H)} {s : S} (hinflight : m.inflight = b :: rest)
      (hcall : d.update m.predictor tid b.pc taken b.history true = .ok s) :
      Step d tid m (.correct taken) none ⟨s, { b with direction := taken } :: rest, m.retired⟩
  | squash {b : Branch S H} {rest : List (Branch S H)} {s : S} (hinflight : m.inflight = b :: rest)
      (hcall : d.squash m.predictor tid b.history = .ok s) : Step d tid m .squash none ⟨s, rest, m.retired⟩
  | commit {taken : Bool} {younger : List (Branch S H)} {b : Branch S H} {s : S}
      (hinflight : m.inflight = younger ++ [b])
      (hcall : d.update m.predictor tid b.pc taken b.history false = .ok s) :
      Step d tid m (.commit taken) none ⟨s, younger, b.direction :: m.retired⟩

theorem step_commit_append (s : S) (younger : List (Branch S H)) (b : Branch S H) (retired : List Bool) (taken : Bool) :
    (machine d tid).step ⟨s, younger ++ [b], retired⟩ (.commit taken) = (do
      let s ← d.update s tid b.pc taken b.history false
      .ok (none, ⟨s, younger, b.direction :: retired⟩)) := by
  cases younger with
  | nil => rfl
  | cons first rest =>
    have hlast : (first :: (rest ++ [b])).getLast (cons_ne_nil _ _) = b := by simp
    have hdrop : (first :: (rest ++ [b])).dropLast = first :: rest := by
      rw [← cons_append, dropLast_concat]
    simp only [cons_append, machine, hlast, hdrop]

theorem step_iff : (machine d tid).step m e = .ok (o, m') ↔ Step d tid m e o m' := by
  obtain ⟨predictor, inflight, retired⟩ := m
  constructor
  · intro h
    cases e with
    | lookup pc =>
      obtain ⟨⟨taken, history, s⟩, hcall, hdone⟩ := bind_ok h
      cases hdone
      exact .lookup hcall
    | uncondBranch pc =>
      obtain ⟨⟨history, s⟩, hcall, hdone⟩ := bind_ok h
      cases hdone
      exact .uncondBranch hcall
    | commit taken =>
      rcases eq_nil_or_concat' inflight with rfl | ⟨younger, b, rfl⟩
      · cases h
      rw [step_commit_append] at h
      obtain ⟨s, hcall, hdone⟩ := bind_ok h
      cases hdone
      exact .commit rfl hcall
    | btbUpdate =>
      cases inflight with
      | nil => cases h
      | cons b rest =>
        obtain ⟨s, hcall, hdone⟩ := bind_ok h
        cases hdone
        exact .btbUpdate rfl hcall
    | correct taken =>
      cases inflight with
      | nil => cases h
      | cons b rest =>
        obtain ⟨s, hcall, hdone⟩ := bind_ok h
        cases hdone
        exact .correct rfl hcall
    | squash =>
      cases inflight with
      | nil => cases h
      | cons b rest =>
        obtain ⟨s, hcall, hdone⟩ := bind_ok h
        cases hdone
        exact .squash rfl hcall
  · intro h
    cases h with
    | lookup hcall => exact bind_of_ok hcall _
    | uncondBranch hcall => exact bind_of_ok hcall _
    | commit hinflight hcall =>
      cases hinflight
      exact (step_commit_append ..).trans (bind_of_ok hcall _)
    | _ hinflight hcall =>
      cases hinflight
      exact bind_of_ok hcall _

/-- The history object of a branch is the one its prediction returned. -/
def Branch.Predicted (d : DirectionPredictor S H) (tid : ThreadID) (b : Branch S H) : Prop :=
  (b.conditional = true ∧ ∃ taken s, d.lookup b.before tid b.pc = .ok (taken, b.history, s)) ∨
    (b.conditional = false ∧ ∃ s, d.uncondBranch b.before tid b.pc = .ok (b.history, s))

/-- No step changes what a branch in flight carries except its direction, and
a new branch is predicted from the current predictor. -/
theorem mem_inflight_of_step (hstep : (machine d tid).step m e = .ok (o, m')) (hmem : b' ∈ m'.inflight) :
    (∃ b ∈ m.inflight, ∃ direction, b' = { b with direction }) ∨ (b'.before = m.predictor ∧ b'.Predicted d tid) := by
  cases step_iff.mp hstep with
  | @lookup _ taken _ s hcall =>
    rcases mem_cons.mp hmem with rfl | hold
    · exact .inr ⟨rfl, .inl ⟨rfl, taken, s, hcall⟩⟩
    · exact .inl ⟨b', hold, b'.direction, rfl⟩
  | @uncondBranch _ _ s hcall =>
    rcases mem_cons.mp hmem with rfl | hold
    · exact .inr ⟨rfl, .inr ⟨rfl, s, hcall⟩⟩
    · exact .inl ⟨b', hold, b'.direction, rfl⟩
  | @btbUpdate b _ _ hinflight _ =>
    rcases mem_cons.mp hmem with rfl | hold
    · exact .inl ⟨b, by simp [hinflight], false, rfl⟩
    · exact .inl ⟨b', by simp [hinflight, hold], b'.direction, rfl⟩
  | @correct taken b _ _ hinflight _ =>
    rcases mem_cons.mp hmem with rfl | hold
    · exact .inl ⟨b, by simp [hinflight], taken, rfl⟩
    · exact .inl ⟨b', by simp [hinflight, hold], b'.direction, rfl⟩
  | @squash _ rest _ hinflight _ =>
    exact .inl ⟨b', by simp [hinflight, show b' ∈ rest from hmem], b'.direction, rfl⟩
  | @commit _ younger _ _ hinflight _ =>
    exact .inl ⟨b', by simp [hinflight, show b' ∈ younger from hmem], b'.direction, rfl⟩

/-- `I` holds of the predictor, now and when each branch in flight was
predicted, and every branch carries the history object of its prediction. -/
def Holds (d : DirectionPredictor S H) (tid : ThreadID) (I : S → Prop) (K : H → Prop) (m : State S H) : Prop :=
  I m.predictor ∧ ∀ b ∈ m.inflight, I b.before ∧ K b.history ∧ b.Predicted d tid

theorem Holds.step {I : S → Prop} {K : H → Prop} (hd : d.Preserves I K) (h : Holds d tid I K m)
    (hstep : (machine d tid).step m e = .ok (o, m')) : Holds d tid I K m' := by
  obtain ⟨hI, hbranches⟩ := h
  refine ⟨?_, fun b' hmem => ?_⟩
  · cases step_iff.mp hstep with
    | lookup hcall =>
      exact (hd.lookup hI hcall).1
    | uncondBranch hcall =>
      exact (hd.uncondBranch hI hcall).1
    | @btbUpdate b _ _ hinflight hcall =>
      exact hd.btbUpdate hI (hbranches b (by simp [hinflight])).2.1 hcall
    | @correct _ b _ _ hinflight hcall =>
      exact hd.update hI (hbranches b (by simp [hinflight])).2.1 hcall
    | @squash b _ _ hinflight hcall =>
      exact hd.squash hI (hbranches b (by simp [hinflight])).2.1 hcall
    | @commit _ _ b _ hinflight hcall =>
      exact hd.update hI (hbranches b (by simp [hinflight])).2.1 hcall
  · rcases mem_inflight_of_step hstep hmem with ⟨b, hold, direction, rfl⟩ | ⟨hbefore, hpred⟩
    · exact hbranches b hold
    · refine ⟨hbefore ▸ hI, ?_, hpred⟩
      rcases hpred with ⟨-, taken, s, hcall⟩ | ⟨-, s, hcall⟩
      · exact (hd.lookup (hbefore ▸ hI) hcall).2
      · exact (hd.uncondBranch (hbefore ▸ hI) hcall).2

/-- What every method preserves holds throughout the runs of one thread. -/
theorem reaches_holds {I : S → Prop} {K : H → Prop} (hd : d.Preserves I K) (hs : I s)
    (hreach : (machine d tid).Reaches (start s) m) : Holds d tid I K m := by
  refine hreach.invariant ⟨hs, ?_⟩ fun _ _ _ _ h hstep => h.step hd hstep
  intro b hb
  cases hb

/-- Every branch in flight was predicted, by `lookup` if it is conditional. -/
theorem lookup_of_reaches (hreach : (machine d tid).Reaches (start s) m) (hmem : b ∈ m.inflight)
    (hconditional : b.conditional = true) : ∃ taken s', d.lookup b.before tid b.pc = .ok (taken, b.history, s') := by
  have hholds := reaches_holds (I := fun _ => True) (K := fun _ => True)
    ⟨fun _ _ => ⟨trivial, trivial⟩, fun _ _ => ⟨trivial, trivial⟩, fun _ _ _ => trivial,
      fun _ _ _ => trivial, fun _ _ _ => trivial⟩ trivial hreach
  obtain ⟨-, -, ⟨-, hlookup⟩ | ⟨hjump, -⟩⟩ := hholds.2 b hmem
  · exact hlookup
  · rw [hconditional] at hjump
    cases hjump

end Gem5.InFlight
