import Gem5.Lib.Heap
import Gem5.Lib.Run
import Gem5.Pred.DirectionPredictor

open Lib Result

namespace Gem5

/-- A call on a direction predictor. History objects are named in the order in
which the predictor allocated them. -/
inductive Call where
  | lookup (tid : ThreadID) (branch_addr : Addr)
  | uncondBranch (tid : ThreadID) (pc : Addr)
  | btbUpdate (tid : ThreadID) (branch_addr : Addr) (bp_history : Nat)
  | update (tid : ThreadID) (branch_addr : Addr) (taken : Bool) (bp_history : Nat) (squashed : Bool)
  | squash (tid : ThreadID) (bp_history : Nat)
  deriving DecidableEq, Repr

namespace Calls

/-- A predictor together with the history objects it has handed out and not yet
deleted. -/
structure State (S H : Type) where
  predictor : S
  histories : Heap H

variable {S S₁ S₂ H H₁ H₂ : Type}

def start (s : S) : State S H := ⟨s, .empty⟩

/-- Calls in any order, on any threads and with any addresses; only the history
objects passed back have to be live. A `lookup` is answered with the
predicted direction. -/
def machine (d : DirectionPredictor S H) : Machine (State S H) Call (Option Bool) where
  step
    | m, .lookup tid branch_addr => do
      let (taken, h, s) ← d.lookup m.predictor tid branch_addr
      .ok (some taken, ⟨s, m.histories.alloc h⟩)
    | m, .uncondBranch tid pc => do
      let (h, s) ← d.uncondBranch m.predictor tid pc
      .ok (none, ⟨s, m.histories.alloc h⟩)
    | m, .btbUpdate tid branch_addr bp_history => do
      let h ← m.histories.get bp_history
      let s ← d.btbUpdate m.predictor tid branch_addr h
      .ok (none, ⟨s, m.histories⟩)
    | m, .update tid branch_addr taken bp_history squashed => do
      let h ← m.histories.get bp_history
      let s ← d.update m.predictor tid branch_addr taken h squashed
      .ok (none, ⟨s, if squashed then m.histories else m.histories.free bp_history⟩)
    | m, .squash tid bp_history => do
      let h ← m.histories.get bp_history
      let s ← d.squash m.predictor tid h
      .ok (none, ⟨s, m.histories.free bp_history⟩)

variable {d : DirectionPredictor S H} {m m' : State S H} {tid : ThreadID} {pc : Addr} {o : Option Bool}

/-- What a call does. -/
inductive Step (d : DirectionPredictor S H) (m : State S H) : Call → Option Bool → State S H → Prop where
  | lookup {tid : ThreadID} {pc : Addr} {taken : Bool} {h : H} {s : S}
      (hcall : d.lookup m.predictor tid pc = .ok (taken, h, s)) :
      Step d m (.lookup tid pc) (some taken) ⟨s, m.histories.alloc h⟩
  | uncondBranch {tid : ThreadID} {pc : Addr} {h : H} {s : S} (hcall : d.uncondBranch m.predictor tid pc = .ok (h, s)) :
      Step d m (.uncondBranch tid pc) none ⟨s, m.histories.alloc h⟩
  | btbUpdate {tid : ThreadID} {pc : Addr} {name : Nat} {h : H} {s : S} (hget : m.histories.get name = .ok h)
      (hcall : d.btbUpdate m.predictor tid pc h = .ok s) : Step d m (.btbUpdate tid pc name) none ⟨s, m.histories⟩
  | update {tid : ThreadID} {pc : Addr} {taken : Bool} {name : Nat} {squashed : Bool} {h : H} {s : S}
      (hget : m.histories.get name = .ok h) (hcall : d.update m.predictor tid pc taken h squashed = .ok s) :
      Step d m (.update tid pc taken name squashed) none ⟨s, if squashed then m.histories else m.histories.free name⟩
  | squash {tid : ThreadID} {name : Nat} {h : H} {s : S} (hget : m.histories.get name = .ok h)
      (hcall : d.squash m.predictor tid h = .ok s) : Step d m (.squash tid name) none ⟨s, m.histories.free name⟩

theorem step_iff : (machine d).step m c = .ok (o, m') ↔ Step d m c o m' := by
  constructor
  · intro hstep
    cases c with
    | lookup tid pc =>
      obtain ⟨⟨taken, h, s⟩, hcall, hdone⟩ := bind_ok hstep
      cases hdone
      exact .lookup hcall
    | uncondBranch tid pc =>
      obtain ⟨⟨h, s⟩, hcall, hdone⟩ := bind_ok hstep
      cases hdone
      exact .uncondBranch hcall
    | _ =>
      simp only [machine, bind_eq_ok_iff] at hstep
      obtain ⟨h, hget, s, hcall, hdone⟩ := hstep
      cases hdone
      constructor <;> assumption
  · intro hstep
    cases hstep with
    | lookup hcall => exact bind_of_ok hcall _
    | uncondBranch hcall => exact bind_of_ok hcall _
    | _ hget hcall => exact (bind_of_ok hget _).trans (bind_of_ok hcall _)

variable {name : Nat}

/-- An invariant of the predictor and a property of its history objects. -/
def Holds (I : S → Prop) (K : H → Prop) (m : State S H) : Prop := I m.predictor ∧ m.histories.All K

variable {I : S → Prop}

theorem Holds.start (K : H → Prop) (h : I s) : Holds I K (start s : State S H) :=
  ⟨h, Heap.All.empty K⟩

variable {K : H → Prop}

theorem Holds.step (hd : d.Preserves I K) (h : Holds I K m) (hstep : (machine d).step m c = .ok (o, m')) :
    Holds I K m' := by
  obtain ⟨hI, hK⟩ := h
  cases step_iff.mp hstep with
  | lookup hcall =>
    obtain ⟨hI', hh⟩ := hd.lookup hI hcall
    exact ⟨hI', hK.alloc hh⟩
  | uncondBranch hcall =>
    obtain ⟨hI', hh⟩ := hd.uncondBranch hI hcall
    exact ⟨hI', hK.alloc hh⟩
  | @btbUpdate _ _ name h _ hget hcall =>
    exact ⟨hd.btbUpdate hI (hK name h (Heap.get_eq_ok_iff.mp hget)) hcall, hK⟩
  | @update _ _ _ name squashed h _ hget hcall =>
    refine ⟨hd.update hI (hK name h (Heap.get_eq_ok_iff.mp hget)) hcall, ?_⟩
    cases squashed with
    | false => exact hK.free name
    | true => exact hK
  | @squash _ name h _ hget hcall =>
    exact ⟨hd.squash hI (hK name h (Heap.get_eq_ok_iff.mp hget)) hcall, hK.free name⟩

/-- What every method preserves holds after any sequence of calls. -/
theorem reaches_holds (hd : d.Preserves I K) (hs : I s) (hreach : (machine d).Reaches (start s) m) : Holds I K m :=
  hreach.invariant (.start K hs) fun _ _ _ _ h hstep => h.step hd hstep

/-- The predictor never changes a history object it has handed out: while it is
live it is what its prediction stored. -/
theorem reaches_histories (hreach : (machine d).Reaches m m') (hname : name < m.histories.next)
    (hlive : m'.histories.get name = .ok h) : m.histories.get name = .ok h := by
  have hstable : m.histories.next ≤ m'.histories.next ∧
      (m'.histories.cell name = m.histories.cell name ∨ m'.histories.cell name = none) := by
    refine hreach.invariant (I := fun s => m.histories.next ≤ s.histories.next ∧
      (s.histories.cell name = m.histories.cell name ∨ s.histories.cell name = none))
      ⟨le_refl _, .inl rfl⟩ ?_
    rintro s c o s' ⟨hnext, hcell⟩ hstep
    have halloc : ∀ h', (s.histories.alloc h').cell name = s.histories.cell name := fun h' => if_neg (by omega)
    have hfree : ∀ i, (s.histories.free i).cell name = s.histories.cell name ∨
        (s.histories.free i).cell name = none := by
      intro i
      by_cases hi : name = i
      · exact .inr (if_pos hi)
      · exact .inl (if_neg hi)
    cases step_iff.mp hstep with
    | lookup =>
      exact ⟨Nat.le_succ_of_le hnext, by simpa only [halloc] using hcell⟩
    | uncondBranch =>
      exact ⟨Nat.le_succ_of_le hnext, by simpa only [halloc] using hcell⟩
    | btbUpdate =>
      exact ⟨hnext, hcell⟩
    | @update _ _ _ i squashed _ _ _ _ =>
      cases squashed with
      | true => exact ⟨hnext, hcell⟩
      | false =>
        refine ⟨hnext, ?_⟩
        rcases hfree i with hkeep | hgone
        · simpa only [Bool.false_eq_true, if_false, hkeep] using hcell
        · exact .inr hgone
    | @squash _ i _ _ _ _ =>
      refine ⟨hnext, ?_⟩
      rcases hfree i with hkeep | hgone
      · simpa only [hkeep] using hcell
      · exact .inr hgone
  have hcell := Heap.get_eq_ok_iff.mp hlive
  rcases hstable.2 with hsame | hnone
  · exact Heap.get_eq_ok_iff.mpr (hsame ▸ hcell)
  · rw [hnone] at hcell
    cases hcell

/-- The guard on the commit-time training of the second predictor, as a
condition on its calls. -/
def CommitGuard (P : Bool → H → Prop) (m : State S H) : Call → Prop
  | .update _ _ taken name false => ∀ h, m.histories.get name = .ok h → P taken h
  | _ => True

theorem CommitGuard.of_forall {P : Bool → H → Prop} (hP : ∀ taken h, P taken h) (m : State S H) (c : Call) :
    CommitGuard P m c := by
  unfold CommitGuard
  split
  · exact fun h _ => hP _ h
  · trivial

theorem CommitGuard.of_ne (hc : ∀ tid pc taken name, c ≠ .update tid pc taken name false) : CommitGuard P m c := by
  unfold CommitGuard
  split
  · exact absurd rfl (hc _ _ _ _)
  · trivial

/-- Where no method faults, a call faults only on a history object that is not
live. -/
theorem step_total {P : Bool → H → Prop} (hd : d.Total I K P) (hm : Holds I K m) (hguard : CommitGuard P m c) :
    (∃ o m', (machine d).step m c = .ok (o, m')) ∨ (machine d).step m c = .error .dangling := by
  obtain ⟨hI, hK⟩ := hm
  cases c with
  | lookup tid pc =>
    obtain ⟨taken, h, s, hcall⟩ := hd.lookup tid pc hI
    exact .inl ⟨_, _, step_iff.mpr (.lookup hcall)⟩
  | uncondBranch tid pc =>
    obtain ⟨h, s, hcall⟩ := hd.uncondBranch tid pc hI
    exact .inl ⟨_, _, step_iff.mpr (.uncondBranch hcall)⟩
  | btbUpdate tid pc name =>
    rcases m.histories.get_eq_ok_or_error name with ⟨h, hget⟩ | hdead
    · obtain ⟨s, hcall⟩ := hd.btbUpdate tid pc hI (hK name h (Heap.get_eq_ok_iff.mp hget))
      exact .inl ⟨_, _, step_iff.mpr (.btbUpdate hget hcall)⟩
    · exact .inr (bind_of_error hdead _)
  | update tid pc taken name squashed =>
    rcases m.histories.get_eq_ok_or_error name with ⟨h, hget⟩ | hdead
    · have hcommit : squashed = false → P taken h := by
        rintro rfl
        exact hguard h hget
      obtain ⟨s, hcall⟩ := hd.update tid pc taken squashed hI (hK name h (Heap.get_eq_ok_iff.mp hget)) hcommit
      exact .inl ⟨_, _, step_iff.mpr (.update hget hcall)⟩
    · exact .inr (bind_of_error hdead _)
  | squash tid name =>
    rcases m.histories.get_eq_ok_or_error name with ⟨h, hget⟩ | hdead
    · obtain ⟨s, hcall⟩ := hd.squash tid hI (hK name h (Heap.get_eq_ok_iff.mp hget))
      exact .inl ⟨_, _, step_iff.mpr (.squash hget hcall)⟩
    · exact .inr (bind_of_error hdead _)

/-- No call faults on an index or on an assertion, in any state that any calls
lead to; a call can only be made on a history object that is not live. -/
def InRange (d : DirectionPredictor S H) (s : S) : Prop :=
  ∀ m, (machine d).Reaches (start s) m → ∀ c fault, (machine d).step m c = .error fault → fault = .dangling

theorem inRange_of_total {P : Bool → H → Prop} (hd : d.Total I K P) (hpreserves : d.Preserves I K)
    (hP : ∀ taken h, P taken h) (hs : I s) : InRange d s := by
  intro m hreach c fault hfault
  rcases step_total hd (reaches_holds hpreserves hs hreach) (.of_forall hP m c) with ⟨o, m', hok⟩ | hdead
  · rw [hok] at hfault
    cases hfault
  · rw [hdead] at hfault
    cases hfault
    rfl

theorem InRange.lookup_ne (h : InRange d s) (hreach : (machine d).Reaches (start s) m) :
    d.lookup m.predictor tid pc ≠ .error .outOfRange := by
  intro hlookup
  cases h m hreach (.lookup tid pc) .outOfRange (bind_of_error hlookup _)

/-- The states that repeated jumps lead to, seen through what each jump does to
one component. -/
theorem reaches_jumps (d : DirectionPredictor S H) {A : Type} (view : S → A) (f : A → A) (tid : ThreadID)
    (pc : Addr) (hjump : ∀ s, ∃ h s', d.uncondBranch s tid pc = .ok (h, s') ∧ view s' = f (view s))
    (s : S) (count : Nat) : ∃ m, (machine d).Reaches (start s) m ∧ view m.predictor = f^[count] (view s) := by
  induction count with
  | zero => exact ⟨start s, .start, rfl⟩
  | succ count ih =>
    obtain ⟨m, hreach, hview⟩ := ih
    obtain ⟨h, s', hcall, hview'⟩ := hjump m.predictor
    refine ⟨_, hreach.step (step_iff.mpr (.uncondBranch hcall)), ?_⟩
    rw [Function.iterate_succ_apply', ← hview, hview']

/-- Two predictors in related states with related history objects. -/
def Related (R : S₁ → S₂ → Prop) (K : H₁ → H₂ → Prop) (m₁ : State S₁ H₁) (m₂ : State S₂ H₂) : Prop :=
  R m₁.predictor m₂.predictor ∧ Heap.Related K m₁.histories m₂.histories

theorem Related.step {R : S₁ → S₂ → Prop} {K : H₁ → H₂ → Prop} {P : Bool → H₂ → Prop} (hsim : d₁.Simulates d₂ R K P)
    (m₁ : State S₁ H₁) (m₂ : State S₂ H₂) (c : Call) (o : Option Bool) (m₁' : State S₁ H₁) (hrel : Related R K m₁ m₂)
    (hguard : CommitGuard P m₂ c) (hstep : (machine d₁).step m₁ c = .ok (o, m₁')) :
    ∃ m₂', (machine d₂).step m₂ c = .ok (o, m₂') ∧ Related R K m₁' m₂' := by
  obtain ⟨hR, hK⟩ := hrel
  cases step_iff.mp hstep with
  | lookup hcall =>
    obtain ⟨h₂, s₂, hcall₂, hR', hh⟩ := hsim.lookup hR hcall
    exact ⟨⟨s₂, m₂.histories.alloc h₂⟩, step_iff.mpr (.lookup hcall₂), hR', hK.alloc hh⟩
  | uncondBranch hcall =>
    obtain ⟨h₂, s₂, hcall₂, hR', hh⟩ := hsim.uncondBranch hR hcall
    exact ⟨⟨s₂, m₂.histories.alloc h₂⟩, step_iff.mpr (.uncondBranch hcall₂), hR', hK.alloc hh⟩
  | btbUpdate hget hcall =>
    obtain ⟨h₂, hget₂, hh⟩ := hK.get hget
    obtain ⟨s₂, hcall₂, hR'⟩ := hsim.btbUpdate hR hh hcall
    exact ⟨⟨s₂, m₂.histories⟩, step_iff.mpr (.btbUpdate hget₂ hcall₂), hR', hK⟩
  | @update _ _ taken name squashed _ _ hget hcall =>
    obtain ⟨h₂, hget₂, hh⟩ := hK.get hget
    have hcommit : squashed = false → P taken h₂ := by
      rintro rfl
      exact hguard h₂ hget₂
    obtain ⟨s₂, hcall₂, hR'⟩ := hsim.update hR hh hcommit hcall
    refine ⟨_, step_iff.mpr (.update hget₂ hcall₂), hR', ?_⟩
    cases squashed with
    | false => exact hK.free name
    | true => exact hK
  | @squash _ name _ _ hget hcall =>
    obtain ⟨h₂, hget₂, hh⟩ := hK.get hget
    obtain ⟨s₂, hcall₂, hR'⟩ := hsim.squash hR hh hcall
    exact ⟨⟨s₂, m₂.histories.free name⟩, step_iff.mpr (.squash hget₂ hcall₂), hR', hK.free name⟩

end Calls

end Gem5
