import Gem5.Pred.InFlight
import Gem5.Pred.LTAGE.Frame
import Gem5.Pred.LTAGE.Spec

open Lib Lib.RollingBuffer List
open Gem5.InFlight (Branch Event)

namespace Gem5.LTAGE

variable {p : Params} {tid : ThreadID}

abbrev Thread (p : Params) : Type := InFlight.State (State p) (BranchInfo p)

/-- How an event changes the ages of the branches in flight, youngest first. The age
of a branch counts the outcomes that the buffer has taken after its own. A
correction takes them out of the buffer again, a squash does not. -/
def stepAges (ages : List Nat) : Event → List Nat
  | .lookup _ => 0 :: ages.map (· + 1)
  | .uncondBranch _ => 0 :: ages.map (· + 1)
  | .btbUpdate => ages
  | .correct _ =>
    match ages with
    | [] => []
    | age :: older => 0 :: older.map (· - age)
  | .squash => ages.tail
  | .commit _ => ages.dropLast

/-- The event leaves the histories of the branches in flight in the buffer: no
branch gets older than the slack of the buffer, and `btbUpdate` follows the
prediction of its branch. -/
def Allowed (p : Params) (ages : List Nat) : Event → Prop
  | .lookup _ => ∀ age ∈ ages, age + 1 ≤ p.histBufferSize.toNat - 2 * p.maxHist.toNat - 1
  | .uncondBranch _ => ∀ age ∈ ages, age + 1 ≤ p.histBufferSize.toNat - 2 * p.maxHist.toNat - 1
  | .btbUpdate => ages.head? = some 0
  | _ => True

/-- All events of a run leave the histories of the branches in flight in the
buffer, when the branches have the given ages at first. -/
def KeepsHistories (p : Params) : List Nat → List Event → Prop
  | _, [] => True
  | ages, e :: later => Allowed p ages e ∧ KeepsHistories p (stepAges ages e) later

instance (p : Params) (ages : List Nat) : DecidablePred (Allowed p ages)
  | .lookup _ => inferInstanceAs (Decidable (∀ age ∈ ages, _ ≤ _))
  | .uncondBranch _ => inferInstanceAs (Decidable (∀ age ∈ ages, _ ≤ _))
  | .btbUpdate => inferInstanceAs (Decidable (_ = _))
  | .correct _ => inferInstanceAs (Decidable True)
  | .squash => inferInstanceAs (Decidable True)
  | .commit _ => inferInstanceAs (Decidable True)

instance decidableKeepsHistories (p : Params) : ∀ ages events, Decidable (KeepsHistories p ages events)
  | _, [] => inferInstanceAs (Decidable True)
  | ages, e :: later =>
    have := decidableKeepsHistories p (stepAges ages e) later
    inferInstanceAs (Decidable (_ ∧ _))

/-- What is kept of a branch in flight of some age: the history before it, in the
buffer and in its object. -/
structure Kept (tid : ThreadID) (tHist : ThreadHistory p) (b : Branch (State p) (BranchInfo p)) (age : Nat) : Prop where
  behind : Behind (p.histBufferSize.toNat - p.maxHist.toNat) tHist.ptGhist age b.history.saved.ptGhist
  age_le : age ≤ p.histBufferSize.toNat - 2 * p.maxHist.toNat - 1
  outcomes : window tHist.globalHistory (b.history.saved.ptGhist + 1) p.maxHist.toNat =
    (b.before.threadHistory tid).history.outcomes
  saves : b.history.saved.Saves (b.before.threadHistory tid).history b.pc
  before : (b.before.threadHistory tid).Placed
  newest : age = 0 → tHist.pathHist = b.history.saved.pathHist

/-- The branches in flight have the given ages. -/
structure Tracked (tid : ThreadID) (m : Thread p) (ages : List Nat) : Prop where
  placed : (m.predictor.threadHistory tid).Placed
  kept : List.Forall₂ (Kept tid (m.predictor.threadHistory tid)) m.inflight ages
  increasing : ages.Pairwise (· < ·)

/-- What a step can make of the history of the thread. -/
inductive HistoryMove (tid : ThreadID) (m : Thread p) : History → Prop where
  | stays : HistoryMove tid m (m.predictor.threadHistory tid).history
  | records (branch_pc : Addr) (taken : Bool) :
      HistoryMove tid m ((m.predictor.threadHistory tid).history.push p.maxHist.toNat branch_pc taken)
  | corrects {b : Branch (State p) (BranchInfo p)} (hmem : b ∈ m.inflight) (taken : Bool) :
      HistoryMove tid m ((b.before.threadHistory tid).history.push p.maxHist.toNat b.pc taken)

theorem forall₂_map_right_of_forall {A B C : Type} {R : A → B → Prop} {Q : A → C → Prop} {f : B → C} {xs : List A}
    {ys : List B} (h : Forall₂ R xs ys) (himp : ∀ x, ∀ y ∈ ys, R x y → Q x (f y)) :
    Forall₂ Q xs (ys.map f) := by
  induction h with
  | nil => exact .nil
  | cons hhead _ ih =>
    refine .cons (himp _ _ mem_cons_self hhead) (ih ?_)
    intro x y hmem
    exact himp x y (mem_cons_of_mem _ hmem)

variable {taken : Bool}

section

variable {tHist after : ThreadHistory p} {b : Branch (State p) (BranchInfo p)} {age : Nat} (hp : Sized p)

include hp

/-- A branch in flight gets older when another outcome is recorded. -/
theorem Kept.record (h : Kept tid tHist b age)
    (hptGhist : after.ptGhist = next (p.histBufferSize.toNat - p.maxHist.toNat) tHist.ptGhist)
    (hbuffer : after.globalHistory = push p.maxHist.toNat tHist.globalHistory tHist.ptGhist taken)
    (hage : age + 1 ≤ p.histBufferSize.toNat - 2 * p.maxHist.toNat - 1) : Kept tid after b (age + 1) := by
  have hsize := hp.buffer
  refine ⟨?_, hage, ?_, h.saves, h.before, nofun⟩
  · rw [hptGhist]
    exact h.behind.next (by omega)
  · rw [hbuffer, window_push_of_behind _ _ h.behind (by omega)]
    exact h.outcomes

/-- The history of a branch that is recorded is kept. -/
theorem Kept.recorded (h : tHist.Placed) (hafter : after.Placed) (hbefore : b.before.threadHistory tid = tHist)
    (hsaves : b.history.saved.Saves tHist.history b.pc) (hsaved : b.history.saved.ptGhist = after.ptGhist)
    (hptGhist : after.ptGhist = next (p.histBufferSize.toNat - p.maxHist.toNat) tHist.ptGhist)
    (hbuffer : after.globalHistory = push p.maxHist.toNat tHist.globalHistory tHist.ptGhist taken)
    (hpath : after.pathHist = pushPath tHist.pathHist b.pc) : Kept tid after b 0 := by
  refine ⟨?_, Nat.zero_le _, ?_, ?_, ?_, ?_⟩
  · rw [hsaved]
    exact .zero hafter.ptGhist_lt
  · rw [hsaved, hbuffer, hptGhist, hbefore]
    exact window_push_tail _ _ hp.buffer h.ptGhist_lt
  · rw [hbefore]
    exact hsaves
  · rw [hbefore]
    exact h
  · intro _
    rw [hpath, hsaves.pathHist]
    rfl

/-- A branch in flight is as much younger as the corrected one was old. -/
theorem Kept.rewind (h : Kept tid tHist b age) {saved : SavedHistory p}
    (hyounger : Behind (p.histBufferSize.toNat - p.maxHist.toNat) tHist.ptGhist younger saved.ptGhist)
    (hlt : younger < age) (hptGhist : after.ptGhist = saved.ptGhist)
    (hbuffer : ∃ hin, after.globalHistory = tHist.globalHistory.set saved.ptGhist taken hin) :
    Kept tid after b (age - younger) := by
  have hsize := hp.buffer
  have hage := h.age_le
  have hbehind := h.behind.sub hyounger (Nat.le_of_lt hlt) (by omega)
  obtain ⟨hin, hbuffer⟩ := hbuffer
  refine ⟨?_, by omega, ?_, h.saves, h.before, ?_⟩
  · rw [hptGhist]
    exact hbehind
  · rw [hbuffer, window_set_of_behind _ _ hbehind (by omega) (by omega)]
    exact h.outcomes
  · intro hzero
    omega

omit hp in
/-- The corrected branch is the newest one. -/
theorem Kept.corrected (h : Kept tid tHist b age) (hptGhist : after.ptGhist = b.history.saved.ptGhist)
    (hbuffer : ∃ hin, after.globalHistory = tHist.globalHistory.set b.history.saved.ptGhist taken hin)
    (hpath : after.pathHist = b.history.saved.pathHist) : Kept tid after { b with direction := taken } 0 := by
  obtain ⟨hin, hbuffer⟩ := hbuffer
  refine ⟨?_, Nat.zero_le _, ?_, h.saves, h.before, fun _ => hpath⟩
  · rw [hptGhist]
    exact .zero h.behind.lt
  · rw [hbuffer, window_set_tail]
    exact h.outcomes

end

section

variable {m : Thread p} {ages : List Nat} {s : State p} {tHist : ThreadHistory p} {b : Branch (State p) (BranchInfo p)}
  (hp : Sized p) (h : Tracked tid m ages) (hs : s.threadHistory = Function.update m.predictor.threadHistory tid tHist)

include hp h hs

/-- A prediction, by either method. -/
theorem Tracked.record {saved : SavedHistory p}
    (hupdate : (m.predictor.threadHistory tid).updateHistories b.pc taken = .ok (saved, tHist))
    (hbefore : b.before = m.predictor) (hsaved : b.history.saved = saved)
    (hages : ∀ age ∈ ages, age + 1 ≤ p.histBufferSize.toNat - 2 * p.maxHist.toNat - 1) : (s.threadHistory tid).Placed ∧
      Forall₂ (Kept tid (s.threadHistory tid)) (b :: m.inflight) (0 :: ages.map (· + 1)) ∧
      (s.threadHistory tid).history = (m.predictor.threadHistory tid).history.push p.maxHist.toNat b.pc taken := by
  obtain ⟨saved', after, hspec, hplaced, hhistory, hptGhist, hbuffer, hsaves, hposition⟩ :=
    ThreadHistory.updateHistories_spec hp h.placed b.pc taken
  rw [hupdate] at hspec
  cases hspec
  have hthread : s.threadHistory tid = tHist := by rw [hs, Function.update_self]
  have hpath : tHist.pathHist = pushPath (m.predictor.threadHistory tid).pathHist b.pc :=
    congrArg History.pathHist hhistory
  rw [hthread]
  refine ⟨hplaced, .cons ?_ ?_, hhistory⟩
  · exact Kept.recorded hp h.placed hplaced (congrArg (fun s => s.threadHistory tid) hbefore) (hsaved ▸ hsaves)
      (hsaved ▸ hposition) hptGhist hbuffer hpath
  · apply forall₂_map_right_of_forall h.kept
    intro older age hmem hkept
    exact hkept.record hp hptGhist hbuffer (hages age hmem)

/-- A correction of the youngest branch. -/
theorem Tracked.correct {rest : List (Branch (State p) (BranchInfo p))} (hinflight : m.inflight = b :: rest)
    (hsquash : (m.predictor.threadHistory tid).squash taken b.history.saved = .ok tHist) :
    (s.threadHistory tid).Placed ∧ (∃ age older, ages = age :: older ∧ Forall₂ (Kept tid (s.threadHistory tid))
        ({ b with direction := taken } :: rest) (0 :: older.map (· - age))) ∧
      (s.threadHistory tid).history = (b.before.threadHistory tid).history.push p.maxHist.toNat b.pc taken := by
  have hthread : s.threadHistory tid = tHist := by rw [hs, Function.update_self]
  have hkept := h.kept
  have hincreasing := h.increasing
  rw [hinflight] at hkept
  obtain ⟨age, older, hyoungest, holder, hages⟩ := forall₂_cons_left_iff.mp hkept
  rw [hages] at hincreasing
  obtain ⟨after, hspec, hplaced, hhistory, hptGhist, hbuffer⟩ := ThreadHistory.squash_spec hp h.placed
    hyoungest.before.blank hyoungest.saves hyoungest.behind.lt hyoungest.outcomes taken
  rw [hsquash] at hspec
  cases hspec
  have hpath : tHist.pathHist = b.history.saved.pathHist :=
    (congrArg History.pathHist hhistory).trans hyoungest.saves.pathHist.symm
  rw [hthread]
  refine ⟨hplaced, ⟨age, older, hages, .cons (hyoungest.corrected hptGhist ⟨_, hbuffer⟩ hpath) ?_⟩, hhistory⟩
  apply forall₂_map_right_of_forall holder
  intro other otherAge hmem hother
  exact hother.rewind hp hyoungest.behind (rel_of_pairwise_cons hincreasing hmem) hptGhist ⟨_, hbuffer⟩

end

variable {m : Thread p} {ages : List Nat}

/-- Right after its prediction, `btbUpdate` corrects the youngest branch. -/
theorem Tracked.btbUpdate_eq_squash (h : Tracked tid m ages) (hinflight : m.inflight = b :: rest)
    (hage : ages.head? = some 0) : (m.predictor.threadHistory tid).btbUpdate b.history.saved =
      (m.predictor.threadHistory tid).squash false b.history.saved := by
  have hkept := h.kept
  rw [hinflight] at hkept
  obtain ⟨age, older, hyoungest, -, hages⟩ := forall₂_cons_left_iff.mp hkept
  rw [hages] at hage
  obtain rfl : age = 0 := Option.some.inj hage
  exact ThreadHistory.btbUpdate_eq_squash h.placed (hyoungest.behind.eq_of_zero h.placed.ptGhist_lt).symm
    (hyoungest.newest rfl)

/-- A step that leaves the histories alone and takes a branch out of flight. -/
theorem Tracked.retire (h : Tracked tid m ages) (hs : m'.predictor.threadHistory = m.predictor.threadHistory)
    (hkept : Forall₂ (Kept tid (m.predictor.threadHistory tid)) m'.inflight ages')
    (hincreasing : ages'.Pairwise (· < ·)) :
    Tracked tid m' ages' ∧ HistoryMove tid m (m'.predictor.threadHistory tid).history := by
  rw [hs]
  refine ⟨⟨?_, ?_, hincreasing⟩, .stays⟩
  · rw [hs]
    exact h.placed
  · rw [hs]
    exact hkept

theorem pairwise_stepAges (h : ages.Pairwise (· < ·)) (e : Event) : (stepAges ages e).Pairwise (· < ·) := by
  have hrecord : (0 :: ages.map (· + 1)).Pairwise (· < ·) := by
    refine pairwise_cons.mpr ⟨?_, pairwise_map.mpr (h.imp fun hlt => Nat.succ_lt_succ hlt)⟩
    intro age hmem
    obtain ⟨_, -, rfl⟩ := mem_map.mp hmem
    exact Nat.succ_pos _
  cases e with
  | lookup pc => exact hrecord
  | uncondBranch pc => exact hrecord
  | btbUpdate => exact h
  | correct taken =>
    cases ages with
    | nil => exact .nil
    | cons age older =>
      obtain ⟨hyoungest, holder⟩ := pairwise_cons.mp h
      refine pairwise_cons.mpr ⟨?_, pairwise_map.mpr (holder.imp_of_mem ?_)⟩
      · intro other hmem
        obtain ⟨old, hold, rfl⟩ := mem_map.mp hmem
        exact Nat.sub_pos_of_lt (hyoungest old hold)
      · intro first second hfirst _ hlt
        have := hyoungest first hfirst
        omega
  | squash => exact h.sublist (tail_sublist _)
  | commit taken => exact h.sublist (dropLast_sublist _)

/-- Events that keep the histories of the branches in flight move the history of
the thread as they are meant to. -/
theorem Tracked.step (hp : Sized p) (h : Tracked tid m ages) (hop : Allowed p ages e)
    (hstep : (InFlight.machine (predictor p) tid).step m e = .ok (o, m')) :
    Tracked tid m' (stepAges ages e) ∧ HistoryMove tid m (m'.predictor.threadHistory tid).history := by
  have hincreasing := pairwise_stepAges h.increasing e
  have hkept := h.kept
  cases InFlight.step_iff.mp hstep with
  | @lookup pc taken bi _ hlookup =>
    obtain ⟨tHist, hupdate, hs⟩ := lookup_threadHistory hlookup
    obtain ⟨hplaced, hkept, hhistory⟩ := h.record hp hs (b := ⟨pc, true, m.predictor, bi, taken⟩) hupdate rfl rfl hop
    exact ⟨⟨hplaced, hkept, hincreasing⟩, hhistory ▸ .records pc taken⟩
  | @uncondBranch pc bi _ huncond =>
    obtain ⟨tHist, hupdate, hs⟩ := uncondBranch_threadHistory huncond
    obtain ⟨hplaced, hkept, hhistory⟩ := h.record hp hs (b := ⟨pc, false, m.predictor, bi, true⟩) hupdate rfl rfl hop
    exact ⟨⟨hplaced, hkept, hincreasing⟩, hhistory ▸ .records pc true⟩
  | btbUpdate hinflight hbtb =>
    obtain ⟨tHist, hupdate, hs⟩ := btbUpdate_threadHistory hbtb
    rw [h.btbUpdate_eq_squash hinflight hop] at hupdate
    obtain ⟨hplaced, ⟨age, older, rfl, hcorrected⟩, hhistory⟩ := h.correct hp hs hinflight hupdate
    obtain rfl : age = 0 := Option.some.inj hop
    refine ⟨⟨hplaced, ?_, hincreasing⟩, ?_⟩
    · simpa [stepAges] using hcorrected
    · rw [hhistory]
      exact .corrects (hinflight ▸ mem_cons_self) false
  | @correct taken _ _ _ hinflight hcorrect =>
    obtain ⟨tHist, hsquash, hs⟩ := update_squashed_threadHistory hcorrect
    obtain ⟨hplaced, ⟨age, older, rfl, hcorrected⟩, hhistory⟩ := h.correct hp hs hinflight hsquash
    refine ⟨⟨hplaced, hcorrected, hincreasing⟩, ?_⟩
    rw [hhistory]
    exact .corrects (hinflight ▸ mem_cons_self) taken
  | squash hinflight hsquash =>
    rw [hinflight] at hkept
    obtain ⟨age, older, -, holder, rfl⟩ := forall₂_cons_left_iff.mp hkept
    exact h.retire (restoreIter_threadHistory hsquash) holder hincreasing
  | @commit taken younger b s hinflight hupdate =>
    have hcommit : update p m.predictor tid taken b.history false = .ok s := hupdate
    refine h.retire (update_committed_threadHistory hcommit) ?_ hincreasing
    have hyounger := forall₂_take younger.length hkept
    have hlength := hkept.length_eq
    rw [hinflight, length_append, length_singleton] at hlength
    rw [hinflight, take_left] at hyounger
    rw [stepAges, dropLast_eq_take, ← hlength, Nat.add_sub_cancel]
    exact hyounger

theorem Tracked.exists_kept (h : Tracked tid m ages) (hmem : b ∈ m.inflight) :
    ∃ age, Kept tid (m.predictor.threadHistory tid) b age := by
  obtain ⟨i, hi, rfl⟩ := getElem_of_mem hmem
  exact ⟨_, (forall₂_iff_get.mp h.kept).2 i hi (h.kept.length_eq ▸ hi)⟩

theorem tracked_start (hp : Sized p) (random_mt : Nat → BitVec 32) (tid : ThreadID) :
    Tracked tid (InFlight.start (State.initial p random_mt)) [] :=
  ⟨ThreadHistory.initial_placed hp, .nil, .nil⟩

/-- What holds of the history of the thread and of the histories before the
branches in flight, if it holds at first and is kept by recording a branch. -/
theorem Tracked.run (hp : Sized p) {I : History → Prop}
    (hpush : ∀ history branch_pc taken, I history → I (history.push p.maxHist.toNat branch_pc taken))
    (h : Tracked tid m ages)
    (hI : I (m.predictor.threadHistory tid).history ∧ ∀ b ∈ m.inflight, I (b.before.threadHistory tid).history)
    (hevents : KeepsHistories p ages events) (hrun : (InFlight.machine (predictor p) tid).run m events = .ok (os, m')) :
    (∃ ages', Tracked tid m' ages') ∧ I (m'.predictor.threadHistory tid).history := by
  induction events generalizing m ages os with
  | nil =>
    obtain ⟨-, rfl⟩ := Machine.run_nil_eq_ok_iff.mp hrun
    exact ⟨⟨ages, h⟩, hI.1⟩
  | cons e later ih =>
    obtain ⟨o, next, rest, hstep, hrest, -⟩ := Machine.run_cons_eq_ok_iff.mp hrun
    obtain ⟨hallowed, hlater⟩ := hevents
    obtain ⟨htracked, hmove⟩ := h.step hp hallowed hstep
    refine ih htracked ⟨?_, ?_⟩ hlater hrest
    · generalize (next.predictor.threadHistory tid).history = history at hmove
      cases hmove with
      | stays => exact hI.1
      | records branch_pc taken => exact hpush _ branch_pc taken hI.1
      | corrects hmem taken => exact hpush _ _ taken (hI.2 _ hmem)
    · intro b hmem
      rcases InFlight.mem_inflight_of_step hstep hmem with ⟨old, hold, direction, rfl⟩ | ⟨hbefore, -⟩
      · exact hI.2 old hold
      · rw [hbefore]
        exact hI.1

end Gem5.LTAGE
