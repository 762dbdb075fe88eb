import Gem5.Mem.MemChecker.Calls

open Lib Result List

namespace Gem5.MemChecker

variable {h : History} {now next : Nat} {t t' : ByteTracker} {data : BitVec 8} {serial : Nat}

namespace ByteTracker

variable {last_obs : Transaction} {start complete : Nat} {s : Scan}

theorem noMatch_eq_ok (t : ByteTracker) (last_obs : Transaction)
    (h : t.lastExpectedData = [] → last_obs.complete = tickInitial) : ∃ b, noMatch t last_obs = .ok (b, t) := by
  unfold noMatch
  split
  · rename_i hempty
    have hinitial := h (List.isEmpty_iff.mp hempty)
    exact ⟨true, bind_of_ok (require_of_decide hinitial) _⟩
  · exact ⟨false, rfl⟩

/-- `inExpectedData` returns if the assertions hold where they are reached. -/
theorem conclude_eq_ok (hle : last_obs.complete ≤ start)
    (hcheck : s.found = false → s.last_obs_valid = false → s.wc_overlap = true → t.checkOverlap start complete = .ok ())
    (hexpected : s.found = false → s.last_obs_valid = false → s.expected = [] → last_obs.complete = tickInitial) :
    ∃ b t', t.conclude last_obs start complete data s = .ok (b, t') := by
  unfold conclude
  split
  · exact ⟨_, _, rfl⟩
  rename_i hfound
  rw [Bool.not_eq_true] at hfound
  split
  · rw [bind_of_ok (require_of_decide hle)]
    split
    · exact ⟨_, _, rfl⟩
    · obtain ⟨b, hb⟩ := noMatch_eq_ok { t with lastExpectedData := s.expected ++ [last_obs.data] }
        last_obs fun hnil => absurd hnil (append_ne_nil_of_right_ne_nil _ (cons_ne_nil _ _))
      exact ⟨b, _, hb⟩
  · rename_i hvalid
    rw [Bool.not_eq_true] at hvalid
    split
    · rename_i hoverlap
      rw [Bool.and_eq_true] at hoverlap
      rw [bind_of_ok (hcheck hfound hvalid hoverlap.2)]
      exact ⟨_, _, rfl⟩
    · obtain ⟨b, hb⟩ := noMatch_eq_ok { t with lastExpectedData := s.expected } last_obs (hexpected hfound hvalid)
      exact ⟨b, _, hb⟩

theorem pruneTransactions_eq_ok (curTick : Nat) (hne : t.readObservations ≠ []) :
    ∃ t', t.pruneTransactions curTick = .ok t' := by
  obtain ⟨_, it, behind, hlast, -⟩ := lastCompletedTransaction_spec Transaction.complete (t.pruneBefore curTick) hne
  obtain ⟨clusters, hclusters⟩ : ∃ clusters, pruneClusters t.writeClusters (t.pruneBefore curTick) = .ok clusters := by
    unfold pruneClusters
    split
    · exact ⟨_, rfl⟩
    rename_i hempty
    obtain ⟨_, it, behind, hlast, -⟩ := lastCompletedTransaction_spec WriteCluster.complete
      (t.pruneBefore curTick) fun hnil => hempty (List.isEmpty_iff.mpr hnil)
    exact ⟨it :: behind, bind_of_ok hlast _⟩
  exact ⟨_, (bind_of_ok hlast _).trans (bind_of_ok hclusters _)⟩

end ByteTracker

section Tracks

variable (ht : Tracks h now next t)
include ht

/-- The check of the write clusters, when all writes complete after the read has started. -/
theorem Tracks.checkOverlap {start : Nat} (hfuture : start < tickFuture)
    (hstarts : ∀ k x, h k = some x → x.write = true → x.start ≠ now)
    (hall : ∀ c ∈ t.writeClusters, ∀ w ∈ c.writes, start < w.complete) : t.checkOverlap start now = .ok () := by
  unfold ByteTracker.checkOverlap
  split
  · rename_i first last hfirst hlast
    have hlt : first.start < now := by
      obtain ⟨k, x, hx, hwrite, hstart⟩ := ht.starts first (mem_of_mem_head? hfirst)
      rw [hstart]
      exact Nat.lt_of_le_of_ne (ht.upTo.start k x hx) (hstarts k x hx hwrite)
    have hmem := mem_of_mem_getLast? hlast
    have hgt : start < last.complete := by
      by_cases hclosed : last.complete = tickFuture
      · rw [hclosed]
        exact hfuture
      · obtain ⟨-, hne, hle⟩ := (ht.clusters last hmem).closed hclosed
        obtain ⟨w, hw⟩ := exists_mem_of_ne_nil _ hne
        exact Nat.lt_of_lt_of_le (hall last hmem w hw) (hle w hw)
    exact require_of_true (Bool.and_eq_true_iff.mpr ⟨decide_eq_true hlt, decide_eq_true hgt⟩)
  · rfl

/-- An observation that completes at the first tick has also started then. -/
theorem Tracks.last_observation_start {r o : Transaction} (hr : r ∈ t.outstandingReads) {behind : List Transaction}
    (hlast : lastCompletedTransaction Transaction.complete t.readObservations r.start = .ok (o, behind)) :
    o.complete ≤ r.start ∧ (o.complete = tickInitial → o.start = 0) := by
  rcases ht.last_observation hr hlast with rfl | ⟨hlt, k, x, hx, -, hstart, hcomplete, -⟩
  · exact ⟨Nat.zero_le _, fun _ => rfl⟩
  refine ⟨Nat.le_of_lt hlt, fun hinitial => ?_⟩
  have hle := (ht.upTo.complete k x _ hx hcomplete).1
  rw [hstart, hinitial] at hle
  exact Nat.le_zero.mp hle

/-- `inExpectedData` returns for a read that completes now, unless a write has started now. -/
theorem Tracks.inExpectedData (data : BitVec 8) {r : Transaction} (hr : r ∈ t.outstandingReads)
    (hfuture : r.start < tickFuture)
    (hstarts : ∀ k x, h k = some x → x.write = true → x.start ≠ now) (reads : List Transaction) :
    ∃ b t', ByteTracker.inExpectedData { t with outstandingReads := reads } r.start now data = .ok (b, t') := by
  obtain ⟨first, rest, hobs, -⟩ := ht.first
  obtain ⟨_, o, behind, hlast, -⟩ := lastCompletedTransaction_spec Transaction.complete r.start
    (l := t.readObservations) (by rw [hobs]; exact cons_ne_nil first rest)
  obtain ⟨hle, hinitial⟩ := ht.last_observation_start hr hlast
  have hscan := ByteTracker.scanClusters_spec o r.start data
    (s := ⟨false, true, o.complete ≠ tickInitial, []⟩) t.writeClusters.reverse rfl
  rw [ByteTracker.inExpectedData, bind_of_ok hlast]
  refine ByteTracker.conclude_eq_ok hle (fun hfound hvalid hoverlap => ?_) fun hfound hvalid hexpected => ?_
  · rcases hscan with htrue | ⟨visited, rest, hclusters, hscanned, hstop⟩
    · cases hfound.symm.trans htrue
    · obtain ⟨-, hall⟩ := hscanned.overlap_iff.mp hoverlap
      -- the last observation is not valid, so that it is the initial one
      have hcomplete : o.complete = tickInitial := by
        by_contra hne
        have htrue := hscanned.valid_iff.mpr ⟨decide_eq_true hne, fun w hw => (hall w hw).imp_right .inl⟩
        cases hvalid.symm.trans htrue
      have hrest : rest = [] := by
        refine hstop.resolve_right fun hfalse => ?_
        cases hoverlap.symm.trans hfalse
      rw [hrest, append_nil] at hclusters
      refine Tracks.checkOverlap ht hfuture hstarts fun c hc w hw => ?_
      rw [← mem_reverse, hclusters] at hc
      have hw' := hall w (mem_flatMap.mpr ⟨c, hc, hw⟩)
      rw [hinitial hcomplete] at hw'
      exact hw'.resolve_left (Nat.not_lt_zero _)
  · rcases hscan with htrue | ⟨visited, rest, hclusters, hscanned, hstop⟩
    · cases hfound.symm.trans htrue
    · by_contra hne
      obtain ⟨-, hall⟩ := hscanned.expected_iff.mp hexpected
      have htrue := hscanned.valid_iff.mpr ⟨decide_eq_true hne, fun w hw => .inl (hall w hw)⟩
      cases hvalid.symm.trans htrue

theorem Tracks.completeRead_eq_ok (hfuture : ∀ x, h serial = some x → x.start < tickFuture)
    (hstarts : ∀ k x, h k = some x → x.write = true → x.start ≠ now) :
    ∃ b t', t.completeRead serial now data now = .ok (b, t') := by
  unfold ByteTracker.completeRead
  split
  · exact ⟨_, _, rfl⟩
  rename_i r hfind
  have hr := mem_of_find?_eq_some hfind
  have hserial : r.serial = serial := by simpa using find?_some hfind
  obtain ⟨x, hx, -, -, hstart⟩ := ht.reads r hr
  have hlt : r.start < tickFuture := hstart ▸ hfuture x (hserial ▸ hx)
  obtain ⟨b, t₁, hexpected⟩ :=
    ht.inExpectedData data hr hlt hstarts (t.outstandingReads.filter fun r => r.serial ≠ serial)
  obtain ⟨t₂, hprune⟩ := ByteTracker.pruneTransactions_eq_ok
    (t := { t₁ with readObservations := t₁.readObservations ++ [⟨serial, r.start, now, data⟩] }) now
    (append_ne_nil_of_right_ne_nil _ (cons_ne_nil _ _))
  exact ⟨b, t₂, (bind_of_ok hexpected _).trans (bind_of_ok hprune _)⟩

end Tracks

/-- A read does not complete at a tick at which a write to one of its bytes has started, and
has not started at the last tick there is. -/
def Trace.Apart (g : Trace) : Call → Prop
  | .completeRead serial complete addr data => ∀ a, offset a addr < data.length →
    (∀ x, g.history a serial = some x → x.start < tickFuture) ∧
      ∀ k x, g.history a k = some x → x.write = true → x.start ≠ complete
  | _ => True

section Runs

variable {g : Trace} {m : MemChecker}

theorem Tracked.step_eq_ok (h : Tracked g m) (hcall : g.Admits call) (hapart : g.Apart call) :
    ∃ o m', machine.step m call = .ok (o, m') := by
  cases call with
  | completeRead serial tick addr data =>
    obtain ⟨hnow, hfuture, hsize, -⟩ := hcall
    have hloop := completeRead_forBytes m serial tick tick addr data
    obtain ⟨m', hok, -⟩ := forBytes_spec (P := fun _ _ => True) (m := { m with errorMessage := "" })
      (f := fun i t => (t.completeRead serial tick (data.getD i 0) tick).map Prod.snd)
      (by omega : 0 + data.length ≤ 2 ^ 64)
      fun a _ (hlt : offset a addr < 0 + data.length) => by
        obtain ⟨hstart, hwrites⟩ := hapart a (by omega)
        obtain ⟨b, t, hbyte⟩ := ((h.tracks a).advance hnow hfuture).completeRead_eq_ok hstart hwrites
        exact ⟨t, map_eq_ok_iff.mpr ⟨_, hbyte, rfl⟩, trivial⟩
    obtain ⟨⟨b, m'⟩, hread, -⟩ := map_ok (hloop.trans hok)
    exact ⟨.checked b, m', map_eq_ok_iff.mpr ⟨_, hread, rfl⟩⟩
  | _ =>
    obtain ⟨o, m', hstep, -⟩ := h.step_of_ne hcall fun _ _ _ _ heq => by cases heq
    exact ⟨o, m', hstep⟩

theorem Tracked.run_eq_ok (h : Tracked g m)
    (hcalls : Trace.Follows (fun g call => g.Admits call ∧ g.Apart call) g calls) :
    ∃ answers m', machine.run m calls = .ok (answers, m') := by
  induction calls generalizing g m with
  | nil => exact ⟨[], m, Machine.run_nil_eq_ok_iff.mpr ⟨rfl, rfl⟩⟩
  | cons call calls ih =>
    obtain ⟨⟨hadmits, hapart⟩, hrest⟩ := hcalls
    obtain ⟨o, m₁, hstep⟩ := h.step_eq_ok hadmits hapart
    obtain ⟨answers, m', hrun⟩ := ih (h.step hadmits hstep) hrest
    exact ⟨o :: answers, m', Machine.run_cons_eq_ok_iff.mpr ⟨o, m₁, answers, hstep, hrun, rfl⟩⟩

/-- No assertion fails, if the writes that are completed or aborted have not been forgotten
by a reset and if no read completes at the tick at which a write starts. -/
theorem run_returns (calls : List Call)
    (hcalls : Trace.Follows (fun g call => g.Admits call ∧ g.Apart call) .empty calls) :
    ∃ answers m, machine.run construct calls = .ok (answers, m) :=
  tracked_construct.run_eq_ok hcalls

/-- A byte is reset while a read of it is in flight. -/
theorem run_returns_reset : ∃ answers m,
    machine.run construct [.startRead 1 0 1, .reset 0 1, .startWrite 2 0 [5], .completeRead 0 3 0 [7],
      .completeWrite 1 4 0 1] =
      .ok (answers, m) := by
  refine run_returns _ ⟨⟨⟨by decide, by decide, by decide⟩, trivial⟩, ⟨(by decide : 1 < 2 ^ 64), trivial⟩,
    ⟨⟨by decide, by decide, by decide⟩, trivial⟩,
    ⟨⟨by decide, by decide, by decide, fun a ha hne => ?_⟩, fun a ha => ⟨fun x hx => ?_, fun k x hx hwrite => ?_⟩⟩,
    ⟨⟨by decide, by decide, by decide, fun a ha => ?_⟩, trivial⟩, trivial⟩
  · rw [eq_of_offset_lt_one ha] at hne
    exact absurd rfl hne
  · rw [eq_of_offset_lt_one ha] at hx
    cases hx
  · rw [eq_of_offset_lt_one ha] at hx
    match k, hx with
    | 1, hx =>
      cases hx
      decide
  · rw [eq_of_offset_lt_one ha]
    exact ⟨_, rfl, rfl, rfl, rfl⟩

/-- A byte is reset while a write to it is in flight. Completing the write leaves a cluster
without writes, which starts after every read. -/
theorem run_fails_after_reset :
    machine.run construct [.startWrite 1 0 [5], .reset 0 1, .completeWrite 0 2 0 1, .startRead 3 0 1,
      .completeRead 1 4 0 [7]] =
      .error .assertion := rfl

/-- A write starts at the tick at which the read completes. -/
example : machine.run construct [.startRead 5 0 1, .startWrite 10 0 [5], .completeRead 0 10 0 [7]] =
  .error .assertion := rfl

end Runs

end Gem5.MemChecker
