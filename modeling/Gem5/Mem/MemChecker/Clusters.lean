import Gem5.Mem.MemChecker.Model

open Lib Result List

namespace Gem5.MemChecker

/-- A transaction on a byte as its caller sees it, with the completion time once it is
complete. -/
structure Txn where
  write : Bool
  start : Nat
  complete : Option Nat
  aborted : Bool
  data : BitVec 8

/-- The transactions on a byte, by their serials. -/
abbrev History := Nat → Option Txn

namespace History

def start (h : History) (serial : Nat) (x : Txn) : History := fun k => if k = serial then some x else h k

def finish (h : History) (serial : Nat) (f : Txn → Txn) : History := fun k => if k = serial then (h k).map f else h k

/-- The transaction is not complete. -/
def pending (h : History) (serial : Nat) : Bool := (h serial).any fun x => x.complete.isNone

/-- A history up to a tick. -/
structure UpTo (h : History) (now next : Nat) : Prop where
  now_le : now ≤ tickFuture
  serial : ∀ k x, h k = some x → k < next
  start : ∀ k x, h k = some x → x.start ≤ now
  complete : ∀ k x c, h k = some x → x.complete = some c → x.start ≤ c ∧ c ≤ now ∧ x.aborted = false

end History

variable {h h' : History} {now next : Nat} {c : WriteCluster} {t t' : ByteTracker}

section Updates

variable {k serial : Nat} {x : Txn} {f : Txn → Txn}

theorem start_self (h : History) (serial : Nat) (x : Txn) : h.start serial x serial = some x := if_pos rfl

theorem start_of_ne (h : History) (x : Txn) (hne : k ≠ serial) : h.start serial x k = h k := if_neg hne

theorem finish_self (hx : h serial = some x) (f : Txn → Txn) : h.finish serial f serial = some (f x) := by
  rw [History.finish, if_pos rfl, hx]
  rfl

theorem finish_of_ne (h : History) (f : Txn → Txn) (hne : k ≠ serial) : h.finish serial f k = h k := if_neg hne

theorem History.UpTo.ne_next (hh : h.UpTo now next) (hx : h k = some x) : k ≠ next := Nat.ne_of_lt (hh.serial k x hx)

theorem History.UpTo.advance (hh : h.UpTo now next) (hle : now ≤ later) (hfuture : later ≤ tickFuture) :
    h.UpTo later next := by
  refine ⟨hfuture, hh.serial, fun k x hx => Nat.le_trans (hh.start k x hx) hle, fun k x c hx hc => ?_⟩
  obtain ⟨hstart, hcomplete, haborted⟩ := hh.complete k x c hx hc
  exact ⟨hstart, Nat.le_trans hcomplete hle, haborted⟩

theorem start_cases (hy : h.start serial x k = some y) : k = serial ∧ y = x ∨ k ≠ serial ∧ h k = some y := by
  by_cases hk : k = serial
  · rw [hk, start_self] at hy
    cases hy
    exact .inl ⟨hk, rfl⟩
  · rw [start_of_ne h x hk] at hy
    exact .inr ⟨hk, hy⟩

theorem finish_cases (hy : h.finish serial f k = some y) :
    (∃ x, k = serial ∧ h k = some x ∧ y = f x) ∨ k ≠ serial ∧ h k = some y := by
  by_cases hk : k = serial
  · rw [History.finish, if_pos hk] at hy
    obtain ⟨x, hx, rfl⟩ := Option.map_eq_some_iff.mp hy
    exact .inl ⟨x, hk, hx, rfl⟩
  · rw [finish_of_ne h f hk] at hy
    exact .inr ⟨hk, hy⟩

theorem History.UpTo.start_next (hh : h.UpTo now next) (hstart : x.start = now) (hcomplete : x.complete = none) :
    (h.start next x).UpTo now (next + 1) := by
  refine ⟨hh.now_le, fun k y hy => ?_, fun k y hy => ?_, fun k y c hy hc => ?_⟩
  · rcases start_cases hy with ⟨rfl, -⟩ | ⟨-, hy⟩
    · exact Nat.lt_succ_self k
    · exact Nat.lt_succ_of_lt (hh.serial k y hy)
  · rcases start_cases hy with ⟨-, rfl⟩ | ⟨-, hy⟩
    · exact Nat.le_of_eq hstart
    · exact hh.start k y hy
  · rcases start_cases hy with ⟨-, rfl⟩ | ⟨-, hy⟩
    · cases hcomplete.symm.trans hc
    · exact hh.complete k y c hy hc

/-- A transaction that ends now keeps its start. -/
theorem History.UpTo.finish_now (hh : h.UpTo now next) (hstart : ∀ x, h serial = some x → (f x).start = x.start)
    (hcomplete : ∀ x c, h serial = some x → (f x).complete = some c → x.start ≤ c ∧ c ≤ now ∧ (f x).aborted = false) :
    (h.finish serial f).UpTo now next := by
  refine ⟨hh.now_le, fun k y hy => ?_, fun k y hy => ?_, fun k y c hy hc => ?_⟩
  · rcases finish_cases hy with ⟨x, -, hx, -⟩ | ⟨-, hy⟩
    · exact hh.serial k x hx
    · exact hh.serial k y hy
  · rcases finish_cases hy with ⟨x, rfl, hx, rfl⟩ | ⟨-, hy⟩
    · rw [hstart x hx]
      exact hh.start k x hx
    · exact hh.start k y hy
  · rcases finish_cases hy with ⟨x, rfl, hx, rfl⟩ | ⟨-, hy⟩
    · rw [hstart x hx]
      exact hcomplete x c hx hc
    · exact hh.complete k y c hy hc

end Updates

/-- What a write cluster has to do with the history. -/
structure WriteCluster.Sound (h : History) (now : Nat) (c : WriteCluster) : Prop where
  serials : (c.writes.map Transaction.serial).Nodup
  writes : ∀ w ∈ c.writes, ∃ x, h w.serial = some x ∧ x.write = true ∧ x.aborted = false ∧ w.start = x.start ∧
    w.data = x.data ∧ w.complete = x.complete.getD tickFuture
  max_le : c.completeMax ≤ now
  le_max : ∀ w ∈ c.writes, ∀ x v, h w.serial = some x → x.complete = some v → v ≤ c.completeMax
  closed : c.complete ≠ tickFuture → c.complete ≤ now ∧ c.writes ≠ [] ∧ ∀ w ∈ c.writes, w.complete ≤ c.complete
  opened : c.complete = tickFuture → c.numIncomplete = (c.writes.map Transaction.serial).countP h.pending

section Clusters

open WriteCluster

variable {serial : Nat} {x : Txn} {data : BitVec 8}

theorem sound_construct : WriteCluster.construct.Sound h now where
  serials := nodup_nil
  writes := fun _ hw => absurd hw not_mem_nil
  max_le := Nat.zero_le now
  le_max := fun _ hw => absurd hw not_mem_nil
  closed := fun hne => absurd rfl hne
  opened := fun _ => rfl

theorem WriteCluster.Sound.advance (hs : c.Sound h now) (hle : now ≤ later) : c.Sound h later :=
  ⟨hs.serials, hs.writes, Nat.le_trans hs.max_le hle, hs.le_max,
    fun hne => ⟨Nat.le_trans (hs.closed hne).1 hle, (hs.closed hne).2⟩, hs.opened⟩

/-- A cluster does not depend on the transactions that are not in it. -/
theorem WriteCluster.Sound.congr (hs : c.Sound h now) (hsame : ∀ w ∈ c.writes, h' w.serial = h w.serial) :
    c.Sound h' now := by
  refine ⟨hs.serials, fun w hw => ?_, hs.max_le, fun w hw x v hx => ?_, hs.closed, fun hopen => ?_⟩
  · rw [hsame w hw]
    exact hs.writes w hw
  · rw [hsame w hw] at hx
    exact hs.le_max w hw x v hx
  · rw [hs.opened hopen]
    apply countP_congr
    intro k hk
    obtain ⟨w, hw, rfl⟩ := mem_map.mp hk
    rw [History.pending, History.pending, hsame w hw]

/-- `startWrite`, on a cluster that is open. -/
theorem startWrite_eq {start : Nat} (data : BitVec 8) (hopen : c.complete = tickFuture)
    (hstart : c.start = tickFuture ∨ c.start ≤ start)
    (hnew : ∀ w ∈ c.writes, w.serial ≠ serial) :
    c.startWrite serial start data = .ok ⟨if c.start = tickFuture then start else c.start, tickFuture,
      c.writes ++ [⟨serial, start, tickFuture, data⟩], c.completeMax, c.numIncomplete + 1⟩ := by
  have hinsert : insertWrite c.writes ⟨serial, start, tickFuture, data⟩ =
    c.writes ++ [⟨serial, start, tickFuture, data⟩] := by
    apply if_neg
    simpa using hnew
  have hincomplete : (!c.isComplete) = true := by
    rw [isComplete, decide_eq_false (not_not.mpr hopen)]
    rfl
  have hreopen : ∀ d : WriteCluster, d.complete = tickFuture → d.reopen start = .ok d :=
    fun d hd => if_neg (not_not.mpr hd)
  unfold WriteCluster.startWrite
  refine (bind_of_ok (require_of_true hincomplete) _).trans ?_
  by_cases hs : c.start = tickFuture
  · rw [if_pos hs, if_pos hs]
    refine (bind_of_ok (require_of_decide (Nat.le_refl start)) _).trans ?_
    refine (bind_of_ok (hreopen ⟨start, c.complete, c.writes, c.completeMax, c.numIncomplete + 1⟩ hopen) _).trans ?_
    simp only [hinsert, hopen]
  rw [if_neg hs, if_neg hs]
  refine (bind_of_ok (require_of_decide (hstart.resolve_left hs)) _).trans ?_
  refine (bind_of_ok (hreopen ⟨c.start, c.complete, c.writes, c.completeMax, c.numIncomplete + 1⟩ hopen) _).trans ?_
  simp only [hinsert, hopen]

/-- Adding a write that has just been started. -/
theorem WriteCluster.Sound.start (hs : c.Sound h now) (hh : h.UpTo now next) (hopen : c.complete = tickFuture)
    (start : Nat) :
    WriteCluster.Sound (h.start next ⟨true, now, none, false, data⟩) now
      ⟨start, tickFuture, c.writes ++ [⟨next, now, tickFuture, data⟩], c.completeMax, c.numIncomplete + 1⟩ := by
  have hne : ∀ w ∈ c.writes, w.serial ≠ next := by
    intro w hw
    obtain ⟨x, hx, -⟩ := hs.writes w hw
    exact hh.ne_next hx
  have hold : c.Sound (h.start next ⟨true, now, none, false, data⟩) now :=
    hs.congr fun w hw => start_of_ne h _ (hne w hw)
  refine ⟨?_, ?_, hs.max_le, ?_, fun hclosed => absurd rfl hclosed, fun _ => ?_⟩
  · rw [map_append]
    refine nodup_append.mpr ⟨hs.serials, nodup_singleton _, ?_⟩
    intro k hk k' hk'
    obtain ⟨w, hw, rfl⟩ := mem_map.mp hk
    rw [mem_singleton.mp hk']
    exact hne w hw
  · exact forall_mem_append.mpr
      ⟨hold.writes, forall_mem_singleton.mpr ⟨_, start_self h next _, rfl, rfl, rfl, rfl, rfl⟩⟩
  · intro w hw x v hx hv
    rcases mem_append.mp hw with hw | hw
    · exact hold.le_max w hw x v hx hv
    · rw [mem_singleton.mp hw, start_self] at hx
      cases hx
      cases hv
  · have hpending : (h.start next ⟨true, now, none, false, data⟩).pending next = true := by
      rw [History.pending, start_self]
      rfl
    rw [map_append, countP_append, ← hold.opened hopen]
    show c.numIncomplete + 1 = c.numIncomplete + countP _ [next]
    rw [countP_singleton, if_pos hpending]

/-- One transaction less is pending. -/
theorem countP_pending_erase {serials : List Nat} (hnodup : serials.Nodup) (hmem : serial ∈ serials)
    (hpending : h.pending serial = true) :
    (serials.filter fun k => k ≠ serial).countP h.pending + 1 = serials.countP h.pending := by
  have hfilter : (serials.filter fun k => k ≠ serial) = serials.erase serial := by
    rw [hnodup.erase_eq_filter]
    apply filter_congr
    intro k _
    by_cases hk : k = serial <;> simp [hk]
  rw [hfilter, (perm_cons_erase hmem).countP_eq, countP_cons_of_pos hpending]

/-- A write that is not complete is in an open cluster. -/
theorem WriteCluster.Sound.complete_eq (hs : c.Sound h now) (hh : h.UpTo now next) (hw : w ∈ c.writes)
    (hx : h w.serial = some x) (hpending : x.complete = none) : c.complete = tickFuture := by
  by_contra hclosed
  obtain ⟨hle, -, hall⟩ := hs.closed hclosed
  obtain ⟨y, hy, -, -, -, -, hcomplete⟩ := hs.writes w hw
  cases hx.symm.trans hy
  have hwrite := hall w hw
  rw [hcomplete, hpending, Option.getD_none] at hwrite
  have := hh.now_le
  omega

/-- A write of a closed cluster is complete. -/
theorem WriteCluster.Sound.complete_of_closed (hs : c.Sound h now) (hh : h.UpTo now next)
    (hclosed : c.complete ≠ tickFuture) (hw : w ∈ c.writes) :
    ∃ x, h w.serial = some x ∧ x.write = true ∧ x.start = w.start ∧ x.complete = some w.complete ∧
      w.complete ≤ c.complete := by
  obtain ⟨x, hx, hwrite, -, hstart, -, hcomplete⟩ := hs.writes w hw
  refine ⟨x, hx, hwrite, hstart.symm, ?_, (hs.closed hclosed).2.2 w hw⟩
  cases hc : x.complete with
  | none => exact absurd (hs.complete_eq hh hw hx hc) hclosed
  | some v =>
    rw [hc] at hcomplete
    rw [hcomplete]
    rfl

theorem decrement_of_pos (h : m + 1 = n) : decrement n = m := by
  rw [decrement, if_neg (by omega)]
  omega

theorem serial_recordComplete (serial complete : Nat) (w : Transaction) :
    (recordComplete serial complete w).serial = w.serial := by
  unfold recordComplete
  split <;> rfl

theorem start_recordComplete (serial complete : Nat) (w : Transaction) :
    (recordComplete serial complete w).start = w.start := by
  unfold recordComplete
  split <;> rfl

/-- A cluster is closed once none of its writes is pending. -/
theorem sound_of_count {start completeMax n : Nat} {writes : List Transaction}
    (hserials : (writes.map Transaction.serial).Nodup)
    (hwrites : ∀ w ∈ writes, ∃ x, h w.serial = some x ∧ x.write = true ∧ x.aborted = false ∧ w.start = x.start ∧
      w.data = x.data ∧ w.complete = x.complete.getD tickFuture) (hmax : completeMax ≤ now)
    (hle : ∀ w ∈ writes, ∀ x v, h w.serial = some x → x.complete = some v → v ≤ completeMax)
    (hcount : n = (writes.map Transaction.serial).countP h.pending) :
    WriteCluster.Sound h now ⟨start, if n = 0 ∧ writes ≠ [] then completeMax else tickFuture, writes,
      completeMax, n⟩ := by
  refine ⟨hserials, hwrites, hmax, hle, fun hclosed => ?_, fun _ => hcount⟩
  have hcond : n = 0 ∧ writes ≠ [] := by
    by_contra hnot
    exact hclosed (if_neg hnot)
  simp only [if_pos hcond]
  refine ⟨hmax, hcond.2, fun w hw => ?_⟩
  obtain ⟨x, hx, -, -, -, -, hcomplete⟩ := hwrites w hw
  have hnot := countP_eq_zero.mp (hcount.symm.trans hcond.1) w.serial (mem_map_of_mem hw)
  rw [History.pending, hx] at hnot
  cases hv : x.complete with
  | none =>
    rw [Option.any_some, hv] at hnot
    exact absurd rfl hnot
  | some v =>
    rw [hcomplete, hv]
    exact hle w hw x v hx hv

variable (hs : c.Sound h now) (hh : h.UpTo now next) {w : Transaction} (hw : w ∈ c.writes)
  (hserial : w.serial = serial) (hx : h serial = some x) (hpending : x.complete = none)
include hs hh hw hserial hx hpending

/-- The writes that an open cluster still waits for after one of them. -/
theorem WriteCluster.Sound.decrement_numIncomplete :
    decrement c.numIncomplete = ((c.writes.map Transaction.serial).filter fun k => k ≠ serial).countP h.pending := by
  have hserialPending : h.pending serial = true := by
    rw [History.pending, hx, Option.any_some, hpending]
    rfl
  apply decrement_of_pos
  rw [hs.opened (hs.complete_eq hh hw (hserial ▸ hx) hpending)]
  exact countP_pending_erase hs.serials (hserial ▸ mem_map_of_mem hw) hserialPending

/-- Completing a write of an open cluster. -/
theorem WriteCluster.Sound.completeWrite : ∃ c', c.completeWrite serial now = .ok c' ∧
      c'.Sound (h.finish serial fun x => { x with complete := some now }) now ∧
      c'.start = c.start ∧ c'.writes = c.writes.map (recordComplete serial now) := by
  have hopen := hs.complete_eq hh hw (hserial ▸ hx) hpending
  obtain ⟨w', hfind⟩ : ∃ w', (c.writes.find? fun w => w.serial = serial) = some w' := by
    apply Option.isSome_iff_exists.mp
    rw [find?_isSome]
    exact ⟨w, hw, decide_eq_true hserial⟩
  have hfuture : w'.complete = tickFuture := by
    obtain ⟨y, hy, -, -, -, -, hcomplete⟩ := hs.writes w' (mem_of_find?_eq_some hfind)
    have hserial' : w'.serial = serial := by simpa using find?_some hfind
    rw [hserial'] at hy
    cases hx.symm.trans hy
    rw [hcomplete, hpending]
    rfl
  have hmax : (if c.completeMax < now then now else c.completeMax) = now := by
    have := hs.max_le
    split <;> omega
  have hserials : (c.writes.map (recordComplete serial now)).map Transaction.serial =
    c.writes.map Transaction.serial := by
    rw [map_map]
    exact map_congr_left fun w _ => serial_recordComplete serial now w
  have hcount : decrement c.numIncomplete =
      (c.writes.map Transaction.serial).countP (h.finish serial fun x => { x with complete := some now }).pending := by
    rw [hs.decrement_numIncomplete hh hw hserial hx hpending, countP_filter]
    refine (countP_congr ?_).symm
    intro k _
    by_cases hk : k = serial
    · rw [hk, History.pending, finish_self hx]
      simp
    · rw [History.pending, finish_of_ne h _ hk]
      simp [History.pending, hk]
  refine ⟨⟨c.start,
      if decrement c.numIncomplete = 0 ∧ c.writes.map (recordComplete serial now) ≠ [] then now else tickFuture,
    c.writes.map (recordComplete serial now), now, decrement c.numIncomplete⟩, ?_, ?_, rfl, rfl⟩
  · have hne : c.writes.map (recordComplete serial now) ≠ [] := by
      rw [ne_eq, map_eq_nil_iff]
      rintro hnil
      rw [hnil] at hw
      cases hw
    rw [WriteCluster.completeWrite, hfind]
    refine (bind_of_ok (require_of_decide hfuture) _).trans ?_
    rw [hmax, hopen]
    simp only [and_iff_left hne]
  · refine sound_of_count (hserials ▸ hs.serials) ?_ (Nat.le_refl now) ?_ (hserials ▸ hcount)
    · intro w' hw'
      obtain ⟨w, hw, rfl⟩ := mem_map.mp hw'
      obtain ⟨y, hy, hwrite, haborted, hstart, hdata, hcomplete⟩ := hs.writes w hw
      by_cases hk : w.serial = serial
      · rw [hk] at hy
        rw [recordComplete, if_pos hk]
        exact ⟨{ y with complete := some now }, hk ▸ finish_self hy _, hwrite, haborted, hstart, hdata, rfl⟩
      · rw [recordComplete, if_neg hk]
        exact ⟨y, (finish_of_ne h _ hk).trans hy, hwrite, haborted, hstart, hdata, hcomplete⟩
    · intro w' hw' y v hy hv
      by_cases hk : w'.serial = serial
      · rw [hk, finish_self hx] at hy
        cases hy
        cases hv
        exact Nat.le_refl now
      · rw [finish_of_ne h _ hk] at hy
        exact (hh.complete _ y v hy hv).2.1

/-- Aborting a write of an open cluster. -/
theorem WriteCluster.Sound.abortWrite :
    (c.abortWrite serial).Sound (h.finish serial fun x => { x with aborted := true }) now ∧
      (c.abortWrite serial).start = c.start ∧
      (c.abortWrite serial).writes = c.writes.filter fun w => w.serial ≠ serial := by
  have hopen := hs.complete_eq hh hw (hserial ▸ hx) hpending
  have hany : (c.writes.any fun w => w.serial = serial) = true := any_eq_true.mpr ⟨w, hw, decide_eq_true hserial⟩
  have hserials : (c.writes.filter fun w => w.serial ≠ serial).map Transaction.serial =
      (c.writes.map Transaction.serial).filter fun k => k ≠ serial := by
    rw [filter_map]
    rfl
  have hkept : ∀ w' ∈ c.writes.filter fun w => w.serial ≠ serial, w' ∈ c.writes ∧
      (h.finish serial fun x => { x with aborted := true }) w'.serial = h w'.serial := by
    intro w' hw'
    obtain ⟨hmem', hne⟩ := mem_filter.mp hw'
    exact ⟨hmem', finish_of_ne h _ (of_decide_eq_true hne)⟩
  have hcount : decrement c.numIncomplete = ((c.writes.filter fun w => w.serial ≠ serial).map Transaction.serial).countP
      (h.finish serial fun x => { x with aborted := true }).pending := by
    rw [hs.decrement_numIncomplete hh hw hserial hx hpending, hserials]
    refine (countP_congr ?_).symm
    intro k hk
    rw [History.pending, finish_of_ne h _ (of_decide_eq_true (mem_filter.mp hk).2)]
    rfl
  have heq : c.abortWrite serial = ⟨c.start,
      if decrement c.numIncomplete = 0 ∧ (c.writes.filter fun w => w.serial ≠ serial) ≠ [] then c.completeMax
      else tickFuture,
      c.writes.filter fun w => w.serial ≠ serial, c.completeMax, decrement c.numIncomplete⟩ := by
    rw [WriteCluster.abortWrite, if_pos hany, hopen]
  rw [heq]
  refine ⟨sound_of_count ?_ ?_ hs.max_le ?_ hcount, rfl, rfl⟩
  · rw [hserials]
    exact hs.serials.filter _
  · intro w' hw'
    rw [(hkept w' hw').2]
    exact hs.writes w' (hkept w' hw').1
  · intro w' hw' y v hy
    rw [(hkept w' hw').2] at hy
    exact hs.le_max w' (hkept w' hw').1 y v hy

end Clusters

end Gem5.MemChecker
