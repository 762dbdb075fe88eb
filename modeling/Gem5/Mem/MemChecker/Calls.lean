import Gem5.Mem.MemChecker.Expected

open Lib Result BitVec

namespace Gem5.MemChecker

/-- The calls. What has a tick is called at this tick. -/
inductive Call where
  | startRead (start : Nat) (addr : Addr) (size : Nat)
  | startWrite (start : Nat) (addr : Addr) (data : List (BitVec 8))
  | completeRead (serial complete : Nat) (addr : Addr) (data : List (BitVec 8))
  | completeWrite (serial complete : Nat) (addr : Addr) (size : Nat)
  | abortWrite (serial : Nat) (addr : Addr) (size : Nat)
  | reset (addr : Addr) (size : Nat)
  | resetAll

inductive Answer where
  | serial (serial : Nat)
  | checked (result : Bool)
  | done

def machine : Machine MemChecker Call Answer where
  step := fun m call => match call with
    | .startRead start addr size => (m.startRead start addr size).map fun (serial, m) => (.serial serial, m)
    | .startWrite start addr data => (m.startWrite start addr data).map fun (serial, m) => (.serial serial, m)
    | .completeRead serial complete addr data =>
      (m.completeRead serial complete addr data complete).map fun (result, m) => (.checked result, m)
    | .completeWrite serial complete addr size => (m.completeWrite serial complete addr size complete).map fun m =>
        (.done, m)
    | .abortWrite serial addr size => (m.abortWrite serial addr size).map fun m => (.done, m)
    | .reset addr size => .ok (.done, m.reset addr size)
    | .resetAll => .ok (.done, m.resetAll)

section Bytes

variable {m m' : MemChecker} {addr a : Addr}

/-- The place of a byte in a transaction that begins at `addr`. -/
def offset (a addr : Addr) : Nat := (a - addr).toNat

theorem add_offset (a addr : Addr) : addr + BitVec.ofNat 64 (offset a addr) = a := by
  rw [offset, ofNat_toNat, setWidth_eq, BitVec.add_comm, sub_add_cancel]

theorem offset_add (hi : i < 2 ^ 64) (addr : Addr) : offset (addr + BitVec.ofNat 64 i) addr = i := by
  rw [offset, BitVec.add_comm, add_sub_cancel, toNat_ofNat, Nat.mod_eq_of_lt hi]

theorem eq_add_iff (hi : i < 2 ^ 64) : a = addr + BitVec.ofNat 64 i ↔ offset a addr = i := by
  constructor
  · rintro rfl
    exact offset_add hi addr
  · rintro rfl
    exact (add_offset a addr).symm

theorem eq_of_offset_lt_one (h : offset a addr < 1) : a = addr := by
  have heq := (eq_add_iff (by omega)).mpr (Nat.lt_one_iff.mp h)
  exact heq.trans (BitVec.add_zero addr)

theorem getByteTracker_set (m : MemChecker) (addr : Addr) (t : ByteTracker) (a : Addr) :
    (m.setByteTracker addr t).getByteTracker a = if a = addr then t else m.getByteTracker a := by
  by_cases ha : a = addr
  · rw [if_pos ha]
    exact congrArg (fun tracker => Option.getD tracker ByteTracker.construct) (if_pos ha)
  · rw [if_neg ha]
    exact congrArg (fun tracker => Option.getD tracker ByteTracker.construct) (if_neg ha)

/-- The loop over the bytes, when every call returns. -/
theorem forBytes_spec {f : Nat → ByteTracker → Result ByteTracker} {P : Addr → ByteTracker → Prop}
    (hbound : i + count ≤ 2 ^ 64)
    (hf : ∀ a, i ≤ offset a addr → offset a addr < i + count →
      ∃ t, f (offset a addr) (m.getByteTracker a) = .ok t ∧ P a t) :
    ∃ m', forBytes f addr i count m = .ok m' ∧ m'.nextSerial = m.nextSerial ∧
      ∀ a, if i ≤ offset a addr ∧ offset a addr < i + count then P a (m'.getByteTracker a)
        else m'.getByteTracker a = m.getByteTracker a := by
  induction count generalizing i m with
  | zero =>
    refine ⟨m, rfl, rfl, fun a => ?_⟩
    rw [if_neg (by omega)]
  | succ count ih =>
    have hi : i < 2 ^ 64 := by omega
    obtain ⟨t, ht, hP⟩ := hf (addr + BitVec.ofNat 64 i) (by rw [offset_add hi]) (by rw [offset_add hi]; omega)
    rw [offset_add hi] at ht
    have hset := getByteTracker_set m (addr + BitVec.ofNat 64 i) t
    obtain ⟨m', hm', hnext, hall⟩ :=
      ih (m := m.setByteTracker (addr + BitVec.ofNat 64 i) t) (i := i + 1) (by omega) fun a hle hlt => by
      rw [hset, if_neg (fun heq => by have := (eq_add_iff hi).mp heq; omega)]
      exact hf a (by omega) (by omega)
    refine ⟨m', ?_, hnext, fun a => ?_⟩
    · rw [forBytes]
      exact (bind_of_ok ht _).trans hm'
    · have ha := hall a
      by_cases hi' : offset a addr = i
      · rw [if_neg (by omega), hset, if_pos ((eq_add_iff hi).mpr hi')] at ha
        rw [if_pos (by omega), ha, (eq_add_iff hi).mpr hi']
        exact hP
      rw [hset, if_neg (fun heq => hi' ((eq_add_iff hi).mp heq))] at ha
      by_cases hrange : i + 1 ≤ offset a addr ∧ offset a addr < i + 1 + count
      · rw [if_pos hrange] at ha
        rw [if_pos (by omega)]
        exact ha
      · rw [if_neg hrange] at ha
        rw [if_neg (by omega)]
        exact ha

theorem getByteTracker_reset (m : MemChecker) (addr : Addr) (hsize : size ≤ 2 ^ 64) (a : Addr) :
    (m.reset addr size).getByteTracker a = if offset a addr < size then .construct else m.getByteTracker a := by
  induction size with
  | zero => exact (if_neg (Nat.not_lt_zero _)).symm
  | succ size ih =>
    have hstep : (m.reset addr (size + 1)).getByteTracker a =
        if offset a addr = size then .construct else (m.reset addr size).getByteTracker a := by
      have hiff : a = addr + BitVec.ofNat 64 size ↔ offset a addr = size := eq_add_iff (by omega)
      by_cases ha : offset a addr = size
      · rw [if_pos ha]
        exact congrArg (fun tracker => Option.getD tracker ByteTracker.construct) (if_pos (hiff.mpr ha))
      · rw [if_neg ha]
        exact congrArg (fun tracker => Option.getD tracker ByteTracker.construct) (if_neg (mt hiff.mp ha))
    rw [hstep, ih (by omega)]
    by_cases ha : offset a addr = size
    · rw [if_pos ha, if_pos (by omega)]
    rw [if_neg ha]
    by_cases hlt : offset a addr < size
    · rw [if_pos hlt, if_pos (by omega)]
    · rw [if_neg hlt, if_neg (by omega)]

/-- Where the loop returns, it does for every byte. -/
theorem forBytes_returns {f : Nat → ByteTracker → Result ByteTracker} (hbound : i + count ≤ 2 ^ 64)
    (h : forBytes f addr i count m = .ok m') (a : Addr) (hle : i ≤ offset a addr) (hlt : offset a addr < i + count) :
    ∃ t, f (offset a addr) (m.getByteTracker a) = .ok t := by
  induction count generalizing i m with
  | zero => omega
  | succ count ih =>
    obtain ⟨t, ht, hloop⟩ := bind_ok h
    have hiff : a = addr + BitVec.ofNat 64 i ↔ offset a addr = i := eq_add_iff (by omega)
    by_cases hi : offset a addr = i
    · rw [hi, hiff.mpr hi]
      exact ⟨t, ht⟩
    · obtain ⟨t', ht'⟩ := ih (by omega) hloop (by omega) (by omega)
      rw [getByteTracker_set, if_neg (mt hiff.mp hi)] at ht'
      exact ⟨t', ht'⟩

/-- Apart from the message, the loop of `completeRead` is one over the bytes. -/
theorem completeBytes_forBytes (all : List (BitVec 8)) (hdata : ∀ k, all.getD (i + k) 0 = data.getD k 0) :
    (completeBytes serial complete curTick addr i data result m).map (fun r => { r.2 with errorMessage := "" }) =
      forBytes (fun i t => (t.completeRead serial complete (all.getD i 0) curTick).map Prod.snd) addr i data.length
        { m with errorMessage := "" } := by
  induction data generalizing i result m with
  | nil => rfl
  | cons byte data ih =>
    have hbyte : all.getD i 0 = byte := hdata 0
    have hrest : ∀ k, all.getD (i + 1 + k) 0 = data.getD k 0 := fun k => by
      rw [Nat.add_right_comm]
      exact hdata (k + 1)
    rw [completeBytes, List.length_cons, forBytes, hbyte]
    change _ = (((m.getByteTracker _).completeRead _ _ _ _).map Prod.snd >>= _)
    cases (m.getByteTracker (addr + BitVec.ofNat 64 i)).completeRead serial complete byte curTick with
    | error fault => rfl
    | ok answer =>
      obtain ⟨ok, t⟩ := answer
      cases ok with
      | true => exact ih hrest
      | false => exact ih hrest

theorem completeRead_forBytes (m : MemChecker) (serial complete curTick : Nat) (addr : Addr) (data : List (BitVec 8)) :
    (m.completeRead serial complete addr data curTick).map (fun r => { r.2 with errorMessage := "" }) =
      forBytes (fun i t => (t.completeRead serial complete (data.getD i 0) curTick).map Prod.snd) addr 0 data.length
        { m with errorMessage := "" } :=
  completeBytes_forBytes data fun k => by rw [Nat.zero_add]

end Bytes

/-- What the callers know: the tick of the last call, the number of transactions, and the
transactions on each byte since it was reset. -/
structure Trace where
  now : Nat
  next : Nat
  history : Addr → History

namespace Trace

def empty : Trace := ⟨0, 0, fun _ _ => none⟩

/-- Changing the histories of the bytes of a transaction. -/
def update (g : Trace) (addr : Addr) (size : Nat) (f : Nat → History → History) : Addr → History :=
  fun a => if offset a addr < size then f (offset a addr) (g.history a) else g.history a

def step (g : Trace) : Call → Trace
  | .startRead start addr size =>
    ⟨start, g.next + 1, g.update addr size fun _ h => h.start g.next ⟨false, start, none, false, 0⟩⟩
  | .startWrite start addr data =>
    ⟨start, g.next + 1, g.update addr data.length fun i h => h.start g.next ⟨true, start, none, false, data.getD i 0⟩⟩
  | .completeRead serial complete addr data =>
    ⟨complete, g.next, g.update addr data.length fun i h =>
      h.finish serial fun x => { x with complete := some complete, data := data.getD i 0 }⟩
  | .completeWrite serial complete addr size =>
    ⟨complete, g.next, g.update addr size fun _ h => h.finish serial fun x => { x with complete := some complete }⟩
  | .abortWrite serial addr size =>
    { g with history := g.update addr size fun _ h => h.finish serial fun x => { x with aborted := true } }
  | .reset addr size => { g with history := g.update addr size fun _ _ _ => none }
  | .resetAll => { g with history := fun _ _ => none }

/-- A transaction of the given kind that is neither complete nor aborted. -/
def InFlight (h : History) (serial : Nat) (write : Bool) : Prop :=
  ∃ x, h serial = some x ∧ x.write = write ∧ x.complete = none ∧ x.aborted = false

/-- The ticks do not decrease, and what is completed or aborted has been started. A read may
have been forgotten by a reset. Sizes are of type `size_t`. -/
def Admits (g : Trace) : Call → Prop
  | .startRead start _ size => g.now ≤ start ∧ start ≤ tickFuture ∧ size < 2 ^ 64
  | .startWrite start _ data => g.now ≤ start ∧ start ≤ tickFuture ∧ data.length < 2 ^ 64
  | .completeRead serial complete addr data => g.now ≤ complete ∧ complete ≤ tickFuture ∧ data.length < 2 ^ 64 ∧
    ∀ a, offset a addr < data.length → g.history a serial ≠ none → InFlight (g.history a) serial false
  | .completeWrite serial complete addr size => g.now ≤ complete ∧ complete ≤ tickFuture ∧ size < 2 ^ 64 ∧
    ∀ a, offset a addr < size → InFlight (g.history a) serial true
  | .abortWrite serial addr size => size < 2 ^ 64 ∧ ∀ a, offset a addr < size → InFlight (g.history a) serial true
  | .reset _ size => size < 2 ^ 64
  | .resetAll => True

/-- Every call satisfies `P`, a property of the trace before it. -/
def Follows (P : Trace → Call → Prop) : Trace → List Call → Prop
  | _, [] => True
  | g, call :: calls => P g call ∧ Follows P (g.step call) calls

end Trace

/-- The trackers know the histories of their bytes. -/
structure Tracked (g : Trace) (m : MemChecker) : Prop where
  nextSerial : m.nextSerial = g.next
  tracks : ∀ a, Tracks (g.history a) g.now g.next (m.getByteTracker a)

section Tracked

variable {g : Trace} {m m' : MemChecker}

theorem tracked_construct : Tracked .empty construct :=
  ⟨rfl, fun _ => tracks_construct 0 0 (Nat.zero_le _)⟩

/-- The loop over the bytes of a transaction, given what it does with each byte. -/
theorem Tracked.forBytes (h : Tracked g m) (addr : Addr) (f : Nat → ByteTracker → Result ByteTracker)
    (hist : Nat → History → History) (hsize : size < 2 ^ 64) (hnow : g.now ≤ now) (hfuture : now ≤ tickFuture)
    (hnext : g.next ≤ next) (hbyte : ∀ a, offset a addr < size → Tracks (g.history a) now g.next (m.getByteTracker a) →
      ∃ t, f (offset a addr) (m.getByteTracker a) = .ok t ∧ Tracks (hist (offset a addr) (g.history a)) now next t) :
    ∃ m', forBytes f addr 0 size m = .ok m' ∧ m'.nextSerial = m.nextSerial ∧
      ∀ a, Tracks (g.update addr size hist a) now next (m'.getByteTracker a) := by
  have htracks := fun a => (h.tracks a).advance hnow hfuture
  obtain ⟨m', hloop, hserial, hall⟩ :=
    forBytes_spec (P := fun a t => Tracks (hist (offset a addr) (g.history a)) now next t)
    (by omega : 0 + size ≤ 2 ^ 64) fun a _ hlt => hbyte a (by omega) (htracks a)
  refine ⟨m', hloop, hserial, fun a => ?_⟩
  have ha := hall a
  rw [Trace.update]
  by_cases hlt : offset a addr < size
  · rw [if_pos (by omega)] at ha
    rw [if_pos hlt]
    exact ha
  · rw [if_neg (by omega)] at ha
    rw [if_neg hlt, ha]
    exact (htracks a).later hnext

variable {addr : Addr} {size serial tick : Nat} {data : List (BitVec 8)}

theorem Tracked.startRead (h : Tracked g m) (hcall : g.Admits (.startRead tick addr size)) :
    ∃ o m', machine.step m (.startRead tick addr size) = .ok (o, m') ∧
      Tracked (g.step (.startRead tick addr size)) m' := by
  obtain ⟨hnow, hfuture, hsize⟩ := hcall
  obtain ⟨m', hloop, -, hall⟩ := h.forBytes addr (fun _ t => .ok (t.startRead m.nextSerial tick))
    (fun _ h => h.start g.next ⟨false, tick, none, false, 0⟩) hsize hnow hfuture (Nat.le_succ g.next) fun a _ ht => by
      rw [h.nextSerial]
      exact ⟨_, rfl, ht.startRead⟩
  refine ⟨.serial m.nextSerial, { m' with nextSerial := m.nextSerial + 1 }, ?_, congrArg (· + 1) h.nextSerial, hall⟩
  exact map_eq_ok_iff.mpr ⟨_, bind_of_ok hloop _, rfl⟩

theorem Tracked.startWrite (h : Tracked g m) (hcall : g.Admits (.startWrite tick addr data)) :
    ∃ o m', machine.step m (.startWrite tick addr data) = .ok (o, m') ∧
      Tracked (g.step (.startWrite tick addr data)) m' := by
  obtain ⟨hnow, hfuture, hsize⟩ := hcall
  obtain ⟨m', hloop, -, hall⟩ := h.forBytes addr (fun i t => t.startWrite m.nextSerial tick (data.getD i 0))
    (fun i h => h.start g.next ⟨true, tick, none, false, data.getD i 0⟩) hsize hnow hfuture (Nat.le_succ g.next)
    fun a _ ht => by
      rw [h.nextSerial]
      exact ht.startWrite (data.getD (offset a addr) 0)
  refine ⟨.serial m.nextSerial, { m' with nextSerial := m.nextSerial + 1 }, ?_, congrArg (· + 1) h.nextSerial, hall⟩
  exact map_eq_ok_iff.mpr ⟨_, bind_of_ok hloop _, rfl⟩

theorem Tracked.completeWrite (h : Tracked g m) (hcall : g.Admits (.completeWrite serial tick addr size)) :
    ∃ o m', machine.step m (.completeWrite serial tick addr size) = .ok (o, m') ∧
      Tracked (g.step (.completeWrite serial tick addr size)) m' := by
  obtain ⟨hnow, hfuture, hsize, hflight⟩ := hcall
  obtain ⟨m', hloop, hserial, hall⟩ := h.forBytes addr (fun _ t => t.completeWrite serial tick tick)
    (fun _ h => h.finish serial fun x => { x with complete := some tick }) hsize hnow hfuture (Nat.le_refl g.next)
    fun a ha ht => by
      obtain ⟨x, hx, hwrite, hcomplete, haborted⟩ := hflight a ha
      exact ht.completeWrite hx hwrite hcomplete haborted
  exact ⟨.done, m', map_eq_ok_iff.mpr ⟨_, hloop, rfl⟩, hserial.trans h.nextSerial, hall⟩

theorem Tracked.abortWrite (h : Tracked g m) (hcall : g.Admits (.abortWrite serial addr size)) :
    ∃ o m', machine.step m (.abortWrite serial addr size) = .ok (o, m') ∧
      Tracked (g.step (.abortWrite serial addr size)) m' := by
  obtain ⟨hsize, hflight⟩ := hcall
  obtain ⟨m', hloop, hserial, hall⟩ := h.forBytes addr (fun _ t => .ok (t.abortWrite serial))
    (fun _ h => h.finish serial fun x => { x with aborted := true }) hsize (Nat.le_refl g.now)
    (h.tracks addr).upTo.now_le
    (Nat.le_refl g.next) fun a ha ht => by
      obtain ⟨x, hx, hwrite, hcomplete, haborted⟩ := hflight a ha
      exact ⟨_, rfl, ht.abortWrite hx hwrite hcomplete haborted⟩
  exact ⟨.done, m', map_eq_ok_iff.mpr ⟨_, hloop, rfl⟩, hserial.trans h.nextSerial, hall⟩

theorem nextSerial_reset (m : MemChecker) (addr : Addr) (size : Nat) :
    (m.reset addr size).nextSerial = m.nextSerial := by
  induction size with
  | zero => rfl
  | succ size ih => exact ih

theorem Tracked.reset (h : Tracked g m) (hcall : g.Admits (.reset addr size)) :
    Tracked (g.step (.reset addr size)) (m.reset addr size) := by
  have hsize : size < 2 ^ 64 := hcall
  refine ⟨(nextSerial_reset m addr size).trans h.nextSerial, fun a => ?_⟩
  show Tracks (g.update addr size (fun _ _ _ => none) a) g.now g.next _
  rw [getByteTracker_reset m addr (by omega), Trace.update]
  by_cases ha : offset a addr < size
  · rw [if_pos ha, if_pos ha]
    exact tracks_construct _ _ (h.tracks a).upTo.now_le
  · rw [if_neg ha, if_neg ha]
    exact h.tracks a

theorem Tracked.resetAll (h : Tracked g m) : Tracked (g.step .resetAll) m.resetAll :=
  ⟨h.nextSerial, fun a => tracks_construct _ _ (h.tracks a).upTo.now_le⟩

/-- `completeRead` on a byte, if it returns. -/
theorem Tracks.completeRead (ht : Tracks h now next t) (hflight : h serial ≠ none → Trace.InFlight h serial false)
    (hread : t.completeRead serial now byte now = .ok (b, t')) :
    Tracks (h.finish serial fun x => { x with complete := some now, data := byte }) now next t' := by
  have hpending : ∀ x, h serial = some x → x.write = false ∧ x.complete = none ∧ x.aborted = false := by
    intro x hx
    obtain ⟨y, hy, hrest⟩ := hflight (by rw [hx]; exact Option.some_ne_none x)
    cases hx.symm.trans hy
    exact hrest
  unfold ByteTracker.completeRead at hread
  cases hfind : t.outstandingReads.find? fun r => r.serial = serial with
  | none =>
    -- the read has been forgotten
    rw [hfind] at hread
    cases hread
    have hfilter : (t.outstandingReads.filter fun r => r.serial ≠ serial) = t.outstandingReads := by
      apply List.filter_eq_self.mpr
      intro r hr
      simpa using List.find?_eq_none.mp hfind r hr
    have := ht.finishRead byte t.lastExpectedData hpending
    rwa [hfilter] at this
  | some r =>
    rw [hfind] at hread
    obtain ⟨⟨result, t₁⟩, hexpected, hread⟩ := bind_ok hread
    obtain ⟨t₂, hprune, hdone⟩ := bind_ok hread
    cases hdone
    obtain ⟨expected, rfl⟩ := ByteTracker.inExpectedData_tracker hexpected
    have hserial : r.serial = serial := by simpa using List.find?_some hfind
    obtain ⟨x, hx, hwrite, -, hstart⟩ := ht.reads r (List.mem_of_find?_eq_some hfind)
    rw [hserial] at hx
    have htracks := (ht.finishRead byte expected hpending).observe (o := ⟨serial, r.start, now, byte⟩)
      (finish_self hx _) hwrite hstart.symm rfl rfl
    obtain ⟨t₃, hprune', htracks', -⟩ := htracks.prune
    cases hprune.symm.trans hprune'
    exact htracks'

theorem Tracked.completeRead (h : Tracked g m) (hcall : g.Admits (.completeRead serial tick addr data))
    (hread : m.completeRead serial tick addr data tick = .ok (b, m')) :
    Tracked (g.step (.completeRead serial tick addr data)) m' := by
  obtain ⟨hnow, hfuture, hsize, hflight⟩ := hcall
  have h' : Tracked g { m with errorMessage := "" } := ⟨h.nextSerial, h.tracks⟩
  have hloop := completeRead_forBytes m serial tick tick addr data
  rw [hread] at hloop
  obtain ⟨m'', hloop', hserial, hall⟩ := h'.forBytes addr
    (fun i t => (t.completeRead serial tick (data.getD i 0) tick).map Prod.snd)
    (fun i h => h.finish serial fun x => { x with complete := some tick, data := data.getD i 0 }) hsize hnow hfuture
    (Nat.le_refl g.next) fun a ha ht => by
      obtain ⟨t, hbyte⟩ := forBytes_returns (by omega) hloop.symm a (Nat.zero_le _) (by omega)
      obtain ⟨⟨b, t⟩, hbyte', rfl⟩ := map_ok hbyte
      exact ⟨t, hbyte, ht.completeRead (hflight a ha) hbyte'⟩
  cases hloop.trans hloop'
  exact ⟨hserial.trans h.nextSerial, hall⟩

/-- Only `completeRead` has assertions that can fail. -/
theorem Tracked.step_of_ne (h : Tracked g m) (hcall : g.Admits call)
    (hne : ∀ serial tick addr data, call ≠ .completeRead serial tick addr data) :
    ∃ o m', machine.step m call = .ok (o, m') ∧ Tracked (g.step call) m' := by
  cases call with
  | startRead tick addr size => exact h.startRead hcall
  | startWrite tick addr data => exact h.startWrite hcall
  | completeRead serial tick addr data => exact absurd rfl (hne serial tick addr data)
  | completeWrite serial tick addr size => exact h.completeWrite hcall
  | abortWrite serial addr size => exact h.abortWrite hcall
  | reset addr size => exact ⟨_, _, rfl, h.reset hcall⟩
  | resetAll => exact ⟨_, _, rfl, h.resetAll⟩

/-- A call that returns keeps what is tracked. -/
theorem Tracked.step (h : Tracked g m) (hcall : g.Admits call) (hstep : machine.step m call = .ok (o, m')) :
    Tracked (g.step call) m' := by
  cases call with
  | completeRead serial tick addr data =>
    obtain ⟨⟨b, m''⟩, hread, hdone⟩ := map_ok hstep
    cases hdone
    exact h.completeRead hcall hread
  | _ =>
    obtain ⟨o', m'', hstep', htracked⟩ := h.step_of_ne hcall fun _ _ _ _ heq => by cases heq
    cases hstep.symm.trans hstep'
    exact htracked

end Tracked

end Gem5.MemChecker
