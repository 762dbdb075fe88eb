import Gem5.Mem.MemChecker.Calls
import Gem5.Lib.Linearization

open Lib Result List

namespace Gem5.MemChecker

variable {h h' hf : History} {now next : Nat} {t t' : ByteTracker} {serial : Nat} {data : BitVec 8} {x : Txn}

/-- The reads and writes of a byte. A transaction comes before those that start at its
completion or later. -/
def History.register (h : History) : Register Nat (BitVec 8) where
  write := fun k => ∃ x, h k = some x ∧ x.write = true
  value := fun k => (h k).elim 0 Txn.data
  precedes := fun a b => ∃ x y c, h a = some x ∧ h b = some y ∧ x.complete = some c ∧ c ≤ y.start

/-- There is an order of all complete transactions, and of some writes that are not
complete, that agrees with the order in time and makes the reads right. -/
structure LinearizedBy (h : History) (init : BitVec 8) (order : List Nat) : Prop where
  nodup : order.Nodup
  sound : ∀ k ∈ order, ∃ x, h k = some x ∧ x.aborted = false ∧ (x.write = true ∨ x.complete ≠ none)
  full : ∀ k x, h k = some x → x.complete ≠ none → k ∈ order
  linearizes : h.register.Linearizes init order

def Linearizable (h : History) : Prop := ∃ init order, LinearizedBy h init order

/-- The second history goes on from the first one, after tick `now`. -/
structure Extends (h hf : History) (now : Nat) : Prop where
  kept : ∀ k x, h k = some x → ∃ y, hf k = some y ∧ y.write = x.write ∧ y.start = x.start ∧
    (x.write = true → y.data = x.data) ∧
    (x.complete ≠ none → y = x) ∧ (x.aborted = true → y.aborted = true)
  later : ∀ k y, hf k = some y → h k = none → now ≤ y.start

section Rejected

theorem Extends.of_complete (he : Extends h hf now) (hx : h k = some x) (hc : x.complete = some c) : hf k = some x := by
  obtain ⟨y, hy, -, -, -, hsame, -⟩ := he.kept k x hx
  rw [hy, hsame (by rw [hc]; exact Option.some_ne_none c)]

theorem not_write_of_read (hy : hf k = some y) (hread : y.write = false) : ¬hf.register.write k := by
  rintro ⟨y', hy', hwrite⟩
  cases hy.symm.trans hy'
  cases hread.symm.trans hwrite

/-- Writes of the clusters that complete before now. -/
theorem Tracks.write_complete (ht : Tracks h now next t) (hc : c ∈ t.writeClusters) (hw : w ∈ c.writes)
    (hlt : w.complete < now) :
    ∃ y, h w.serial = some y ∧ y.write = true ∧ y.start = w.start ∧ y.complete = some w.complete := by
  obtain ⟨y, hy, hwrite, -, hstart, -, hcomplete⟩ := (ht.clusters c hc).writes w hw
  refine ⟨y, hy, hwrite, hstart.symm, ?_⟩
  cases hv : y.complete with
  | none =>
    rw [hv, Option.getD_none] at hcomplete
    have := ht.upTo.now_le
    omega
  | some v =>
    rw [hv] at hcomplete
    rw [hcomplete]
    rfl

/-- A read that completes now, in an order of the transactions of the whole history. -/
structure Placed (h hf : History) (now next : Nat) (t : ByteTracker) (r : Transaction) (order : List Nat) : Prop where
  tracks : Tracks h now next t
  outstanding : r ∈ t.outstandingReads
  lt : r.start < now
  self : ∃ x, hf r.serial = some x ∧ x.write = false ∧ x.start = r.start ∧ x.complete = some now
  kept : ∀ k y c, h k = some y → y.complete = some c → hf k = some y ∧ k ∈ order
  inTime : ∀ k x c, hf k = some x → x.complete = some c → x.start < c

variable {r o : Transaction} {order : List Nat} {visited rest : List WriteCluster} (hp : Placed h hf now next t r order)
include hp

theorem Placed.irrefl (k : Nat) : ¬hf.register.precedes k k := by
  rintro ⟨x, y, c, hx, hy, hc, hle⟩
  cases hx.symm.trans hy
  have := hp.inTime k x c hx hc
  omega

theorem Placed.before (hy : h k = some y) (hc : y.complete = some c) (hle : c ≤ r.start) :
    hf.register.precedes k r.serial := by
  obtain ⟨x, hx, -, hstart, -⟩ := hp.self
  exact ⟨y, x, c, (hp.kept k y c hy hc).1, hx, hc, hle.trans (Nat.le_of_eq hstart.symm)⟩

/-- A write of a cluster that completes before the read starts comes before the read, and
also after whatever completes before it starts. -/
theorem Placed.write_before (hc : c ∈ t.writeClusters) (hw : w ∈ c.writes) (hle : w.complete ≤ r.start) :
    w.serial ∈ order ∧ hf.register.write w.serial ∧ hf.register.precedes w.serial r.serial ∧
      ∀ {k v y}, h k = some y → y.complete = some v → v ≤ w.start → hf.register.precedes k w.serial := by
  obtain ⟨z, hz, hwrite, hstart, hcomplete⟩ := hp.tracks.write_complete hc hw (Nat.lt_of_le_of_lt hle hp.lt)
  obtain ⟨hfz, hmem⟩ := hp.kept _ z _ hz hcomplete
  refine ⟨hmem, ⟨z, hfz, hwrite⟩, hp.before hz hcomplete hle, fun hy hv hvle => ?_⟩
  exact ⟨_, z, _, (hp.kept _ _ _ hy hv).1, hfz, hv, hvle.trans (Nat.le_of_eq hstart.symm)⟩

variable (hrej : ByteTracker.Rejected t o r.start data visited rest)
include hrej

omit hp in
theorem mem_of_visited (hc : c ∈ visited ++ rest) : c ∈ t.writeClusters := by
  rw [← mem_reverse, hrej.clusters]
  exact hc

section

variable (hvalue : hf.register.value r.serial = data)
include hvalue

/-- No observation has the value of the read, unless a write comes between them. -/
theorem Placed.observed (hy : h k = some y) (hcomplete : y.complete = some o.complete) (hdata : y.data = o.data)
    (hsame : hf.register.value k = hf.register.value r.serial)
    (hbetween : ∀ w ∈ order, hf.register.write w → hf.register.precedes k w → ¬hf.register.precedes w r.serial) :
    False := by
  have hfk := (hp.kept k y _ hy hcomplete).1
  have hpos := hp.inTime k y _ hfk hcomplete
  refine hrej.observed (by rw [tickInitial]; omega) (fun c hc w hw => ?_) ?_
  · by_contra hnot
    rw [not_or, not_or] at hnot
    obtain ⟨hmem, hwrite, hbefore, hafter⟩ := hp.write_before (mem_of_visited hrej (mem_append_left rest hc)) hw
      (Nat.le_of_not_lt hnot.2.1)
    exact hbetween w.serial hmem hwrite (hafter hy hcomplete (by omega)) hbefore
  · rw [← hdata, ← hvalue, ← hsame]
    show y.data = (hf k).elim 0 Txn.data
    rw [hfk]
    rfl

/-- The value of a rejected read was not written by a write that is followed by no other. -/
theorem Placed.not_written (hlast : o = ByteTracker.initialObservation ∨ o.complete < r.start ∧
      ∃ k x, h k = some x ∧ x.write = false ∧ x.start = o.start ∧ x.complete = some o.complete ∧ x.data = o.data)
    (hxu : h u = some xu) (hwrite : xu.write = true) (haborted : xu.aborted = false) (hdata : xu.data = data)
    (hbetween : ∀ w ∈ order, hf.register.write w → hf.register.precedes u w → ¬hf.register.precedes w r.serial)
    (hreads : ∀ k ∈ order, ¬hf.register.write k → hf.register.precedes u k → hf.register.precedes k r.serial →
      hf.register.value k = hf.register.value r.serial ∧
        ∀ w ∈ order, hf.register.write w → hf.register.precedes k w → ¬hf.register.precedes w r.serial) : False := by
  have ht := hp.tracks
  rcases ht.stored u xu hxu hwrite haborted with ⟨c, hc, w, hw, rfl⟩ | hsuper
  · rw [← mem_reverse, hrej.clusters] at hc
    rcases mem_append.mp hc with hcv | hcr
    · -- the write is skipped, so that the last observation comes after it
      obtain ⟨xw, hxw, -, -, -, hwdata, -⟩ := (ht.clusters c (mem_of_visited hrej hc)).writes w hw
      cases hxu.symm.trans hxw
      have hskip := (hrej.data_ne c hcv w hw).resolve_right fun hne => hne (hwdata.trans hdata)
      rcases hlast with rfl | ⟨hole, k, y, hy, hyread, hystart, hycomplete, hydata⟩
      · exact absurd hskip (Nat.not_lt_zero _)
      obtain ⟨hfk, hkmem⟩ := hp.kept k y _ hy hycomplete
      have hstart := ht.upTo.start k y hy
      obtain ⟨xw, hxw, -, -, hucomplete⟩ := ht.write_complete (mem_of_visited hrej hc) hw (by omega)
      cases hxu.symm.trans hxw
      obtain ⟨hsame, hafter⟩ := hreads k hkmem (not_write_of_read hfk hyread)
        ⟨xu, y, _, (hp.kept _ _ _ hxu hucomplete).1, hfk, hucomplete, by omega⟩
        (hp.before hy hycomplete (Nat.le_of_lt hole))
      exact hp.observed hrej hvalue hy hycomplete hydata hsame hafter
    · -- a later cluster that was looked at has a write that is complete
      obtain ⟨c', hc', w', hw', -, hle⟩ := hrej.before (.inl (ne_nil_of_mem hcr))
      have horder := pairwise_reverse.mpr ht.clusters_order
      rw [hrej.clusters] at horder
      obtain ⟨hclosed, hcstart⟩ := (pairwise_append.mp horder).2.2 c' hc' c hcr
      obtain ⟨xw, hxw, -, -, hucomplete, hule⟩ :=
        (ht.clusters c (mem_of_visited hrej hc)).complete_of_closed ht.upTo hclosed hw
      cases hxu.symm.trans hxw
      obtain ⟨hmem, hwrite', hbefore, hafter⟩ :=
        hp.write_before (mem_of_visited hrej (mem_append_left rest hc')) hw' hle
      exact hbetween w'.serial hmem hwrite' (hafter hxu hucomplete (Nat.le_trans hule (hcstart w' hw'))) hbefore
  · obtain ⟨v, k, z, c, hucomplete, hz, hzwrite, hzcomplete, hvz, -, hall⟩ := hsuper
    obtain ⟨hfz, hzmem⟩ := hp.kept k z c hz hzcomplete
    exact hbetween k hzmem ⟨z, hfz, hzwrite⟩ ⟨xu, z, _, (hp.kept _ _ _ hxu hucomplete).1, hfz, hucomplete, hvz⟩
      (hp.before hz hzcomplete (Nat.le_of_lt (hall r hp.outstanding)))

/-- The value of a rejected read is not the initial one. -/
theorem Placed.not_initial (hlast : o = ByteTracker.initialObservation ∨ o.complete < r.start ∧
      ∃ k x, h k = some x ∧ x.write = false ∧ x.start = o.start ∧ x.complete = some o.complete ∧ x.data = o.data)
    (hnone : ∀ w ∈ order, hf.register.write w → ¬hf.register.precedes w r.serial)
    (hsame : ∀ k ∈ order, ¬hf.register.write k → hf.register.precedes k r.serial →
      hf.register.value k = hf.register.value r.serial) : False := by
  rcases hlast with rfl | ⟨hole, k, y, hy, hyread, hystart, hycomplete, hydata⟩
  · obtain ⟨c, hc, w, hw, -, hle⟩ := hrej.before (.inr rfl)
    obtain ⟨hmem, hwrite, hbefore, -⟩ := hp.write_before (mem_of_visited hrej (mem_append_left rest hc)) hw hle
    exact hnone w.serial hmem hwrite hbefore
  · obtain ⟨hfk, hkmem⟩ := hp.kept k y _ hy hycomplete
    exact hp.observed hrej hvalue hy hycomplete hydata
      (hsame k hkmem (not_write_of_read hfk hyread) (hp.before hy hycomplete (Nat.le_of_lt hole)))
      fun w hw hww _ => hnone w hw hww

end

omit hp hrej in
/-- A read whose value is explained by a linearization is not rejected. -/
theorem Tracks.not_rejected (ht : Tracks h now next t) (hr : r ∈ t.outstandingReads) (hlt : r.start < now)
    (he : Extends (h.finish r.serial fun x => { x with complete := some now, data := data }) hf now)
    (htime : ∀ k x c, hf k = some x → x.complete = some c → x.start < c) (hlin : Linearizable hf)
    (hlast : lastCompletedTransaction Transaction.complete t.readObservations r.start = .ok (o, behind)) :
    ¬ByteTracker.Rejected t o r.start data visited rest := by
  intro hrej
  obtain ⟨init, order, -, hsound, hfull, hlinearizes⟩ := hlin
  obtain ⟨x, hx, hread, hcomplete, hstart⟩ := ht.reads r hr
  have hself : hf r.serial = some { x with complete := some now, data := data } := he.of_complete (finish_self hx _) rfl
  obtain ⟨pre, post, rfl⟩ := append_of_mem (hfull _ _ hself (Option.some_ne_none now))
  have hp : Placed h hf now next t r (pre ++ r.serial :: post) := by
    refine ⟨ht, hr, hlt, ⟨_, hself, hread, hstart.symm, rfl⟩, fun k y c hy hc => ?_, htime⟩
    have hne : k ≠ r.serial := by
      rintro rfl
      cases hx.symm.trans hy
      cases hcomplete.symm.trans hc
    have hfk := he.of_complete ((finish_of_ne h _ hne).trans hy) hc
    exact ⟨hfk, hfull k y hfk (by rw [hc]; exact Option.some_ne_none c)⟩
  have hvalue : hf.register.value r.serial = data := by
    show (hf r.serial).elim 0 Txn.data = data
    rw [hself]
    rfl
  have hlastObs := ht.last_observation hr hlast
  rcases hlinearizes.read_cases hp.irrefl (not_write_of_read hself hread) with
    ⟨u, hu, ⟨yu, hyu, huwrite⟩, huvalue, hbetween, hreads⟩ | ⟨hnone, hsame⟩
  · -- the write that the value comes from had been started before
    obtain ⟨yu', hyu', haborted, -⟩ := hsound u (mem_append_left _ hu)
    cases hyu.symm.trans hyu'
    have hustart : yu.start < now := by
      by_contra hnot
      have hafter := (pairwise_append.mp hlinearizes.inTime).2.2 u hu r.serial mem_cons_self
      exact hafter ⟨_, yu, now, hself, hyu, rfl, by omega⟩
    have hune : u ≠ r.serial := by
      rintro rfl
      exact not_write_of_read hself hread ⟨yu, hyu, huwrite⟩
    cases hxu : h u with
    | none =>
      have := he.later u yu hyu ((finish_of_ne h _ hune).trans hxu)
      omega
    | some xu =>
      obtain ⟨y, hy, hyw, -, hydata, -, hyaborted⟩ := he.kept u xu ((finish_of_ne h _ hune).trans hxu)
      cases hyu.symm.trans hy
      have hxw := hyw.symm.trans huwrite
      have hxaborted : xu.aborted = false := by
        rw [Bool.eq_false_iff]
        intro htrue
        cases haborted.symm.trans (hyaborted htrue)
      have hxdata : xu.data = data := by
        rw [← hydata hxw, ← hvalue, huvalue]
        show yu.data = (hf u).elim 0 Txn.data
        rw [hyu]
        rfl
      exact hp.not_written hrej hvalue hlastObs hxu hxw hxaborted hxdata hbetween hreads
  · exact hp.not_initial hrej hvalue hlastObs hnone hsame

end Rejected

section Byte

variable {a : Addr} {g : Trace}

/-- Calls for a single byte. -/
def Call.On (a : Addr) : Call → Prop
  | .startRead _ addr size => addr = a ∧ size = 1
  | .startWrite _ addr data => addr = a ∧ data.length = 1
  | .completeRead _ _ addr data => addr = a ∧ data.length = 1
  | .completeWrite _ _ addr size => addr = a ∧ size = 1
  | .abortWrite _ addr size => addr = a ∧ size = 1
  | .reset _ _ => False
  | .resetAll => False

/-- Transactions do not complete at the tick they start at. -/
def Trace.Lasts (g : Trace) (a : Addr) : Call → Prop
  | .completeRead serial complete _ _ => ∀ x, g.history a serial = some x → x.start < complete
  | .completeWrite serial complete _ _ => ∀ x, g.history a serial = some x → x.start < complete
  | _ => True

/-- The calls of a history of one byte. -/
def Trace.Regular (a : Addr) (g : Trace) (call : Call) : Prop := call.On a ∧ g.Admits call ∧ g.Lasts a call

/-- What is known of the history of a byte, whatever the checker does. -/
structure Timely (h : History) (now next : Nat) : Prop extends History.UpTo h now next where
  lasts : ∀ k x c, h k = some x → x.complete = some c → x.start < c

theorem Extends.trans (h₁₂ : Extends h₁ h₂ n₁) (h₂₃ : Extends h₂ h₃ n₂) (hle : n₁ ≤ n₂) : Extends h₁ h₃ n₁ := by
  refine ⟨fun k x hx => ?_, fun k z hz hnone => ?_⟩
  · obtain ⟨y, hy, hwrite, hstart, hdata, hsame, haborted⟩ := h₁₂.kept k x hx
    obtain ⟨z, hz, hwrite', hstart', hdata', hsame', haborted'⟩ := h₂₃.kept k y hy
    refine ⟨z, hz, hwrite'.trans hwrite, hstart'.trans hstart, fun hw => ?_, fun hc => ?_,
      fun ha => haborted' (haborted ha)⟩
    · exact (hdata' (hwrite.trans hw)).trans (hdata hw)
    · rw [hsame hc] at hsame'
      exact hsame' hc
  · cases hy : h₂ k with
    | none => exact Nat.le_trans hle (h₂₃.later k z hz hy)
    | some y =>
      obtain ⟨z', hz', -, hstart, -⟩ := h₂₃.kept k y hy
      cases hz.symm.trans hz'
      rw [hstart]
      exact h₁₂.later k y hy hnone

theorem Extends.refl (h : History) (now : Nat) : Extends h h now :=
  ⟨fun _ x hx => ⟨x, hx, rfl, rfl, fun _ => rfl, fun _ => rfl, fun ha => ha⟩,
    fun k y hy hnone => by cases hy.symm.trans hnone⟩

/-- A transaction that starts now. -/
theorem Timely.started (ht : Timely h now next) (hle : now ≤ tick) (hfuture : tick ≤ tickFuture)
    (hstart : x.start = tick) (hcomplete : x.complete = none) :
    Timely (h.start next x) tick (next + 1) ∧ Extends h (h.start next x) now := by
  refine ⟨⟨(ht.advance hle hfuture).start_next hstart hcomplete, fun k y c hy hc => ?_⟩, fun k y hy => ?_,
    fun k y hy hnone => ?_⟩
  · rcases start_cases hy with ⟨-, rfl⟩ | ⟨-, hy⟩
    · cases hcomplete.symm.trans hc
    · exact ht.lasts k y c hy hc
  · exact ⟨y, (start_of_ne h x (ht.ne_next hy)).trans hy, rfl, rfl, fun _ => rfl, fun _ => rfl, fun ha => ha⟩
  · rcases start_cases hy with ⟨-, rfl⟩ | ⟨-, hy⟩
    · rw [hstart]
      exact hle
    · cases hy.symm.trans hnone

/-- A transaction that ends now. -/
theorem Timely.finished (ht : Timely h now next) {f : Txn → Txn} (hle : now ≤ tick) (hfuture : tick ≤ tickFuture)
    (hx : ∀ x, h serial = some x → x.complete = none ∧ x.aborted = false)
    (hf : ∀ x, h serial = some x → (f x).write = x.write ∧ (f x).start = x.start ∧
      (x.write = true → (f x).data = x.data) ∧
      ∀ c, (f x).complete = some c → c ≤ tick ∧ x.start < c ∧ (f x).aborted = false) :
    Timely (h.finish serial f) tick next ∧ Extends h (h.finish serial f) now := by
  refine ⟨⟨(ht.advance hle hfuture).finish_now (fun x hx => (hf x hx).2.1) fun x c hx hc => ?_, fun k y c hy hc => ?_⟩,
    fun k y hy => ?_, fun k y hy hnone => ?_⟩
  · obtain ⟨hcle, hlt, haborted⟩ := (hf x hx).2.2.2 c hc
    exact ⟨Nat.le_of_lt hlt, hcle, haborted⟩
  · rcases finish_cases hy with ⟨x, rfl, hx, rfl⟩ | ⟨-, hy⟩
    · rw [(hf x hx).2.1]
      exact ((hf x hx).2.2.2 c hc).2.1
    · exact ht.lasts k y c hy hc
  · by_cases hk : k = serial
    · subst hk
      obtain ⟨hwrite, hstart, hdata, -⟩ := hf y hy
      obtain ⟨hcomplete, haborted⟩ := hx y hy
      refine ⟨f y, finish_self hy f, hwrite, hstart, hdata, fun hne => absurd hcomplete hne, fun ha => ?_⟩
      cases haborted.symm.trans ha
    · exact ⟨y, (finish_of_ne h f hk).trans hy, rfl, rfl, fun _ => rfl, fun _ => rfl, fun ha => ha⟩
  · rcases finish_cases hy with ⟨x, -, hx, -⟩ | ⟨-, hy⟩
    · cases hx.symm.trans hnone
    · cases hy.symm.trans hnone

theorem offset_self (a : Addr) : offset a a = 0 := by
  rw [offset, BitVec.sub_self]
  rfl

theorem inFlight_of_ne_none (hflight : h serial ≠ none → Trace.InFlight h serial write) (x : Txn)
    (hx : h serial = some x) : x.write = write ∧ x.complete = none ∧ x.aborted = false := by
  obtain ⟨y, hy, hrest⟩ := hflight (by rw [hx]; exact Option.some_ne_none x)
  cases hx.symm.trans hy
  exact hrest

theorem update_self {f : Nat → History → History} (hsize : size = 1) : g.update a size f a = f 0 (g.history a) := by
  rw [Trace.update, offset_self, if_pos (by omega)]

theorem Timely.step (ht : Timely (g.history a) g.now g.next) (hcall : g.Regular a call) :
    Timely ((g.step call).history a) (g.step call).now (g.step call).next ∧
      Extends (g.history a) ((g.step call).history a) g.now ∧
      g.now ≤ (g.step call).now := by
  obtain ⟨hon, hadmits, hlasts⟩ := hcall
  cases call with
  | startRead tick addr size =>
    obtain ⟨rfl, hsize⟩ := hon
    obtain ⟨hle, hfuture, -⟩ := hadmits
    simp only [Trace.step, update_self hsize]
    obtain ⟨htimely, hextends⟩ := ht.started (x := ⟨false, tick, none, false, 0⟩) hle hfuture rfl rfl
    exact ⟨htimely, hextends, hle⟩
  | startWrite tick addr data =>
    obtain ⟨rfl, hsize⟩ := hon
    obtain ⟨hle, hfuture, -⟩ := hadmits
    simp only [Trace.step, update_self hsize]
    obtain ⟨htimely, hextends⟩ := ht.started (x := ⟨true, tick, none, false, data.getD 0 0⟩) hle hfuture rfl rfl
    exact ⟨htimely, hextends, hle⟩
  | completeRead serial tick addr data =>
    obtain ⟨rfl, hsize⟩ := hon
    obtain ⟨hle, hfuture, -, hflight⟩ := hadmits
    have hread := inFlight_of_ne_none (hflight addr (by rw [offset_self, hsize]; exact Nat.one_pos))
    simp only [Trace.step, update_self hsize]
    obtain ⟨htimely, hextends⟩ :=
      ht.finished (f := fun x => { x with complete := some tick, data := data.getD 0 0 }) hle hfuture
      (fun x hx => (hread x hx).2) fun x hx => by
        obtain ⟨hwrite, -, haborted⟩ := hread x hx
        refine ⟨rfl, rfl, fun hw => ?_, fun c hc => ?_⟩
        · cases hwrite.symm.trans hw
        · cases hc
          exact ⟨Nat.le_refl tick, hlasts x hx, haborted⟩
    exact ⟨htimely, hextends, hle⟩
  | completeWrite serial tick addr size =>
    obtain ⟨rfl, hsize⟩ := hon
    obtain ⟨hle, hfuture, -, hflight⟩ := hadmits
    have hwrite := inFlight_of_ne_none fun _ => hflight addr (by rw [offset_self, hsize]; exact Nat.one_pos)
    simp only [Trace.step, update_self hsize]
    obtain ⟨htimely, hextends⟩ := ht.finished (f := fun x => { x with complete := some tick }) hle hfuture
      (fun x hx => (hwrite x hx).2) fun x hx => by
        refine ⟨rfl, rfl, fun _ => rfl, fun c hc => ?_⟩
        cases hc
        exact ⟨Nat.le_refl tick, hlasts x hx, (hwrite x hx).2.2⟩
    exact ⟨htimely, hextends, hle⟩
  | abortWrite serial addr size =>
    obtain ⟨rfl, hsize⟩ := hon
    obtain ⟨-, hflight⟩ := hadmits
    have hwrite := inFlight_of_ne_none fun _ => hflight addr (by rw [offset_self, hsize]; exact Nat.one_pos)
    simp only [Trace.step, update_self hsize]
    obtain ⟨htimely, hextends⟩ := ht.finished (f := fun x => { x with aborted := true }) (Nat.le_refl g.now) ht.now_le
      (fun x hx => (hwrite x hx).2) fun x hx => by
        refine ⟨rfl, rfl, fun _ => rfl, fun c hc => ?_⟩
        cases (hwrite x hx).2.1.symm.trans hc
    exact ⟨htimely, hextends, Nat.le_refl g.now⟩
  | _ => exact absurd hon id

theorem follows_append {P : Trace → Call → Prop} :
    Trace.Follows P g (calls ++ calls') ↔ Trace.Follows P g calls ∧
      Trace.Follows P (calls.foldl Trace.step g) calls' := by
  induction calls generalizing g with
  | nil => exact ⟨fun h => ⟨trivial, h⟩, fun h => h.2⟩
  | cons call calls ih =>
    simp only [cons_append, Trace.Follows, foldl_cons, ih, and_assoc]

/-- Going on from a trace does not change what is complete. -/
theorem Timely.run (ht : Timely (g.history a) g.now g.next) (hcalls : Trace.Follows (Trace.Regular a) g calls) :
    Timely ((calls.foldl Trace.step g).history a) (calls.foldl Trace.step g).now (calls.foldl Trace.step g).next ∧
      Extends (g.history a) ((calls.foldl Trace.step g).history a) g.now := by
  induction calls generalizing g with
  | nil => exact ⟨ht, .refl _ _⟩
  | cons call calls ih =>
    obtain ⟨htimely, hextends, hle⟩ := ht.step hcalls.1
    obtain ⟨htimely', hextends'⟩ := ih htimely hcalls.2
    exact ⟨htimely', hextends.trans hextends' hle⟩

theorem timely_empty (a : Addr) : Timely (Trace.empty.history a) 0 0 := by
  refine ⟨⟨Nat.zero_le _, ?_, ?_, ?_⟩, ?_⟩
  · intro k x hx
    cases hx
  · intro k x hx
    cases hx
  · intro k x c hx
    cases hx
  · intro k x c hx
    cases hx

/-- A read of a byte that returns false, in a history that has no linearization then. -/
theorem Tracks.completeRead_ne_false (ht : Tracks h now next t) (hlasts : ∀ x, h serial = some x → x.start < now)
    (he : Extends (h.finish serial fun x => { x with complete := some now, data := data }) hf now)
    (htime : ∀ k x c, hf k = some x → x.complete = some c → x.start < c) (hlin : Linearizable hf) :
    t.completeRead serial now data now ≠ .ok (false, t') := by
  intro hread
  unfold ByteTracker.completeRead at hread
  split at hread
  · cases hread
  rename_i r hfind
  obtain ⟨⟨result, t₁⟩, hexpected, hread⟩ := bind_ok hread
  obtain ⟨t₂, -, hdone⟩ := bind_ok hread
  cases hdone
  obtain ⟨o, behind, visited, rest, hlast, hrej⟩ := ByteTracker.inExpectedData_false hexpected
  have hr := mem_of_find?_eq_some hfind
  have hserial : r.serial = serial := by simpa using find?_some hfind
  obtain ⟨x, hx, -, -, hstart⟩ := ht.reads r hr
  have hlt : r.start < now := hstart ▸ hlasts x (hserial ▸ hx)
  exact ht.not_rejected hr hlt (hserial ▸ he) htime hlin hlast { hrej with }

theorem Tracked.run (h : Tracked g m) (hcalls : Trace.Follows (Trace.Regular a) g calls)
    (hrun : machine.run m calls = .ok (os, m')) : Tracked (calls.foldl Trace.step g) m' := by
  induction calls generalizing g m os with
  | nil =>
    obtain ⟨-, rfl⟩ := Machine.run_nil_eq_ok_iff.mp hrun
    exact h
  | cons call calls ih =>
    obtain ⟨o, next, rest, hstep, hrest, -⟩ := Machine.run_cons_eq_ok_iff.mp hrun
    exact ih (h.step hcalls.1.2.1 hstep) hcalls.2 hrest

/-- A history on one byte that is linearizable raises no alarm: every `completeRead` in it
that returns answers true. -/
theorem completeRead_of_linearizable (a : Addr) (before after : List Call) (serial tick : Nat) (data : BitVec 8)
    (hcalls : Trace.Follows (Trace.Regular a) .empty (before ++ .completeRead serial tick a [data] :: after))
    (hlin : Linearizable (((before ++ .completeRead serial tick a [data] :: after).foldl Trace.step .empty).history a))
    {answers : List Answer} {m m' : MemChecker} {result : Bool} (hrun : machine.run construct before = .ok (answers, m))
    (hread : m.completeRead serial tick a [data] tick = .ok (result, m')) : result = true := by
  obtain ⟨hbefore, hcall, hafter⟩ := follows_append.mp hcalls
  have htracked := tracked_construct.run hbefore hrun
  obtain ⟨htimely, -⟩ := (timely_empty a).run hbefore
  obtain ⟨htimely', -, -⟩ := htimely.step hcall
  obtain ⟨-, ⟨hnow, hfuture, -⟩, hlasts⟩ := hcall
  obtain ⟨hfinal, hextends⟩ := htimely'.run hafter
  rw [foldl_append, foldl_cons] at hlin
  have hhistory : ((before.foldl Trace.step .empty).step (.completeRead serial tick a [data])).history a =
      ((before.foldl Trace.step .empty).history a).finish serial fun x =>
        { x with complete := some tick, data := data } :=
    update_self (f := fun i h => h.finish serial fun x => { x with complete := some tick, data := [data].getD i 0 }) rfl
  rw [hhistory] at hextends
  -- the loop over the bytes has one pass
  obtain ⟨⟨b, t⟩, hbyte, hread⟩ := bind_ok hread
  rw [BitVec.add_zero] at hbyte
  have hne : (m.getByteTracker a).completeRead serial tick data tick ≠ .ok (false, t) :=
    ((htracked.tracks a).advance hnow hfuture).completeRead_ne_false hlasts hextends hfinal.lasts hlin
  cases b with
  | true =>
    cases hread
    rfl
  | false => exact absurd hbyte hne

/-- The read overlaps the write and returns what is written. -/
theorem completeRead_of_linearizable_overlap :
    ∃ answers m m', machine.run construct [.startWrite 1 0 [5], .startRead 2 0 1, .completeWrite 0 3 0 1] =
      .ok (answers, m) ∧
      m.completeRead 1 4 0 [5] 4 = .ok (true, m') := by
  obtain ⟨answers, m, result, m', hrun, hread⟩ : ∃ answers m result m',
      machine.run construct [.startWrite 1 0 [5], .startRead 2 0 1, .completeWrite 0 3 0 1] = .ok (answers, m) ∧
        m.completeRead 1 4 0 [5] 4 = .ok (result, m') := ⟨_, _, _, _, rfl, rfl⟩
  have hbyte : ∀ a, offset a 0 < 1 → a = 0 := fun a ha => eq_of_offset_lt_one ha
  have hcalls : Trace.Follows (Trace.Regular 0) .empty
      [.startWrite 1 0 [5], .startRead 2 0 1, .completeWrite 0 3 0 1, .completeRead 1 4 0 [5]] := by
    refine ⟨⟨⟨rfl, rfl⟩, ⟨by decide, by decide, by decide⟩, trivial⟩,
      ⟨⟨rfl, rfl⟩, ⟨by decide, by decide, by decide⟩, trivial⟩,
      ⟨⟨rfl, rfl⟩, ⟨by decide, by decide, by decide, fun a ha => ?_⟩, fun x hx => ?_⟩,
      ⟨⟨rfl, rfl⟩, ⟨by decide, by decide, by decide, fun a ha _ => ?_⟩, fun x hx => ?_⟩, trivial⟩
    · rw [hbyte a ha]
      exact ⟨_, rfl, rfl, rfl, rfl⟩
    · cases hx
      decide
    · rw [hbyte a ha]
      exact ⟨_, rfl, rfl, rfl, rfl⟩
    · cases hx
      decide
  have hlin : Linearizable
      (([Call.startWrite 1 0 [5], .startRead 2 0 1, .completeWrite 0 3 0 1, .completeRead 1 4 0 [5]].foldl
      Trace.step .empty).history 0) := by
    refine ⟨0, [0, 1], by decide, fun k hk => ?_, fun k x hx _ => ?_, ?_, ?_⟩
    · rcases mem_cons.mp hk with rfl | hk
      · exact ⟨_, rfl, rfl, .inl rfl⟩
      · rw [mem_singleton.mp hk]
        exact ⟨_, rfl, rfl, .inr (Option.some_ne_none 4)⟩
    · match k, hx with
      | 0, _ => exact mem_cons_self
      | 1, _ => exact mem_cons_of_mem 0 mem_cons_self
    · refine pairwise_pair.mpr ?_
      rintro ⟨x, y, c, hx, hy, hc, hle⟩
      cases hx
      cases hy
      cases hc
      exact absurd hle (by decide)
    · exact .write ⟨_, rfl, rfl⟩ (.read (not_write_of_read rfl rfl) rfl .nil)
  cases completeRead_of_linearizable 0
    [.startWrite 1 0 [5], .startRead 2 0 1, .completeWrite 0 3 0 1] [] 1 4 5 hcalls hlin hrun hread
  exact ⟨answers, m, m', hrun, hread⟩

end Byte

end Gem5.MemChecker
