import Gem5.Mem.MemChecker.Clusters

open Lib Result List

namespace Gem5.MemChecker

variable {h h' : History} {now next : Nat} {t t' : ByteTracker}

section Scan

variable {A : Type} (complete : A → Nat) (before : Nat)

theorem scanBack_spec (it : A) (front behind : List A) :
    ∃ front' it' behind', scanBack complete before it front behind = (it', behind') ∧
      front.reverse ++ it :: behind = front' ++ it' :: behind' ∧ (front' = [] ∨ complete it' < before) ∧
      ((∀ y ∈ behind, before ≤ complete y) → ∀ y ∈ behind', before ≤ complete y) := by
  induction front generalizing it behind with
  | nil => exact ⟨[], it, behind, rfl, rfl, .inl rfl, fun h => h⟩
  | cons prev front ih =>
    rw [scanBack]
    by_cases hlt : complete it ≥ before
    · obtain ⟨front', it', behind', hscan, hsplit, hfirst, hbehind⟩ := ih prev (it :: behind)
      refine ⟨front', it', behind', (if_pos hlt).trans hscan, ?_, hfirst, fun hall =>
        hbehind (forall_mem_cons.mpr ⟨hlt, hall⟩)⟩
      rw [← hsplit, reverse_cons, append_assoc]
      rfl
    · exact ⟨(prev :: front).reverse, it, behind, if_neg hlt, rfl, .inr (by omega), fun h => h⟩

/-- `lastCompletedTransaction` finds the last element that completes before the tick, or the
first one. -/
theorem lastCompletedTransaction_spec (hne : l ≠ []) :
    ∃ front it behind, lastCompletedTransaction complete l before = .ok (it, behind) ∧ l = front ++ it :: behind ∧
      (front = [] ∨ complete it < before) ∧ ∀ y ∈ behind, before ≤ complete y := by
  unfold lastCompletedTransaction
  split
  · rename_i hnil
    exact absurd (reverse_eq_nil_iff.mp hnil) hne
  rename_i last rev hrev
  obtain ⟨front, it, behind, hscan, hsplit, hfirst, hbehind⟩ := scanBack_spec complete before last rev []
  refine ⟨front, it, behind, by rw [hscan], ?_, hfirst, hbehind fun y hy => absurd hy not_mem_nil⟩
  rw [← hsplit, ← reverse_cons, ← hrev, reverse_reverse]

end Scan

/-- The write is complete, and another one that started later was complete before any read
that is or may still be outstanding. -/
def Superseded (h : History) (now : Nat) (reads : List Transaction) (x : Txn) : Prop :=
  ∃ u k y v, x.complete = some u ∧ h k = some y ∧ y.write = true ∧ y.complete = some v ∧ u ≤ y.start ∧ v < now ∧
    ∀ r ∈ reads, v < r.start

/-- What the tracker of a byte knows of the history of the byte. -/
structure Tracks (h : History) (now next : Nat) (t : ByteTracker) : Prop where
  upTo : h.UpTo now next
  reads : ∀ r ∈ t.outstandingReads, ∃ x, h r.serial = some x ∧ x.write = false ∧ x.complete = none ∧ r.start = x.start
  reads_order : t.outstandingReads.Pairwise fun r s => r.serial < s.serial ∧ r.start ≤ s.start
  observations : ∀ o ∈ t.readObservations, o = ByteTracker.initialObservation ∨
    ∃ k x, h k = some x ∧ x.write = false ∧ x.start = o.start ∧ x.complete = some o.complete ∧ x.data = o.data
  first : ∃ first rest, t.readObservations = first :: rest ∧
    (first = ByteTracker.initialObservation ∨ first.complete < now ∧ ∀ r ∈ t.outstandingReads, first.complete < r.start)
  clusters : ∀ c ∈ t.writeClusters, c.Sound h now
  starts : ∀ c ∈ t.writeClusters, ∃ k x, h k = some x ∧ x.write = true ∧ c.start = x.start
  clusters_order : t.writeClusters.Pairwise fun c d => c.complete ≠ tickFuture ∧ ∀ w ∈ d.writes, c.complete ≤ w.start
  pending : ∀ k x, h k = some x → x.write = true → x.complete = none → x.aborted = false →
    ∃ last, t.writeClusters.getLast? = some last ∧ ∃ w ∈ last.writes, w.serial = k
  stored : ∀ k x, h k = some x → x.write = true → x.aborted = false →
    (∃ c ∈ t.writeClusters, ∃ w ∈ c.writes, w.serial = k) ∨ Superseded h now t.outstandingReads x

section Tracks

theorem tracks_construct (now next : Nat) (hle : now ≤ tickFuture) :
    Tracks (fun _ => none) now next ByteTracker.construct := by
  refine ⟨⟨hle, ?_, ?_, ?_⟩, ?_, .nil, ?_, ⟨_, [], rfl, .inl rfl⟩, ?_, ?_, .nil, ?_, ?_⟩
  · intro k x hx
    cases hx
  · intro k x hx
    cases hx
  · intro k x c hx
    cases hx
  · intro r hr
    cases hr
  · intro o ho
    exact .inl (mem_singleton.mp ho)
  · intro c hc
    cases hc
  · intro c hc
    cases hc
  · intro k x hx
    cases hx
  · intro k x hx
    cases hx

variable (ht : Tracks h now next t)
include ht

theorem Tracks.advance {later : Nat} (hle : now ≤ later) (hfuture : later ≤ tickFuture) : Tracks h later next t := by
  refine { ht with
    upTo := ht.upTo.advance hle hfuture
    first := ?_
    clusters := fun c hc => (ht.clusters c hc).advance hle
    stored := fun k x hx hwrite haborted => (ht.stored k x hx hwrite haborted).imp_right ?_ }
  · obtain ⟨first, rest, hlist, hfirst⟩ := ht.first
    exact ⟨first, rest, hlist, hfirst.imp_right fun ⟨hnow, hreads⟩ => ⟨Nat.lt_of_lt_of_le hnow hle, hreads⟩⟩
  · rintro ⟨u, k', y, v, hu, hy, hyw, hv, hstart, hnow, hreads⟩
    exact ⟨u, k', y, v, hu, hy, hyw, hv, hstart, Nat.lt_of_lt_of_le hnow hle, hreads⟩

/-- `pruneTransactions` looks up to a tick that no outstanding read and no later one starts
before. -/
theorem Tracks.pruneBefore_le : t.pruneBefore now ≤ now ∧ ∀ r ∈ t.outstandingReads, t.pruneBefore now ≤ r.start := by
  unfold ByteTracker.pruneBefore
  have horder := ht.reads_order
  have hreads := ht.reads
  cases hlist : t.outstandingReads with
  | nil => exact ⟨Nat.le_refl now, fun r hr => absurd hr not_mem_nil⟩
  | cons r rs =>
    rw [hlist] at horder hreads
    obtain ⟨x, hx, -, -, hstart⟩ := hreads r mem_cons_self
    refine ⟨Nat.le_trans (Nat.le_of_eq hstart) (ht.upTo.start _ x hx), ?_⟩
    exact forall_mem_cons.mpr ⟨Nat.le_refl _, fun s hs => ((pairwise_cons.mp horder).1 s hs).2⟩

/-- What pruning takes out of the write clusters is superseded. -/
theorem Tracks.superseded_of_pruned (hsplit : t.writeClusters = front ++ it :: behind)
    (hit : it.complete < before) (hnow : before ≤ now) (hreads : ∀ r ∈ t.outstandingReads, before ≤ r.start)
    (hc : c ∈ front) (hw : w ∈ c.writes) (hx : h w.serial = some x) : Superseded h now t.outstandingReads x := by
  have horder := ht.clusters_order
  rw [hsplit] at horder
  obtain ⟨hclosed, hstarts⟩ := (pairwise_append.mp horder).2.2 c hc it mem_cons_self
  have hcs := ht.clusters c (hsplit ▸ mem_append_left _ hc)
  have hits := ht.clusters it (hsplit ▸ mem_append_right _ mem_cons_self)
  have hfuture := ht.upTo.now_le
  have hitclosed : it.complete ≠ tickFuture := by omega
  obtain ⟨x', hx', -, -, hu, hle⟩ := hcs.complete_of_closed ht.upTo hclosed hw
  cases hx.symm.trans hx'
  obtain ⟨w', hw'⟩ := exists_mem_of_ne_nil _ (hits.closed hitclosed).2.1
  obtain ⟨y, hy, hyw, hystart, hv, hvle⟩ := hits.complete_of_closed ht.upTo hitclosed hw'
  refine ⟨w.complete, w'.serial, y, w'.complete, hu, hy, hyw, hv, ?_, by omega, fun r hr => ?_⟩
  · have := hstarts w' hw'
    omega
  · have := hreads r hr
    omega

/-- The clusters that pruning leaves. -/
theorem Tracks.pruneClusters (hnow : before ≤ now) (hreads : ∀ r ∈ t.outstandingReads, before ≤ r.start) :
    ∃ front kept, ByteTracker.pruneClusters t.writeClusters before = .ok kept ∧ t.writeClusters = front ++ kept ∧
      (t.writeClusters ≠ [] → kept ≠ []) ∧
      ∀ c ∈ front, ∀ w ∈ c.writes, ∀ x, h w.serial = some x → Superseded h now t.outstandingReads x := by
  unfold ByteTracker.pruneClusters
  split
  · rename_i hempty
    refine ⟨[], t.writeClusters, rfl, rfl, fun hne => hne, fun c hc => absurd hc not_mem_nil⟩
  rename_i hempty
  have hne : t.writeClusters ≠ [] := fun hnil => hempty (List.isEmpty_iff.mpr hnil)
  obtain ⟨front, it, behind, hlast, hsplit, hit, -⟩ := lastCompletedTransaction_spec WriteCluster.complete before hne
  refine ⟨front, it :: behind, bind_of_ok hlast _, hsplit, fun _ => cons_ne_nil it behind, fun c hc w hw x hx => ?_⟩
  rcases hit with hnil | hit
  · rw [hnil] at hc
    exact absurd hc not_mem_nil
  · exact ht.superseded_of_pruned hsplit hit hnow hreads hc hw hx

/-- Pruning returns, and what is left still tracks the byte. -/
theorem Tracks.prune :
    ∃ t', t.pruneTransactions now = .ok t' ∧ Tracks h now next t' ∧ t'.lastExpectedData = t.lastExpectedData := by
  obtain ⟨hbefore, hbeforeReads⟩ := ht.pruneBefore_le
  obtain ⟨first, rest, hobs, hfirst⟩ := ht.first
  have hne : t.readObservations ≠ [] := by
    rw [hobs]
    exact cons_ne_nil first rest
  obtain ⟨front, it, behind, hlast, hsplit, hit, -⟩ :=
    lastCompletedTransaction_spec Transaction.complete (t.pruneBefore now) hne
  obtain ⟨cfront, kept, hclusters, hcsplit, hkept, hpruned⟩ := ht.pruneClusters hbefore hbeforeReads
  have hmem : ∀ c ∈ kept, c ∈ t.writeClusters := by
    intro c hc
    rw [hcsplit]
    exact mem_append_right cfront hc
  refine ⟨{ t with readObservations := it :: behind, writeClusters := kept }, ?_, ?_, rfl⟩
  · unfold ByteTracker.pruneTransactions
    exact (bind_of_ok hlast _).trans (bind_of_ok hclusters _)
  constructor
  case upTo => exact ht.upTo
  case reads => exact ht.reads
  case reads_order => exact ht.reads_order
  case observations =>
    intro o ho
    apply ht.observations
    rw [hsplit]
    exact mem_append_right front ho
  case first =>
    refine ⟨it, behind, rfl, ?_⟩
    rcases hit with hnil | hit
    · rw [hnil, hobs] at hsplit
      cases hsplit
      exact hfirst
    · exact .inr ⟨Nat.lt_of_lt_of_le hit hbefore, fun r hr => Nat.lt_of_lt_of_le hit (hbeforeReads r hr)⟩
  case clusters => exact fun c hc => ht.clusters c (hmem c hc)
  case starts => exact fun c hc => ht.starts c (hmem c hc)
  case clusters_order =>
    have horder := ht.clusters_order
    rw [hcsplit] at horder
    exact (pairwise_append.mp horder).2.1
  case pending =>
    -- the last cluster is kept
    intro k x hx hwrite hcomplete haborted
    obtain ⟨last, hlast, hw⟩ := ht.pending k x hx hwrite hcomplete haborted
    have hnonempty : kept ≠ [] := by
      apply hkept
      rintro hnil
      rw [hnil] at hlast
      cases hlast
    refine ⟨last, ?_, hw⟩
    rw [← getLast?_append_of_ne_nil cfront hnonempty, ← hcsplit]
    exact hlast
  case stored =>
    intro k x hx hwrite haborted
    rcases ht.stored k x hx hwrite haborted with ⟨c, hc, w, hw, rfl⟩ | hsuper
    · rw [hcsplit] at hc
      rcases mem_append.mp hc with hc | hc
      · exact .inr (hpruned c hc w hw x hx)
      · exact .inl ⟨c, hc, w, hw, rfl⟩
    · exact .inr hsuper

/-- A byte that a transaction does not touch. -/
theorem Tracks.later (hle : next ≤ next') : Tracks h now next' t :=
  { ht with upTo := { ht.upTo with serial := fun k x hx => Nat.lt_of_lt_of_le (ht.upTo.serial k x hx) hle } }

end Tracks

section Reads

theorem insertRead_eq {read : Transaction} (hlast : ∀ r ∈ rs, r.serial < read.serial) :
    ByteTracker.insertRead read rs = rs ++ [read] := by
  induction rs with
  | nil => rfl
  | cons r rs ih =>
    rw [ByteTracker.insertRead, if_pos (hlast r mem_cons_self), ih fun s hs => hlast s (mem_cons_of_mem r hs)]
    rfl

theorem Superseded.mono (hs : Superseded h now reads x)
    (hsame : ∀ k y v, h k = some y → y.complete = some v → h' k = some y)
    (hreads : ∀ r ∈ reads', r ∈ reads ∨ now ≤ r.start) : Superseded h' now reads' x := by
  obtain ⟨u, k, y, v, hu, hy, hyw, hv, hstart, hnow, hall⟩ := hs
  refine ⟨u, k, y, v, hu, hsame k y v hy hv, hyw, hv, hstart, hnow, fun r hr => ?_⟩
  rcases hreads r hr with hr | hr
  · exact hall r hr
  · exact Nat.lt_of_lt_of_le hnow hr

theorem Tracks.startRead (ht : Tracks h now next t) :
    Tracks (h.start next ⟨false, now, none, false, 0⟩) now (next + 1) (t.startRead next now) := by
  have hne : ∀ {k x}, h k = some x → k ≠ next := fun hx => ht.upTo.ne_next hx
  have hold : ∀ {k x}, h k = some x → h.start next ⟨false, now, none, false, 0⟩ k = some x :=
    fun hx => (start_of_ne h _ (hne hx)).trans hx
  have hlast : ∀ r ∈ t.outstandingReads, r.serial < next := by
    intro r hr
    obtain ⟨x, hx, -⟩ := ht.reads r hr
    exact ht.upTo.serial _ x hx
  rw [ByteTracker.startRead, insertRead_eq hlast]
  constructor
  case upTo => exact ht.upTo.start_next rfl rfl
  case reads =>
    intro r hr
    rcases mem_append.mp hr with hr | hr
    · obtain ⟨x, hx, hrest⟩ := ht.reads r hr
      exact ⟨x, hold hx, hrest⟩
    · rw [mem_singleton.mp hr]
      exact ⟨_, start_self h next _, rfl, rfl, rfl⟩
  case reads_order =>
    refine pairwise_append.mpr ⟨ht.reads_order, pairwise_singleton _ _, fun r hr s hs => ?_⟩
    obtain ⟨x, hx, -, -, hstart⟩ := ht.reads r hr
    rw [mem_singleton.mp hs]
    exact ⟨hlast r hr, Nat.le_trans (Nat.le_of_eq hstart) (ht.upTo.start _ x hx)⟩
  case observations =>
    intro o ho
    refine (ht.observations o ho).imp_right ?_
    rintro ⟨k, x, hx, hrest⟩
    exact ⟨k, x, hold hx, hrest⟩
  case first =>
    obtain ⟨first, rest, hobs, hfirst⟩ := ht.first
    exact ⟨first, rest, hobs, hfirst.imp_right fun ⟨hnow, hreads⟩ =>
      ⟨hnow, forall_mem_append.mpr ⟨hreads, forall_mem_singleton.mpr hnow⟩⟩⟩
  case clusters =>
    intro c hc
    refine (ht.clusters c hc).congr fun w hw => ?_
    obtain ⟨x, hx, -⟩ := (ht.clusters c hc).writes w hw
    exact start_of_ne h _ (hne hx)
  case starts =>
    intro c hc
    obtain ⟨k, x, hx, hrest⟩ := ht.starts c hc
    exact ⟨k, x, hold hx, hrest⟩
  case clusters_order => exact ht.clusters_order
  case pending =>
    intro k x hx hwrite hcomplete haborted
    rcases start_cases hx with ⟨-, rfl⟩ | ⟨-, hx⟩
    · cases hwrite
    · exact ht.pending k x hx hwrite hcomplete haborted
  case stored =>
    intro k x hx hwrite haborted
    rcases start_cases hx with ⟨-, rfl⟩ | ⟨-, hx⟩
    · cases hwrite
    exact (ht.stored k x hx hwrite haborted).imp_right fun hs => hs.mono (fun k y v hy _ => hold hy)
      (forall_mem_append.mpr ⟨fun _ => .inl, forall_mem_singleton.mpr (.inr (Nat.le_refl now))⟩)

/-- A read that completes, before it is recorded as an observation. -/
theorem Tracks.finishRead (ht : Tracks h now next t) (data : BitVec 8) (expected : List (BitVec 8))
    (hread : ∀ x, h serial = some x → x.write = false ∧ x.complete = none ∧ x.aborted = false) :
    Tracks (h.finish serial fun x => { x with complete := some now, data := data }) now next
      { t with
        outstandingReads := t.outstandingReads.filter fun r => r.serial ≠ serial
        lastExpectedData := expected } := by
  have hold : ∀ {k x}, h k = some x → (x.write = true ∨ x.complete ≠ none) →
      (h.finish serial fun x => { x with complete := some now, data := data }) k = some x := by
    intro k x hx hcase
    refine (finish_of_ne h _ ?_).trans hx
    rintro rfl
    obtain ⟨hwrite, hcomplete, -⟩ := hread x hx
    rcases hcase with hcase | hcase
    · cases hwrite.symm.trans hcase
    · exact hcase hcomplete
  have hreads : ∀ r ∈ t.outstandingReads.filter (fun r => r.serial ≠ serial), r ∈ t.outstandingReads ∧
    r.serial ≠ serial := by
    intro r hr
    obtain ⟨hmem, hne⟩ := mem_filter.mp hr
    exact ⟨hmem, of_decide_eq_true hne⟩
  constructor
  case upTo =>
    refine ht.upTo.finish_now (fun x _ => rfl) fun x c hx hc => ?_
    cases hc
    exact ⟨ht.upTo.start serial x hx, Nat.le_refl now, (hread x hx).2.2⟩
  case reads =>
    intro r hr
    obtain ⟨hmem, hne⟩ := hreads r hr
    obtain ⟨x, hx, hrest⟩ := ht.reads r hmem
    exact ⟨x, (finish_of_ne h _ hne).trans hx, hrest⟩
  case reads_order => exact ht.reads_order.sublist filter_sublist
  case observations =>
    intro o ho
    refine (ht.observations o ho).imp_right ?_
    rintro ⟨k, x, hx, hwrite, hstart, hcomplete, hdata⟩
    refine ⟨k, x, hold hx (.inr ?_), hwrite, hstart, hcomplete, hdata⟩
    rw [hcomplete]
    exact Option.some_ne_none _
  case first =>
    obtain ⟨first, rest, hobs, hfirst⟩ := ht.first
    exact ⟨first, rest, hobs, hfirst.imp_right fun ⟨hnow, hall⟩ => ⟨hnow, fun r hr => hall r (hreads r hr).1⟩⟩
  case clusters =>
    intro c hc
    refine (ht.clusters c hc).congr fun w hw => ?_
    obtain ⟨x, hx, hwrite, -⟩ := (ht.clusters c hc).writes w hw
    rw [hold hx (.inl hwrite), hx]
  case starts =>
    intro c hc
    obtain ⟨k, x, hx, hwrite, hstart⟩ := ht.starts c hc
    exact ⟨k, x, hold hx (.inl hwrite), hwrite, hstart⟩
  case clusters_order => exact ht.clusters_order
  case pending =>
    intro k x hx hwrite hcomplete haborted
    rcases finish_cases hx with ⟨y, -, -, rfl⟩ | ⟨-, hx⟩
    · cases hcomplete
    · exact ht.pending k x hx hwrite hcomplete haborted
  case stored =>
    intro k x hx hwrite haborted
    rcases finish_cases hx with ⟨y, rfl, hy, rfl⟩ | ⟨-, hx⟩
    · cases (hread y hy).1.symm.trans hwrite
    refine (ht.stored k x hx hwrite haborted).imp_right fun hs => hs.mono
      (fun k y v hy hv => hold hy (.inr ?_)) fun r hr => ?_
    · rw [hv]
      exact Option.some_ne_none v
    · exact .inl (hreads r hr).1

theorem Tracks.observe (ht : Tracks h now next t) {k : Nat} {x : Txn} {o : Transaction} (hx : h k = some x)
    (hwrite : x.write = false) (hstart : x.start = o.start) (hcomplete : x.complete = some o.complete)
    (hdata : x.data = o.data) :
    Tracks h now next { t with readObservations := t.readObservations ++ [o] } := by
  obtain ⟨first, rest, hobs, hfirst⟩ := ht.first
  refine { ht with
    observations := forall_mem_append.mpr ⟨ht.observations, forall_mem_singleton.mpr ?_⟩
    first := ⟨first, rest ++ [o], ?_, hfirst⟩ }
  · exact .inr ⟨k, x, hx, hwrite, hstart, hcomplete, hdata⟩
  · rw [hobs]
    rfl

/-- The last observation is the initial one or a read that was complete before. -/
theorem Tracks.last_observation (ht : Tracks h now next t) (hr : r ∈ t.outstandingReads)
    (hlast : lastCompletedTransaction Transaction.complete t.readObservations r.start = .ok (o, behind)) :
    o = ByteTracker.initialObservation ∨ o.complete < r.start ∧
      ∃ k x, h k = some x ∧ x.write = false ∧ x.start = o.start ∧ x.complete = some o.complete ∧ x.data = o.data := by
  obtain ⟨first, rest, hobs, hfirst⟩ := ht.first
  have hne : t.readObservations ≠ [] := by
    rw [hobs]
    exact cons_ne_nil first rest
  obtain ⟨front, it, behind', hlast', hsplit, hit, -⟩ :=
    lastCompletedTransaction_spec Transaction.complete r.start hne
  cases hlast.symm.trans hlast'
  rcases ht.observations o (hsplit ▸ mem_append_right front mem_cons_self) with hinitial | hobserved
  · exact .inl hinitial
  rcases hit with hnil | hit
  · rw [hnil, hobs] at hsplit
    cases hsplit
    rcases hfirst with hinitial | ⟨-, hreads⟩
    · exact .inl hinitial
    · exact .inr ⟨hreads _ hr, hobserved⟩
  · exact .inr ⟨hit, hobserved⟩

end Reads

/-- The cluster that `getIncompleteWriteCluster` returns, and those before it. -/
structure Incomplete (h : History) (now : Nat) (t : ByteTracker) (front : List WriteCluster) (last : WriteCluster) :
    Prop where
  cluster : t.getIncompleteWriteCluster = (front, last)
  opened : last.complete = tickFuture
  sound : last.Sound h now
  start : last = .construct ∨ ∃ k x, h k = some x ∧ x.write = true ∧ last.start = x.start
  front_mem : ∀ c ∈ front, c ∈ t.writeClusters
  mem : ∀ c ∈ t.writeClusters, c ∈ front ∨ c = last
  closed : ∀ c ∈ front, c.complete ≠ tickFuture
  order : front.Pairwise fun c d => c.complete ≠ tickFuture ∧ ∀ w ∈ d.writes, c.complete ≤ w.start
  starts : ∀ c ∈ front, ∀ w ∈ last.writes, c.complete ≤ w.start
  pending : ∀ k x, h k = some x → x.write = true → x.complete = none → x.aborted = false →
    ∃ w ∈ last.writes, w.serial = k

section Writes

variable {front : List WriteCluster} {last last' : WriteCluster} {serial : Nat}

theorem Tracks.incomplete (ht : Tracks h now next t) : ∃ front last, Incomplete h now t front last := by
  cases hlast : t.writeClusters.getLast? with
  | none =>
    have hnil := getLast?_eq_none_iff.mp hlast
    refine ⟨[], .construct, ?_, rfl, sound_construct, .inl rfl, ?_, ?_, ?_, .nil, ?_,
      fun k x hx hwrite hcomplete haborted => ?_⟩
    · rw [ByteTracker.getIncompleteWriteCluster, hlast]
    · exact fun c hc => absurd hc not_mem_nil
    · intro c hc
      rw [hnil] at hc
      exact absurd hc not_mem_nil
    · exact fun c hc => absurd hc not_mem_nil
    · exact fun c hc => absurd hc not_mem_nil
    · obtain ⟨last, hlast', -⟩ := ht.pending k x hx hwrite hcomplete haborted
      cases hlast.symm.trans hlast'
  | some last =>
    obtain ⟨front, hsplit⟩ := getLast?_eq_some_iff.mp hlast
    have hsound := ht.clusters last (mem_of_getLast? hlast)
    have horder := ht.clusters_order
    rw [hsplit] at horder
    obtain ⟨hfront, -, hacross⟩ := pairwise_append.mp horder
    have hpending : ∀ k x, h k = some x → x.write = true → x.complete = none → x.aborted = false →
        ∃ w ∈ last.writes, w.serial = k := by
      intro k x hx hwrite hcomplete haborted
      obtain ⟨last', hlast', hw⟩ := ht.pending k x hx hwrite hcomplete haborted
      cases hlast.symm.trans hlast'
      exact hw
    by_cases hclosed : last.complete = tickFuture
    · refine ⟨front, last, ?_, hclosed, hsound, .inr (ht.starts last (mem_of_getLast? hlast)), ?_,
        ?_, ?_, hfront, ?_, hpending⟩
      · have hincomplete : last.isComplete = false := decide_eq_false (not_not.mpr hclosed)
        rw [ByteTracker.getIncompleteWriteCluster, hlast]
        simp only [hincomplete, hsplit, dropLast_concat]
        rfl
      · intro c hc
        rw [hsplit]
        exact mem_append_left [last] hc
      · intro c hc
        rw [hsplit] at hc
        exact (mem_append.mp hc).imp_right mem_singleton.mp
      · exact fun c hc => (hacross c hc last mem_cons_self).1
      · exact fun c hc => (hacross c hc last mem_cons_self).2
    · refine ⟨t.writeClusters, .construct, ?_, rfl, sound_construct, .inl rfl, fun c hc => hc, fun c hc => .inl hc, ?_,
        ht.clusters_order, fun c _ w hw => absurd hw not_mem_nil, fun k x hx hwrite hcomplete haborted => ?_⟩
      · have hcomplete : last.isComplete = true := decide_eq_true hclosed
        rw [ByteTracker.getIncompleteWriteCluster, hlast]
        simp only [hcomplete]
        rfl
      · intro c hc
        rw [hsplit] at hc
        rcases mem_append.mp hc with hc | hc
        · exact (hacross c hc last mem_cons_self).1
        · exact mem_singleton.mp hc ▸ hclosed
      · obtain ⟨w, hw, hserial⟩ := hpending k x hx hwrite hcomplete haborted
        exact absurd (hsound.complete_eq ht.upTo hw (hserial ▸ hx) hcomplete) hclosed

/-- A new last cluster, where only the transaction `serial` differs in the histories. -/
theorem Incomplete.rebuild (hi : Incomplete h now t front last) (serial : Nat) (ht : Tracks h now next t)
    (hh' : h'.UpTo now next') (hsame : ∀ k, k ≠ serial → h' k = h k)
    (hserial : ∀ x, h serial = some x → x.write = true ∧ x.complete = none ∧
      ∃ x', h' serial = some x' ∧ x'.write = true ∧ x'.start = x.start) (hsound : last'.Sound h' now)
    (hstart : ∃ k x, h' k = some x ∧ x.write = true ∧ last'.start = x.start)
    (hstarts : ∀ w ∈ last'.writes, w.start = now ∨ ∃ w₀ ∈ last.writes, w.start = w₀.start)
    (hkept : ∀ w₀ ∈ last.writes, w₀.serial ≠ serial → ∃ w ∈ last'.writes, w.serial = w₀.serial)
    (hself : ∀ x, h' serial = some x → x.write = true ∧ (x.aborted = false → ∃ w ∈ last'.writes, w.serial = serial)) :
    Tracks h' now next' { t with writeClusters := front ++ [last'] } := by
  have hold : ∀ {k x}, h k = some x → (x.write = false ∨ x.complete ≠ none) → h' k = some x := by
    intro k x hx hcase
    refine (hsame k ?_).trans hx
    rintro rfl
    obtain ⟨hwrite, hcomplete, -⟩ := hserial x hx
    rcases hcase with hcase | hcase
    · cases hwrite.symm.trans hcase
    · exact hcase hcomplete
  constructor
  case upTo => exact hh'
  case reads =>
    intro r hr
    obtain ⟨x, hx, hwrite, hrest⟩ := ht.reads r hr
    exact ⟨x, hold hx (.inl hwrite), hwrite, hrest⟩
  case reads_order => exact ht.reads_order
  case observations =>
    intro o ho
    refine (ht.observations o ho).imp_right ?_
    rintro ⟨k, x, hx, hwrite, hrest⟩
    exact ⟨k, x, hold hx (.inl hwrite), hwrite, hrest⟩
  case first => exact ht.first
  case clusters =>
    intro c hc
    rcases mem_append.mp hc with hc | hc
    · refine (ht.clusters c (hi.front_mem c hc)).congr fun w hw => hsame _ ?_
      rintro rfl
      obtain ⟨x, hx, -, -, hcomplete, -⟩ :=
        (ht.clusters c (hi.front_mem c hc)).complete_of_closed ht.upTo (hi.closed c hc) hw
      cases (hserial x hx).2.1.symm.trans hcomplete
    · rw [mem_singleton.mp hc]
      exact hsound
  case starts =>
    intro c hc
    rcases mem_append.mp hc with hc | hc
    · obtain ⟨k, x, hx, hwrite, hcstart⟩ := ht.starts c (hi.front_mem c hc)
      by_cases hk : k = serial
      · subst hk
        obtain ⟨-, -, x', hx', hwrite', hstart'⟩ := hserial x hx
        exact ⟨k, x', hx', hwrite', hcstart.trans hstart'.symm⟩
      · exact ⟨k, x, (hsame k hk).trans hx, hwrite, hcstart⟩
    · rw [mem_singleton.mp hc]
      exact hstart
  case clusters_order =>
    refine pairwise_append.mpr ⟨hi.order, pairwise_singleton _ _, fun c hc d hd => ?_⟩
    rw [mem_singleton.mp hd]
    refine ⟨hi.closed c hc, fun w hw => ?_⟩
    rcases hstarts w hw with hnow | ⟨w₀, hw₀, heq⟩
    · rw [hnow]
      exact ((ht.clusters c (hi.front_mem c hc)).closed (hi.closed c hc)).1
    · rw [heq]
      exact hi.starts c hc w₀ hw₀
  case pending =>
    intro k x hx hwrite hcomplete haborted
    refine ⟨last', getLast?_concat, ?_⟩
    by_cases hk : k = serial
    · subst hk
      exact (hself x hx).2 haborted
    · obtain ⟨w₀, hw₀, hserial₀⟩ := hi.pending k x ((hsame k hk).symm.trans hx) hwrite hcomplete haborted
      obtain ⟨w, hw, heq⟩ := hkept w₀ hw₀ (hserial₀ ▸ hk)
      exact ⟨w, hw, heq.trans hserial₀⟩
  case stored =>
    intro k x hx hwrite haborted
    have hmem : last' ∈ front ++ [last'] := mem_append_right front mem_cons_self
    by_cases hk : k = serial
    · subst hk
      obtain ⟨w, hw, heq⟩ := (hself x hx).2 haborted
      exact .inl ⟨last', hmem, w, hw, heq⟩
    rcases ht.stored k x ((hsame k hk).symm.trans hx) hwrite haborted with ⟨c, hc, w₀, hw₀, rfl⟩ | hs
    · rcases hi.mem c hc with hc | rfl
      · exact .inl ⟨c, mem_append_left _ hc, w₀, hw₀, rfl⟩
      · obtain ⟨w, hw, heq⟩ := hkept w₀ hw₀ hk
        exact .inl ⟨last', hmem, w, hw, heq⟩
    · refine .inr (hs.mono (fun k y v hy hv => hold hy (.inr ?_)) fun r hr => .inl hr)
      rw [hv]
      exact Option.some_ne_none v

theorem Tracks.startWrite (ht : Tracks h now next t) (data : BitVec 8) :
    ∃ t', t.startWrite next now data = .ok t' ∧
      Tracks (h.start next ⟨true, now, none, false, data⟩) now (next + 1) t' := by
  obtain ⟨front, last, hi⟩ := ht.incomplete
  have hnew : ∀ w ∈ last.writes, w.serial ≠ next := by
    intro w hw
    obtain ⟨x, hx, -⟩ := hi.sound.writes w hw
    exact ht.upTo.ne_next hx
  have hstart : last.start = tickFuture ∨ last.start ≤ now := by
    rcases hi.start with rfl | ⟨k, x, hx, -, heq⟩
    · exact .inl rfl
    · exact .inr (heq ▸ ht.upTo.start k x hx)
  have hlast := startWrite_eq data hi.opened hstart hnew
  refine ⟨{ t with writeClusters := front ++ [_] }, ?_, hi.rebuild next ht (ht.upTo.start_next rfl rfl)
    (fun k hk => start_of_ne h _ hk) (fun x hx => absurd rfl (ht.upTo.ne_next hx))
    (hi.sound.start ht.upTo hi.opened (if last.start = tickFuture then now else last.start)) ?_ ?_ ?_ ?_⟩
  · rw [ByteTracker.startWrite, hi.cluster]
    exact bind_of_ok hlast _
  · rcases hi.start with rfl | ⟨k, x, hx, hwrite, heq⟩
    · exact ⟨next, _, start_self h next _, rfl, rfl⟩
    · by_cases hs : last.start = tickFuture
      · exact ⟨next, _, start_self h next _, rfl, if_pos hs⟩
      · exact ⟨k, x, (start_of_ne h _ (ht.upTo.ne_next hx)).trans hx, hwrite, (if_neg hs).trans heq⟩
  · exact forall_mem_append.mpr ⟨fun w hw => .inr ⟨w, hw, rfl⟩, forall_mem_singleton.mpr (.inl rfl)⟩
  · exact fun w hw _ => ⟨w, mem_append_left _ hw, rfl⟩
  · intro x hx
    rw [start_self] at hx
    cases hx
    exact ⟨rfl, fun _ => ⟨_, mem_append_right _ mem_cons_self, rfl⟩⟩

variable {x : Txn}

/-- The start of the last cluster, once one of its writes is known. -/
theorem Incomplete.exists_start (hi : Incomplete h now t front last) (hw : w ∈ last.writes) :
    ∃ k x, h k = some x ∧ x.write = true ∧ last.start = x.start := by
  rcases hi.start with rfl | hstart
  · exact absurd hw not_mem_nil
  · exact hstart

/-- A transaction that ends keeps what the starts of the clusters refer to. -/
theorem exists_start_finish {f : Txn → Txn} (hf : ∀ x, (f x).write = x.write ∧ (f x).start = x.start)
    (hstart : ∃ k x, h k = some x ∧ x.write = true ∧ start = x.start) :
    ∃ k x, h.finish serial f k = some x ∧ x.write = true ∧ start = x.start := by
  obtain ⟨k, x, hx, hwrite, heq⟩ := hstart
  by_cases hk : k = serial
  · subst hk
    exact ⟨k, f x, finish_self hx f, (hf x).1.trans hwrite, heq.trans (hf x).2.symm⟩
  · exact ⟨k, x, (finish_of_ne h f hk).trans hx, hwrite, heq⟩

theorem Tracks.completeWrite (ht : Tracks h now next t) (hx : h serial = some x) (hwrite : x.write = true)
    (hcomplete : x.complete = none) (haborted : x.aborted = false) :
    ∃ t', t.completeWrite serial now now = .ok t' ∧
      Tracks (h.finish serial fun x => { x with complete := some now }) now next t' := by
  obtain ⟨front, last, hi⟩ := ht.incomplete
  obtain ⟨w, hw, hserial⟩ := hi.pending serial x hx hwrite hcomplete haborted
  obtain ⟨last', hlast', hsound, hstart, hwrites⟩ := hi.sound.completeWrite ht.upTo hw hserial hx hcomplete
  have htracks : Tracks (h.finish serial fun x => { x with complete := some now }) now next
      { t with writeClusters := front ++ [last'] } := by
    refine hi.rebuild serial ht (ht.upTo.finish_now (fun x _ => rfl) fun y c hy hc => ?_)
      (fun k hk => finish_of_ne h _ hk) (fun y hy => ?_) hsound ?_ (fun w' hw' => ?_) (fun w₀ hw₀ _ => ?_)
      (fun y hy => ?_)
    · cases hc
      cases hx.symm.trans hy
      exact ⟨ht.upTo.start serial x hx, Nat.le_refl now, haborted⟩
    · cases hx.symm.trans hy
      exact ⟨hwrite, hcomplete, _, finish_self hx _, hwrite, rfl⟩
    · rw [hstart]
      exact exists_start_finish (fun x => ⟨rfl, rfl⟩) (hi.exists_start hw)
    · rw [hwrites] at hw'
      obtain ⟨w₀, hw₀, rfl⟩ := mem_map.mp hw'
      exact .inr ⟨w₀, hw₀, start_recordComplete serial now w₀⟩
    · rw [hwrites]
      exact ⟨_, mem_map_of_mem hw₀, serial_recordComplete serial now w₀⟩
    · rw [finish_self hx] at hy
      cases hy
      refine ⟨hwrite, fun _ => ?_⟩
      rw [hwrites]
      exact ⟨_, mem_map_of_mem hw, (serial_recordComplete serial now w).trans hserial⟩
  obtain ⟨t', hprune, htracks', -⟩ := htracks.prune
  refine ⟨t', ?_, htracks'⟩
  rw [ByteTracker.completeWrite, hi.cluster]
  exact (bind_of_ok hlast' _).trans hprune

theorem Tracks.abortWrite (ht : Tracks h now next t) (hx : h serial = some x) (hwrite : x.write = true)
    (hcomplete : x.complete = none) (haborted : x.aborted = false) :
    Tracks (h.finish serial fun x => { x with aborted := true }) now next (t.abortWrite serial) := by
  obtain ⟨front, last, hi⟩ := ht.incomplete
  obtain ⟨w, hw, hserial⟩ := hi.pending serial x hx hwrite hcomplete haborted
  obtain ⟨hsound, hstart, hwrites⟩ := hi.sound.abortWrite ht.upTo hw hserial hx hcomplete
  have hmem : ∀ w' ∈ (last.abortWrite serial).writes, w' ∈ last.writes := by
    intro w' hw'
    rw [hwrites] at hw'
    exact mem_of_mem_filter hw'
  rw [ByteTracker.abortWrite, hi.cluster]
  refine hi.rebuild serial ht (ht.upTo.finish_now (fun x _ => rfl) fun y c hy hc => ?_)
    (fun k hk => finish_of_ne h _ hk) (fun y hy => ?_) hsound ?_ (fun w' hw' => .inr ⟨w', hmem w' hw', rfl⟩)
    (fun w₀ hw₀ hne => ⟨w₀, ?_, rfl⟩) (fun y hy => ?_)
  · cases hx.symm.trans hy
    cases hcomplete.symm.trans hc
  · cases hx.symm.trans hy
    exact ⟨hwrite, hcomplete, _, finish_self hx _, hwrite, rfl⟩
  · rw [hstart]
    exact exists_start_finish (fun x => ⟨rfl, rfl⟩) (hi.exists_start hw)
  · rw [hwrites]
    exact mem_filter.mpr ⟨hw₀, decide_eq_true hne⟩
  · rw [finish_self hx] at hy
    cases hy
    exact ⟨hwrite, fun hnot => by cases hnot⟩

end Writes

end Gem5.MemChecker
