import Gem5.Mem.Cache.MSHR.Targets

open Lib Result

namespace Gem5.MSHR

variable {m m' : MSHR} {pkt : Packet} {curTick readyTime order : Nat} {alloc_on_fill : Bool}

theorem Flagged.allocate (hm : m.Flagged) (h : m.allocate pkt curTick readyTime order alloc_on_fill = .ok m') :
    m'.Flagged := by
  obtain ⟨-, -, u, -, -, hadd, h⟩ := bind_ok₃ h
  obtain ⟨-, -, h⟩ := bind_ok h
  cases h
  refine Flagged.addTarget ?_ hadd
  exact ⟨hm.targets, hm.deferred⟩

theorem Flagged.allocateTarget (hm : m.Flagged)
    (h : m.allocateTarget pkt curTick readyTime order alloc_on_fill = .ok m') :
    m'.Flagged := by
  obtain ⟨-, -, defer, -, -, -, h⟩ := bind_ok₃ h
  cases defer with
  | true =>
    obtain ⟨postInvalidate, replaced, ⟨deferredTargets, after⟩, -, -, hadd, h⟩ := bind_ok₃ h
    cases h
    exact ⟨hm.targets, covered_add hadd hm.deferred⟩
  | false => exact hm.addTarget h

/-- Where `promoteWritable` moves the deferred targets up, the other two flags of the
list they are moved to, which it leaves as they are, say what they need already. -/
def Promotable (m : MSHR) : Prop :=
  m.deferredTargets.needsWritable = true → m.postInvalidate = false → m.postDowngrade = false →
    ∀ t ∈ m.deferredTargets.targets, t.source ≠ .FromSnoop →
      (upgrades t.pkt.cmd = true → m.targets.hasUpgrade = true) ∧ (t.allocOnFill = true → m.targets.allocOnFill = true)

theorem Flagged.promoteWritable (hm : m.Flagged) (hpromotable : m.Promotable) (h : m.promoteWritable = .ok m') :
    m'.Flagged := by
  unfold MSHR.promoteWritable at h
  split at h
  · rename_i hwritable
    obtain ⟨-, -, h⟩ := bind_ok h
    split at h
    · cases h
      exact hm
    rename_i hpost
    obtain ⟨-, -, ⟨deferredTargets, after⟩, -, -, hclear, h⟩ := bind_ok₃ h
    cases h
    rw [Bool.or_eq_true, not_or, Bool.not_eq_true, Bool.not_eq_true] at hpost
    refine ⟨fun t' ht' hsource => ?_, .of_nil rfl⟩
    obtain ht' | ht' := List.mem_append.mp ht'
    · obtain ⟨-, hupgrade, halloc⟩ := hm.targets t' ht' hsource
      exact ⟨fun _ => rfl, hupgrade, halloc⟩
    · obtain ⟨t, ht, hsame, hpkt, hfill⟩ := targets_clearDownstreamPending hclear t' ht'
      obtain ⟨hupgrade, halloc⟩ := hpromotable hwritable hpost.1 hpost.2 t ht (hsame ▸ hsource)
      exact ⟨fun _ => rfl, hpkt ▸ hupgrade, hfill ▸ halloc⟩
  · cases h
    exact hm

/-- The flags of the targets that are extracted are right too. -/
theorem Flagged.extractServiceableTargets (hm : m.Flagged) (h : m.extractServiceableTargets cmd = .ok (ready, m')) :
    m'.Flagged ∧ ready.Covered := by
  unfold MSHR.extractServiceableTargets at h
  split at h
  · unfold extractFirst at h
    split at h
    · cases h
    obtain ⟨-, ⟨snoops, kept⟩, -, -, h⟩ := bind_ok₂ h
    obtain ⟨ready_targets, targets, hready, htargets, h⟩ := bind_ok₂ h
    cases h
    exact ⟨⟨covered_populateFlags htargets, hm.deferred⟩, covered_populateFlags hready⟩
  · obtain ⟨targets, htargets, h⟩ := bind_ok h
    cases h
    exact ⟨⟨covered_populateFlags htargets, hm.deferred⟩, hm.targets⟩

theorem Flagged.restart (htargets : m.targets.Covered) (hdeferred : m.deferredTargets.targets = [])
    (h : m.restart curTick = .ok m') : m'.Flagged := by
  unfold MSHR.restart at h
  split at h
  · cases h
  · cases h
    exact ⟨htargets, .of_nil hdeferred⟩

theorem Flagged.promoteDeferredTargets (hm : m.Flagged) (h : m.promoteDeferredTargets curTick = .ok (promoted, m')) :
    m'.Flagged := by
  unfold MSHR.promoteDeferredTargets at h
  split at h
  · rename_i hempty
    split at h
    · cases h
      exact hm
    obtain ⟨u, hrestart, h⟩ := bind_ok h
    cases h
    have hnil : m.targets.targets = [] := List.isEmpty_iff.mp hempty
    exact Flagged.restart
      (m := { m with targets := m.deferredTargets, deferredTargets := m.targets }) hm.deferred hnil hrestart
  · obtain ⟨targets, u, htargets, hrestart, h⟩ := bind_ok₂ h
    cases h
    exact .restart (covered_populateFlags htargets) rfl hrestart

theorem Flagged.finish (hm : m.Flagged) (h : m.finish promoted = .ok m') : m'.Flagged := by
  cases promoted with
  | true =>
    obtain ⟨-, -, h⟩ := bind_ok h
    cases h
    exact ⟨hm.targets, hm.deferred⟩
  | false =>
    obtain ⟨_, -, hempty, -, h⟩ := bind_ok₂ h
    cases h
    exact ⟨.of_nil (List.isEmpty_iff.mp (require_eq_ok_iff.mp hempty)), hm.deferred⟩

/-- The calls on the MSHR, with the parts of `Cache::recvTimingResp` as operations of
their own. -/
inductive Operation where
  | call (c : Call)
  | promoteWritable
  | extractServiceableTargets (cmd : MemCmd)
  | promoteDeferredTargets (curTick : Nat)
  | finish (promoted : Bool)
  deriving DecidableEq, Repr

/-- The MSHR taking one operation at a time. -/
def operations : Machine MSHR Operation Unit where
  step
    | m, .call c => if c.isResponse then .error .assertion else (machine.step m c).map fun answer => ((), answer.2)
    | m, .promoteWritable => m.promoteWritable.map ((), ·)
    | m, .extractServiceableTargets cmd => (m.extractServiceableTargets cmd).map fun answer => ((), answer.2)
    | m, .promoteDeferredTargets curTick => (m.promoteDeferredTargets curTick).map fun answer => ((), answer.2)
    | m, .finish promoted => (m.finish promoted).map ((), ·)

/-- Every call is made of operations. -/
theorem operations_reaches (h : machine.step m c = .ok (answer, m')) : operations.Reaches m m' := by
  have hcall : c.isResponse = false → operations.Reaches m m' := by
    intro hc
    have hstep : operations.step m (.call c) = .ok ((), m') := by
      simp only [operations, hc, h]
      rfl
    exact .step .start hstep
  cases Step.of_machine h with
  | allocate => exact hcall rfl
  | allocateTarget => exact hcall rfl
  | edits _ _ hc => exact hcall hc
  | @recvTimingResp cmd hasSharers curTick served _ hresp =>
    obtain ⟨⟨ready, u⟩, hserve, h⟩ := bind_ok hresp
    obtain ⟨⟨promoted, v⟩, hdeferred, h⟩ := bind_ok h
    obtain ⟨w, hfinish, h⟩ := bind_ok h
    cases h
    obtain ⟨-, first, ⟨targets, extracted⟩, -, hpromote, hextract, hserve⟩ := bind_ok₃ hserve
    obtain ⟨x, hloop, hserve⟩ := bind_ok hserve
    cases hserve
    have hwritable : ∀ a b : MSHR, a.promoteWritable = .ok b → operations.Reaches a b := fun a b hab =>
      .step (c := .promoteWritable) .start (map_eq_ok_iff.mpr ⟨b, hab, rfl⟩)
    have hfirst : operations.Reaches m first := by
      unfold promoteUnless at hpromote
      split at hpromote
      · exact hwritable m first hpromote
      · cases hpromote
        exact .start
    have hextracted : operations.Reaches m extracted :=
      .step (c := .extractServiceableTargets cmd) hfirst (map_eq_ok_iff.mpr ⟨_, hextract, rfl⟩)
    have hserved : operations.Reaches m u := by
      refine foldlM_induction (I := fun _ a => operations.Reaches m a) ?_ hextracted hloop
      intro t later a b ha hpass
      obtain rfl | hab := serveTarget_eq hpass
      · exact ha
      · exact ha.trans (hwritable a b hab)
    have hlast : operations.Reaches m v :=
      .step (c := .promoteDeferredTargets curTick) hserved (map_eq_ok_iff.mpr ⟨_, hdeferred, rfl⟩)
    exact .step (c := .finish promoted) hlast (map_eq_ok_iff.mpr ⟨_, hfinish, rfl⟩)

theorem Flagged.call (hm : m.Flagged) (hc : c.isResponse = false) (h : machine.step m c = .ok (answer, m')) :
    m'.Flagged := by
  cases Step.of_machine h with
  | allocate _ hallocate => exact hm.allocate hallocate
  | allocateTarget _ hallocate => exact hm.allocateTarget hallocate
  | recvTimingResp => cases hc
  | edits _ hedits => exact hedits.flagged hm

theorem Flagged.step (hm : m.Flagged) (hop : op = .promoteWritable → m.Promotable)
    (h : operations.step m op = .ok (u, m')) : m'.Flagged := by
  cases op with
  | call c =>
    simp only [operations] at h
    split at h
    · cases h
    rename_i hc
    obtain ⟨⟨answer, v⟩, hcall, h⟩ := map_ok h
    cases h
    exact hm.call (Bool.eq_false_iff.mpr hc) hcall
  | promoteWritable =>
    obtain ⟨v, hpromote, h⟩ := map_ok h
    cases h
    exact hm.promoteWritable (hop rfl) hpromote
  | extractServiceableTargets cmd =>
    obtain ⟨⟨ready, v⟩, hextract, h⟩ := map_ok h
    cases h
    exact (hm.extractServiceableTargets hextract).1
  | promoteDeferredTargets curTick =>
    obtain ⟨⟨promoted, v⟩, hpromote, h⟩ := map_ok h
    cases h
    exact hm.promoteDeferredTargets hpromote
  | finish promoted =>
    obtain ⟨v, hfinish, h⟩ := map_ok h
    cases h
    exact hm.finish hfinish

/-- Whatever operations have been made on the MSHR, the flags of its targets say what
they need, if those of the deferred targets that `promoteWritable` does not carry
over were set. -/
theorem run_flags {above : Above} {ops : List Operation} {answers : List Unit} {m : MSHR}
    (hpromotable : operations.StepsAll (fun m op => op = .promoteWritable → m.Promotable) (construct above) ops)
    (hrun : operations.run (construct above) ops = .ok (answers, m)) : m.targets.Covered := by
  have hstart : (construct above).Flagged := ⟨.of_nil rfl, .of_nil rfl⟩
  exact (Machine.run_invariant (I := Flagged) (fun _ _ _ _ hm hop => hm.step hop) hstart hpromotable hrun).targets

def readPacket : Packet := ⟨0, .ReadSharedReq, false, false, false, false, false, false, false, none⟩
def writePacket : Packet := ⟨1, .WriteReq, false, false, false, false, false, false, false, none⟩

/-- A write that waits for a read-only block is moved up with the flag that the read
has set already. -/
def promoteBoth (alloc_on_fill : Bool) : List Operation :=
  [.call (.allocate readPacket 0 0 0 alloc_on_fill), .call (.markInService false),
    .call (.allocateTarget writePacket 1 1 1 true), .promoteWritable]

theorem run_flags_read_write :
    ∃ answers m, operations.run (construct fun _ => false) (promoteBoth true) = .ok (answers, m) ∧
    m.targets.targets.length = 2 ∧ m.targets.Covered := by
  refine ⟨?answers, ?m, ?run, ?length, run_flags ?promotable ?run⟩
  case run | length => rfl
  refine ⟨fun h => (by cases h), fun _ _ h => ?_⟩
  cases h
  refine ⟨fun h => (by cases h), fun _ _ h => ?_⟩
  cases h
  refine ⟨fun h => (by cases h), fun _ _ h => ?_⟩
  cases h
  refine ⟨fun _ _ _ _ t ht _ => ?_, fun _ _ _ => trivial⟩
  cases List.mem_singleton.mp ht
  exact ⟨fun h => (by cases h), fun _ => rfl⟩

/-- The write is moved up to a read of a mostly exclusive cache above, which does not
allocate: the flag stays clear. -/
theorem promoteWritable_loses_allocOnFill :
    ∃ answers m, operations.run (construct fun _ => false) (promoteBoth false) = .ok (answers, m) ∧
      m.targets.targets.map Target.allocOnFill = [false, true] ∧ m.targets.allocOnFill = false ∧
        ¬m.targets.Covered := by
  refine ⟨_, _, rfl, rfl, rfl, fun h => ?_⟩
  cases (h _ (.tail _ (.head _)) (by decide)).allocOnFill rfl

end Gem5.MSHR
