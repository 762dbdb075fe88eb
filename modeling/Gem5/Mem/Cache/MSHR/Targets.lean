import Gem5.Mem.Cache.MSHR.TargetList

open Lib Result List

namespace Gem5.MSHR

/-- The packets that the MSHR holds, in the order in which it will serve them. -/
def waiting (m : MSHR) : List Nat := demand (m.targets.targets ++ m.deferredTargets.targets)

/-- The invariant of the MSHR: targets are deferred only while it is in service, a list
without targets has no flags, and a free MSHR has neither. -/
structure Sound (m : MSHR) : Prop where
  service : m.deferredTargets.targets ≠ [] → m.inService = true
  reset : m.deferredTargets.targets = [] → m.deferredTargets.isReset = true
  free : m.free = true → m.targets.targets = [] ∧ m.deferredTargets.targets = [] ∧ m.targets.isReset = true

/-- The flags of both lists say what their targets need. -/
structure Flagged (m : MSHR) : Prop where
  targets : m.targets.Covered
  deferred : m.deferredTargets.Covered

variable {m m' : MSHR} {pkt : Packet} {t : Target} {ts : List Target} {alloc_on_fill : Bool}
  {curTick whenReady order : Nat}

/-- A step on an MSHR in use that keeps the invariant and the packets it holds. -/
def Quiet (m m' : MSHR) : Prop := m.Sound → m.free = false → m'.Sound ∧ m'.free = false ∧ m'.waiting = m.waiting

theorem Quiet.refl (m : MSHR) : Quiet m m := fun hsound hfree => ⟨hsound, hfree, rfl⟩

theorem Quiet.trans (h : Quiet m m') (h' : Quiet m' m'') : Quiet m m'' := by
  intro hsound hfree
  obtain ⟨hsound', hfree', hwaiting⟩ := h hsound hfree
  obtain ⟨hsound'', hfree'', hwaiting'⟩ := h' hsound' hfree'
  exact ⟨hsound'', hfree'', hwaiting'.trans hwaiting⟩

/-- A quiet step that keeps the flags right. -/
structure Edits (m m' : MSHR) : Prop where
  quiet : Quiet m m'
  flagged : m.Flagged → m'.Flagged

section Edits

theorem Edits.refl (m : MSHR) : Edits m m := ⟨.refl m, id⟩

theorem Edits.trans (h : Edits m m') (h' : Edits m' m'') : Edits m m'' :=
  ⟨h.quiet.trans h'.quiet, fun hm => h'.flagged (h.flagged hm)⟩

/-- Steps that change the targets of the lists only as a list may. -/
theorem Edits.of_alters (htargets : Alters m.targets m'.targets)
    (hdeferred : Alters m.deferredTargets m'.deferredTargets)
    (hservice : m.inService = true → m'.inService = true) (hfree' : m'.free = m.free) : Edits m m' := by
  refine ⟨fun hsound hfree => ?_, fun hm => ⟨htargets.covered hm.targets, hdeferred.covered hm.deferred⟩⟩
  have hnil := eq_nil_congr hdeferred.same
  refine ⟨⟨fun hne => ?_, fun heq => ?_, fun h => ?_⟩, hfree'.trans hfree, ?_⟩
  · exact hservice (hsound.service fun heq => hne (hnil.mpr heq))
  · exact hdeferred.reset (hsound.reset (hnil.mp heq))
  · rw [hfree', hfree] at h
    cases h
  · rw [waiting, demand_append, demand_congr htargets.same, demand_congr hdeferred.same, ← demand_append, waiting]

variable {needsWritable : Bool}

theorem edits_replaceTargets (h : m.replaceTargets needsWritable = .ok m') : Edits m m' := by
  unfold replaceTargets at h
  split at h
  · obtain ⟨targets, hreplace, h⟩ := bind_ok h
    cases h
    exact .of_alters (alters_replaceUpgrades hreplace) (.refl _) id rfl
  · cases h
    exact .refl m

theorem edits_replaceDeferred (h : m.replaceDeferred needsWritable = .ok m') : Edits m m' := by
  unfold replaceDeferred at h
  split at h
  · obtain ⟨deferredTargets, hreplace, h⟩ := bind_ok h
    cases h
    exact .of_alters (.refl _) (alters_replaceUpgrades hreplace) id rfl
  · cases h
    exact .refl m

theorem edits_clearDownstreamPending (h : m.clearDownstreamPending = .ok m') : Edits m m' := by
  obtain ⟨-, ⟨targets, after⟩, -, hclear, h⟩ := bind_ok₂ h
  cases h
  exact .of_alters (alters_clearDownstreamPending hclear) (.refl _) id rfl

theorem edits_setDownstreamPending (h : m.setDownstreamPending = .ok m') : Edits m m' := by
  obtain ⟨-, -, h⟩ := bind_ok h
  cases h
  exact .of_alters (.refl _) (.refl _) id rfl

theorem edits_markInService (h : m.markInService pending_modified_resp = .ok m') : Edits m m' := by
  obtain ⟨-, -, h⟩ := bind_ok h
  dsimp only at h
  split at h
  · obtain ⟨⟨targets, after⟩, hclear, h⟩ := bind_ok h
    cases h
    exact .of_alters (alters_clearDownstreamPending hclear) (.refl _) (fun _ => rfl) rfl
  · cases h
    exact .of_alters (.refl _) (.refl _) (fun _ => rfl) rfl

theorem Flagged.addTarget {source : Source} {markPending : Bool} (hm : m.Flagged)
    (h : m.addTarget pkt curTick whenReady order source markPending alloc_on_fill = .ok m') : m'.Flagged := by
  obtain ⟨⟨targets, after⟩, hadd, h⟩ := bind_ok h
  cases h
  exact ⟨covered_add hadd hm.targets, hm.deferred⟩

/-- Adding a snoop to the targets. -/
theorem edits_addSnoop {markPending : Bool}
    (h : m.addTarget pkt curTick whenReady order .FromSnoop markPending alloc_on_fill = .ok m') : Edits m m' := by
  refine ⟨?_, fun hm => hm.addTarget h⟩
  obtain ⟨⟨targets, after⟩, hadd, h⟩ := bind_ok h
  cases h
  obtain ⟨t, htargets, -, hsource⟩ := targets_add hadd
  intro hsound hfree
  refine ⟨⟨hsound.service, hsound.reset, fun h => ?_⟩, hfree, ?_⟩
  · cases hfree.symm.trans h
  · simp only [waiting, htargets, demand_append, demand_cons_of_eq hsource]
    rw [demand_nil, append_nil]

theorem edits_saveSnoop (h : m.saveSnoop pkt needsWritable curTick order = .ok (pkt', m')) : Edits m m' := by
  unfold saveSnoop at h
  split at h
  · obtain ⟨marked, u, -, hadd, h⟩ := bind_ok₂ h
    cases h
    exact (edits_addSnoop hadd).trans (.of_alters (.refl _) (.refl _) id rfl)
  · cases h
    exact .refl m

theorem edits_downgrade (m : MSHR) (pkt : Packet) (needsWritable : Bool) :
    Edits m (m.downgrade pkt needsWritable).2 := by
  unfold downgrade
  split
  · exact .of_alters (.refl _) (.refl _) id rfl
  · exact .refl m

theorem edits_handleSnoop (h : m.handleSnoop pkt curTick order = .ok answer) : Edits m answer.2.2 := by
  obtain ⟨needsWritable, -, -, -, h⟩ := bind_ok₂ h
  split at h
  · obtain ⟨u, v, htargets, hdeferred, h⟩ := bind_ok₂ h
    cases h
    exact (edits_replaceTargets htargets).trans (edits_replaceDeferred hdeferred)
  obtain ⟨u, hdeferred, h⟩ := bind_ok h
  refine (edits_replaceDeferred hdeferred).trans ?_
  split at h
  · cases h
    exact .refl u
  · obtain ⟨⟨marked, v⟩, hsave, h⟩ := bind_ok h
    cases h
    exact (edits_saveSnoop hsave).trans (edits_downgrade v marked needsWritable)

end Edits

section Service

theorem quiet_promoteWritable (h : m.promoteWritable = .ok m') : Quiet m m' := by
  unfold promoteWritable at h
  split at h
  · obtain ⟨-, -, h⟩ := bind_ok h
    split at h
    · cases h
      exact .refl m
    obtain ⟨-, -, ⟨deferredTargets, after⟩, -, -, hclear, h⟩ := bind_ok₃ h
    cases h
    intro hsound hfree
    refine ⟨⟨fun hne => absurd rfl hne, fun _ => rfl, fun h => ?_⟩, hfree, ?_⟩
    · cases hfree.symm.trans h
    · simp only [waiting, TargetList.resetFlags, append_nil, demand_append]
      rw [demand_congr (alters_clearDownstreamPending hclear).same]
  · cases h
    exact .refl m

/-- Serving a target does nothing to the MSHR or promotes the deferred targets. -/
theorem serveTarget_eq (h : m.serveTarget is_error t = .ok m') : m' = m ∨ m.promoteWritable = .ok m' := by
  unfold serveTarget at h
  split at h
  · split at h
    · cases h
      exact .inl rfl
    · split at h
      · obtain ⟨-, -, h⟩ := bind_ok h
        exact .inr h
      · cases h
        exact .inl rfl
  · obtain ⟨-, -, h⟩ := bind_ok h
    cases h
    exact .inl rfl
  · obtain ⟨-, -, h⟩ := bind_ok h
    cases h
    exact .inl rfl

theorem quiet_serveTarget (h : m.serveTarget is_error t = .ok m') : Quiet m m' := by
  obtain rfl | hpromote := serveTarget_eq h
  · exact .refl m'
  · exact quiet_promoteWritable hpromote

/-- The loop of `extractServiceableTargets` takes only snoops out of the list. -/
theorem splitSnoops_spec (h : splitSnoops ts = .ok (ready, kept)) : demand ready = [] ∧ demand kept = demand ts := by
  induction ts generalizing ready kept with
  | nil =>
    cases h
    exact ⟨rfl, rfl⟩
  | cons t ts ih =>
    unfold splitSnoops at h
    split at h
    · rename_i hsource
      obtain ⟨⟨ready', kept'⟩, hrest, h⟩ := bind_ok h
      cases h
      obtain ⟨hready, hkept⟩ := ih hrest
      have hne : t.source ≠ .FromSnoop := by
        rw [hsource]
        decide
      exact ⟨hready, by rw [demand_cons_of_ne hne, demand_cons_of_ne hne, hkept]⟩
    · obtain ⟨_, ⟨ready', kept'⟩, hsource, hrest, h⟩ := bind_ok₂ h
      cases h
      obtain ⟨hready, hkept⟩ := ih hrest
      have heq := of_decide_eq_true (require_eq_ok_iff.mp hsource)
      exact ⟨by rw [demand_cons_of_eq heq, hready], by rw [demand_cons_of_eq heq, hkept]⟩

/-- What is extracted comes first of the packets that the MSHR holds. -/
theorem extractServiceableTargets_spec (h : m.extractServiceableTargets cmd = .ok (ready, m')) (hsound : m.Sound)
    (hfree : m.free = false) : m'.Sound ∧ m'.free = false ∧ m.waiting = demand ready.targets ++ m'.waiting := by
  unfold extractServiceableTargets at h
  split at h
  · unfold extractFirst at h
    split at h
    · cases h
    rename_i first rest hlist
    obtain ⟨_, ⟨snoops, kept⟩, hsource, hsplit, h⟩ := bind_ok₂ h
    obtain ⟨ready_targets, targets, hready, htargets, h⟩ := bind_ok₂ h
    cases h
    obtain ⟨hsnoops, hkept⟩ := splitSnoops_spec hsplit
    have hne : first.source ≠ .FromSnoop := by
      rcases of_decide_eq_true (require_eq_ok_iff.mp hsource) with h | h <;> rw [h] <;> decide
    refine ⟨⟨hsound.service, hsound.reset, fun h => ?_⟩, hfree, ?_⟩
    · cases hfree.symm.trans h
    · rw [waiting, waiting, targets_populateFlags hready, targets_populateFlags htargets, hlist,
        demand_append, demand_append,
        demand_cons_of_ne hne, demand_cons_of_ne hne, hsnoops, hkept]
      rfl
  · obtain ⟨targets, htargets, h⟩ := bind_ok h
    cases h
    refine ⟨⟨hsound.service, hsound.reset, fun h => ?_⟩, hfree, ?_⟩
    · cases hfree.symm.trans h
    · rw [waiting, waiting, targets_populateFlags htargets, demand_append]
      rfl

/-- `serve` takes out the packets of the targets that it returns. -/
theorem serve_spec (h : m.serve cmd hasSharers = .ok (served, m')) (hsound : m.Sound) (hfree : m.free = false) :
    m'.Sound ∧ m'.free = false ∧ m.waiting = demand served ++ m'.waiting := by
  obtain ⟨-, u, ⟨ready, v⟩, -, hpromote, hextract, h⟩ := bind_ok₃ h
  obtain ⟨w, hloop, h⟩ := bind_ok h
  cases h
  have hu : Quiet m u := by
    unfold promoteUnless at hpromote
    split at hpromote
    · exact quiet_promoteWritable hpromote
    · cases hpromote
      exact .refl m
  have hw : Quiet v m' :=
    foldlM_induction (I := fun _ w => Quiet v w) (fun _ _ _ _ hw hpass => hw.trans (quiet_serveTarget hpass))
    (.refl v) hloop
  obtain ⟨husound, hufree, huwaiting⟩ := hu hsound hfree
  obtain ⟨hvsound, hvfree, hvwaiting⟩ := extractServiceableTargets_spec hextract husound hufree
  obtain ⟨hwsound, hwfree, hwwaiting⟩ := hw hvsound hvfree
  exact ⟨hwsound, hwfree, by rw [← huwaiting, hvwaiting, hwwaiting]⟩

/-- Once the deferred targets have been promoted there are none, and the packets are
the same. -/
theorem promoteDeferredTargets_true (h : m.promoteDeferredTargets curTick = .ok (true, m')) :
    m'.deferredTargets.targets = [] ∧ m'.deferredTargets.isReset = true ∧ m'.free = m.free ∧
      m'.waiting = m.waiting := by
  unfold promoteDeferredTargets at h
  split at h
  · rename_i hempty
    have hnil : m.targets.targets = [] := isEmpty_iff.mp hempty
    split at h
    · cases h
    obtain ⟨u, hrestart, h⟩ := bind_ok h
    cases h
    unfold restart at hrestart
    split at hrestart
    · cases hrestart
    · cases hrestart
      refine ⟨hnil, rfl, rfl, ?_⟩
      simp only [waiting, TargetList.resetFlags, hnil, append_nil, nil_append]
  · obtain ⟨targets, u, htargets, hrestart, h⟩ := bind_ok₂ h
    cases h
    unfold restart at hrestart
    split at hrestart
    · cases hrestart
    · cases hrestart
      refine ⟨rfl, rfl, rfl, ?_⟩
      simp only [waiting, TargetList.resetFlags, targets_populateFlags htargets, append_nil]

theorem promoteDeferredTargets_false (h : m.promoteDeferredTargets curTick = .ok (false, m')) :
    m' = m ∧ m.targets.targets = [] ∧ m.deferredTargets.targets = [] := by
  unfold promoteDeferredTargets at h
  split at h
  · rename_i htargets
    split at h
    · rename_i hdeferred
      cases h
      exact ⟨rfl, isEmpty_iff.mp htargets, isEmpty_iff.mp hdeferred⟩
    · obtain ⟨u, -, h⟩ := bind_ok h
      cases h
  · obtain ⟨targets, u, -, -, h⟩ := bind_ok₂ h
    cases h

/-- The assertions of `deallocate` hold whenever `promoteDeferredTargets` finds no
targets. -/
theorem exists_deallocate (hsound : m.Sound) (h : m.promoteDeferredTargets curTick = .ok (false, m')) :
    ∃ freed, m'.deallocate = .ok freed := by
  obtain ⟨rfl, htargets, hdeferred⟩ := promoteDeferredTargets_false h
  refine ⟨{ m' with targets := m'.targets.resetFlags, inService := false, free := true }, ?_⟩
  refine (bind_of_ok (require_of_true (isEmpty_iff.mpr htargets)) _).trans ?_
  exact bind_of_ok (require_of_true (hsound.reset hdeferred)) _

theorem recvTimingResp_spec (h : m.recvTimingResp cmd hasSharers curTick = .ok (served, m')) (hsound : m.Sound)
    (hfree : m.free = false) : m'.Sound ∧ m.waiting = demand served ++ m'.waiting := by
  obtain ⟨⟨ready, u⟩, hserve, h⟩ := bind_ok h
  obtain ⟨⟨promoted, v⟩, hpromote, h⟩ := bind_ok h
  obtain ⟨w, hfinish, h⟩ := bind_ok h
  cases h
  obtain ⟨husound, hufree, huwaiting⟩ := serve_spec hserve hsound hfree
  cases promoted with
  | true =>
    obtain ⟨hnil, hreset, hvfree, hvwaiting⟩ := promoteDeferredTargets_true hpromote
    obtain ⟨-, -, hfinish⟩ := bind_ok hfinish
    cases hfinish
    refine ⟨⟨fun hne => absurd hnil hne, fun _ => hreset, fun h => ?_⟩, ?_⟩
    · cases (hvfree.trans hufree).symm.trans h
    · rw [huwaiting, ← hvwaiting]
      rfl
  | false =>
    obtain ⟨rfl, htargets, hdeferred⟩ := promoteDeferredTargets_false hpromote
    obtain ⟨-, -, -, hreset, hfinish⟩ := bind_ok₂ hfinish
    cases hfinish
    refine ⟨⟨fun hne => absurd hdeferred hne, husound.reset, fun _ => ⟨htargets, hdeferred, rfl⟩⟩, huwaiting⟩

end Service

/-- A new target goes behind all others. -/
theorem allocateTarget_spec (h : m.allocateTarget pkt curTick whenReady order alloc_on_fill = .ok m') (hsound : m.Sound)
    (hfree : m.free = false) : m'.Sound ∧ m'.waiting = m.waiting ++ [pkt.ptr] := by
  obtain ⟨-, -, defer, -, -, hdefers, h⟩ := bind_ok₃ h
  unfold defers at hdefers
  cases defer with
  | true =>
    have hservice : m.inService = true := by
      by_contra hout
      rw [if_neg hout] at hdefers
      cases hdefers
    obtain ⟨postInvalidate, replaced, ⟨deferredTargets, after⟩, -, hreplace, hadd, h⟩ := bind_ok₃ h
    cases h
    have hptr : replaced.ptr = pkt.ptr := by
      unfold replaceUpgradeIf at hreplace
      split at hreplace
      · exact (replaceUpgrade_spec hreplace).1
      · cases hreplace
        rfl
    obtain ⟨t, htargets, hpkt, hsource⟩ := targets_add hadd
    have hne : t.source ≠ .FromSnoop := by
      rw [hsource]
      decide
    refine ⟨⟨fun _ => hservice, fun hnil => ?_, fun h => ?_⟩, ?_⟩
    · rw [htargets] at hnil
      exact absurd hnil (append_ne_nil_of_right_ne_nil _ (cons_ne_nil t []))
    · cases hfree.symm.trans h
    · simp only [waiting, htargets, demand_append, demand_cons_of_ne hne, demand_nil, hpkt, hptr, append_assoc]
  | false =>
    have hnil : m.deferredTargets.targets = [] := by
      by_contra hne
      have hfull : (!m.deferredTargets.empty || m.postInvalidate) = true := by
        rw [TargetList.empty, isEmpty_eq_false_iff.mpr hne]
        rfl
      rw [if_pos (hsound.service hne), if_pos hfull] at hdefers
      cases hdefers
    obtain ⟨⟨targets, after⟩, hadd, h⟩ := bind_ok h
    cases h
    obtain ⟨t, htargets, hpkt, hsource⟩ := targets_add hadd
    have hne : t.source ≠ .FromSnoop := by
      rw [hsource]
      decide
    refine ⟨⟨hsound.service, hsound.reset, fun h => ?_⟩, ?_⟩
    · cases hfree.symm.trans h
    · simp only [waiting, htargets, hnil, demand_append, demand_cons_of_ne hne, demand_nil, hpkt, append_nil]

theorem allocate_spec (h : m.allocate pkt curTick whenReady order alloc_on_fill = .ok m') (hsound : m.Sound)
    (hfree : m.free = true) : m'.Sound ∧ m.waiting = [] ∧ m'.waiting = [pkt.ptr] := by
  obtain ⟨htargets, hdeferred, -⟩ := hsound.free hfree
  obtain ⟨-, -, u, -, -, hadd, h⟩ := bind_ok₃ h
  obtain ⟨-, -, h⟩ := bind_ok h
  cases h
  obtain ⟨⟨targets, after⟩, htarget, h⟩ := bind_ok hadd
  cases h
  obtain ⟨t, hlist, hpkt, hsource⟩ := targets_add htarget
  have hne : t.source ≠ .FromSnoop := by
    rw [hsource]
    split <;> decide
  refine ⟨⟨fun hne => absurd hdeferred hne, hsound.reset, fun h => by cases h⟩, ?_, ?_⟩
  · rw [waiting, htargets, hdeferred]
    rfl
  · simp only [waiting, hlist, htargets, hdeferred, nil_append, append_nil, demand_cons_of_ne hne, demand_nil, hpkt]

/-- A step of a run: the state before, the call and the answer. -/
abbrev Entry : Type := MSHR × Call × Answer

/-- The packets that a step adds. -/
def Entry.adds : Entry → List Nat
  | (_, .allocate pkt .., _) => [pkt.ptr]
  | (_, .allocateTarget pkt .., _) => [pkt.ptr]
  | _ => []

/-- The packets that leave in a step, in the order in which they are served. -/
def Entry.leaves : Entry → List Nat
  | (_, _, .served targets) => demand targets
  | _ => []

/-- The packets added in a run, in order. The log has the newest step first. -/
def added (log : List Entry) : List Nat := log.reverse.flatMap Entry.adds

/-- The packets that have left in a run, in order. -/
def left (log : List Entry) : List Nat := log.reverse.flatMap Entry.leaves

theorem added_cons (entry : Entry) (log : List Entry) : added (entry :: log) = added log ++ entry.adds := by
  rw [added, reverse_cons, flatMap_append, flatMap_singleton, added]

theorem left_cons (entry : Entry) (log : List Entry) : left (entry :: log) = left log ++ entry.leaves := by
  rw [left, reverse_cons, flatMap_append, flatMap_singleton, left]

def Call.isResponse : Call → Bool
  | .recvTimingResp .. => true
  | _ => false

/-- What a step does. -/
inductive Step (m m' : MSHR) : Call → Answer → Prop where
  | allocate {pkt : Packet} {curTick when_ready order : Nat} {alloc_on_fill : Bool} (hfree : m.free = true)
      (h : m.allocate pkt curTick when_ready order alloc_on_fill = .ok m') :
      Step m m' (.allocate pkt curTick when_ready order alloc_on_fill) .done
  | allocateTarget {pkt : Packet} {curTick whenReady order : Nat} {alloc_on_fill : Bool} (hfree : m.free = false)
      (h : m.allocateTarget pkt curTick whenReady order alloc_on_fill = .ok m') :
      Step m m' (.allocateTarget pkt curTick whenReady order alloc_on_fill) .done
  | recvTimingResp {cmd : MemCmd} {hasSharers : Bool} {curTick : Nat} {served : List Target} (hfree : m.free = false)
      (h : m.recvTimingResp cmd hasSharers curTick = .ok (served, m')) :
      Step m m' (.recvTimingResp cmd hasSharers curTick) (.served served)
  | edits {c : Call} {answer : Answer} (hfree : m.free = false) (h : Edits m m') (hc : c.isResponse = false)
      (hadds : Entry.adds (m, c, answer) = []) (hleaves : Entry.leaves (m, c, answer) = []) : Step m m' c answer

theorem Step.of_machine (h : machine.step m c = .ok (answer, m')) : Step m m' c answer := by
  cases hfree : m.free with
  | true =>
    simp only [machine, hfree] at h
    cases c with
    | allocate pkt curTick when_ready order alloc_on_fill =>
      obtain ⟨u, hallocate, h⟩ := map_ok h
      cases h
      exact .allocate hfree hallocate
    | _ => cases h
  | false =>
    simp only [machine, hfree] at h
    cases c with
    | allocate => cases h
    | allocateTarget pkt curTick whenReady order alloc_on_fill =>
      obtain ⟨u, hallocate, h⟩ := map_ok h
      cases h
      exact .allocateTarget hfree hallocate
    | handleSnoop pkt curTick order =>
      obtain ⟨result, hsnoop, h⟩ := map_ok h
      cases h
      exact .edits hfree (edits_handleSnoop hsnoop) rfl rfl rfl
    | setForward isForward =>
      cases h
      exact .edits hfree (.of_alters (.refl _) (.refl _) id rfl) rfl rfl rfl
    | markInService pending_modified_resp =>
      obtain ⟨u, hmark, h⟩ := map_ok h
      cases h
      exact .edits hfree (edits_markInService hmark) rfl rfl rfl
    | recvTimingResp cmd hasSharers curTick =>
      obtain ⟨⟨served, u⟩, hresp, h⟩ := map_ok h
      cases h
      exact .recvTimingResp hfree hresp
    | setDownstreamPending =>
      obtain ⟨u, hset, h⟩ := map_ok h
      cases h
      exact .edits hfree (edits_setDownstreamPending hset) rfl rfl rfl
    | clearDownstreamPending =>
      obtain ⟨u, hclear, h⟩ := map_ok h
      cases h
      exact .edits hfree (edits_clearDownstreamPending hclear) rfl rfl rfl
    | setAbove mshr pending =>
      cases h
      exact .edits hfree (.of_alters (.refl _) (.refl _) id rfl) rfl rfl rfl

/-- In each step the packets held before and those added are those that leave and those
held after it, in this order. -/
theorem Sound.step (hsound : m.Sound) (h : machine.step m c = .ok (answer, m')) :
    m'.Sound ∧ m.waiting ++ Entry.adds (m, c, answer) = Entry.leaves (m, c, answer) ++ m'.waiting := by
  cases Step.of_machine h with
  | allocate hfree hallocate =>
    obtain ⟨hsound', hempty, hwaiting⟩ := allocate_spec hallocate hsound hfree
    exact ⟨hsound', by rw [hempty, hwaiting]; rfl⟩
  | allocateTarget hfree hallocate =>
    obtain ⟨hsound', hwaiting⟩ := allocateTarget_spec hallocate hsound hfree
    exact ⟨hsound', hwaiting.symm⟩
  | recvTimingResp hfree hresp =>
    obtain ⟨hsound', hwaiting⟩ := recvTimingResp_spec hresp hsound hfree
    exact ⟨hsound', (append_nil _).trans hwaiting⟩
  | edits hfree hedits _ hadds hleaves =>
    obtain ⟨hsound', -, hwaiting⟩ := hedits.quiet hsound hfree
    exact ⟨hsound', by rw [hadds, hleaves, hwaiting, append_nil, nil_append]⟩

/-- Whatever calls the MSHR has served, the packets added are those that have left
followed by those that it holds, targets are deferred only while it is in service,
and the assertions that it is empty when it is allocated and deallocated hold. -/
theorem run_targets {above : Above} {calls : List Call} {answers : List Answer} {log : List Entry}
    (hrun : machine.logged.run (construct above, []) calls = .ok (answers, m, log)) :
    added log = left log ++ m.waiting ∧ (m.deferredTargets.targets ≠ [] → m.inService = true) ∧
      (m.free = true → m.getNumTargets = 0 ∧ m.targets.isReset = true ∧ m.deferredTargets.isReset = true) ∧
      ∀ cmd hasSharers served u curTick v, m.free = false → m.serve cmd hasSharers = .ok (served, u) →
        u.promoteDeferredTargets curTick = .ok (false, v) → ∃ freed, v.deallocate = .ok freed := by
  have hstart : (construct above).Sound := ⟨fun hne => absurd rfl hne, fun _ => rfl, fun _ => ⟨rfl, rfl, rfl⟩⟩
  obtain ⟨hsound, hkept⟩ : m.Sound ∧ added log = left log ++ m.waiting := by
    refine ((Machine.Reaches.start).run hrun).invariant (I := fun s => s.1.Sound ∧ added s.2 = left s.2 ++ s.1.waiting)
      ⟨hstart, rfl⟩ ?_
    rintro ⟨u, log⟩ c answer after ⟨hsound, hkept⟩ hstep
    obtain ⟨u', hcall, rfl⟩ := Machine.logged_step_eq_ok_iff.mp hstep
    obtain ⟨hsound', hmoved⟩ := hsound.step hcall
    refine ⟨hsound', ?_⟩
    rw [added_cons, hkept, append_assoc, hmoved, left_cons, append_assoc]
  refine ⟨hkept, hsound.service, fun hfree => ?_, fun cmd hasSharers served u curTick v hfree hserve hpromote => ?_⟩
  · obtain ⟨htargets, hdeferred, hreset⟩ := hsound.free hfree
    refine ⟨?_, hreset, hsound.reset hdeferred⟩
    rw [getNumTargets, htargets, hdeferred]
    rfl
  · obtain ⟨husound, -, -⟩ := serve_spec hserve hsound hfree
    exact exists_deallocate husound hpromote

/-- A read misses, a write to the block has to wait, and two responses serve them. -/
theorem run_targets_read_write : ∃ answers m log, machine.logged.run (construct fun _ => false, [])
        [.allocate ⟨1, .ReadSharedReq, false, false, false, false, false, false, false, none⟩ 5 7 0 true,
          .markInService false,
          .allocateTarget ⟨2, .WriteReq, false, false, false, false, false, true, false, none⟩ 9 9 1 true,
          .recvTimingResp .ReadResp true 20, .markInService false] = .ok (answers, m, log) ∧
      left log = [1] ∧ m.waiting = [2] ∧ added log = left log ++ m.waiting := by
  refine ⟨?answers, ?m, ?log, ?run, ?left, ?waiting, (run_targets ?run).1⟩
  case run | left | waiting => rfl

end Gem5.MSHR
