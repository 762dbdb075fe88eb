import Gem5.Lib.Bins
import Gem5.Lib.LinkedList
import Gem5.Sim.EventQueue.Model
import Mathlib.Data.Fintype.Card

open Lib Result Lib.Bins Lib.LinkedList Function List

namespace Gem5.EventQueue

variable {n : Nat}

/-- The queue holds the bins: `nextBin` leads from the head through the tops of the
bins, and `nextInBin` from each top through its bin. Nothing is said of the
`nextBin` of the other events. -/
structure Linked (q : EventQueue n) (bins : List (Fin n × List (Fin n))) : Prop where
  chain : Segment q.nextBin q.head (bins.map Prod.fst) none
  inBin : ∀ b ∈ bins, Segment q.nextInBin (some b.1) (b.1 :: b.2) none

/-- What no operation on the lists changes. -/
structure SameEvents (q q' : EventQueue n) : Prop where
  when : q'.when = q.when
  priority : q'.priority = q.priority
  scheduled : q'.scheduled = q.scheduled

theorem SameEvents.key (h : SameEvents q q') : q'.key = q.key := by
  funext event
  rw [EventQueue.key, EventQueue.key, h.when, h.priority]

variable {q : EventQueue n} {event : Fin n}

theorem length_le_of_nodup {nodes : List (Fin n)} (h : nodes.Nodup) : nodes.length ≤ n := by
  simpa using h.length_le_card

/-- The loop over the bins stops at the first bin that is not before the event. -/
theorem findBin_eq {before after : List (Fin n)} {prev : Fin n} (hlinks : Segment q.nextBin curr (before ++ after) none)
    (hfuel : before.length < fuel) (hbefore : ∀ node ∈ before, q.lt node event = true)
    (hafter : ∀ node ∈ after, q.lt node event = false) :
    q.findBin event fuel prev curr = .ok (before.getLastD prev, after.head?) := by
  induction before generalizing fuel prev curr with
  | nil =>
    rw [hlinks.start_eq]
    cases after with
    | nil => simp [findBin]
    | cons node after =>
      have hnode := hafter node mem_cons_self
      cases fuel with
      | zero => cases hfuel
      | succ fuel => simp [findBin, hnode]
  | cons node before ih =>
    obtain ⟨rfl, hrest⟩ := hlinks
    cases fuel with
    | zero => cases hfuel
    | succ fuel =>
      rw [findBin, if_pos (hbefore node mem_cons_self), getLastD_cons]
      exact ih hrest (Nat.lt_of_succ_lt_succ hfuel) fun other hmem => hbefore other (mem_cons_of_mem node hmem)

/-- The bins in front of the event are those with a lesser key. -/
theorem findBin_split {before after : List (Fin n × List (Fin n))}
    (hchain : Segment q.nextBin q.head ((first :: before).map Prod.fst ++ after.map Prod.fst) none)
    (hnodup : ((first :: before).map Prod.fst).Nodup) (hbefore : ∀ b ∈ first :: before, q.key b.1 < q.key event)
    (hafter : ∀ b ∈ after, q.key event ≤ q.key b.1) : q.findBin event n first.1 (q.nextBin first.1) =
      .ok ((before.map Prod.fst).getLastD first.1, (after.map Prod.fst).head?) := by
  apply findBin_eq hchain.2
  · have hlength := length_le_of_nodup hnodup
    rw [map_cons, length_cons] at hlength
    omega
  · exact forall_mem_map.mpr fun b hb => lt_iff.mpr (hbefore b (mem_cons_of_mem first hb))
  · refine forall_mem_map.mpr fun b hb => ?_
    rw [Bool.eq_false_iff, ne_eq, lt_iff, not_lt]
    exact hafter b hb

/-- The loop in a bin stops in front of the event. -/
theorem findInBin_eq {before after : List (Fin n)} {next : Option (Fin n)}
    (hlinks : Segment q.nextInBin next (before ++ event :: after) none)
    (hfuel : before.length ≤ fuel) (hbefore : event ∉ before) :
    q.findInBin event fuel curr next = .ok (before.getLastD curr) := by
  induction before generalizing fuel curr next with
  | nil =>
    obtain ⟨rfl, -⟩ := hlinks
    cases fuel <;> simp [findInBin]
  | cons node before ih =>
    obtain ⟨rfl, hrest⟩ := hlinks
    obtain ⟨hne, hbefore⟩ := not_or.mp (mem_cons.not.mp hbefore)
    cases fuel with
    | zero => cases hfuel
    | succ fuel =>
      rw [findInBin, if_neg hne, getLastD_cons]
      exact ih hrest (Nat.le_of_succ_le_succ hfuel) hbefore

/-- The event becomes the top of a bin in front of `after`, its own or the first. -/
theorem insertBefore_spec {after : List (Fin n × List (Fin n))}
    (hchain : Segment q.nextBin (after.map Prod.fst).head? (after.map Prod.fst) none)
    (hinBin : ∀ b ∈ after, Segment q.nextInBin (some b.1) (b.1 :: b.2) none) (hnew : ∀ b ∈ after, event ∉ b.1 :: b.2) :
    Segment (q.insertBefore event (after.map Prod.fst).head?).nextBin (some event)
        ((pushFront q.key event after).map Prod.fst) none ∧ (∀ b ∈ pushFront q.key event after,
        Segment (q.insertBefore event (after.map Prod.fst).head?).nextInBin (some b.1) (b.1 :: b.2) none) ∧
      (∀ other ≠ event, (q.insertBefore event (after.map Prod.fst).head?).nextBin other = q.nextBin other ∧
          (q.insertBefore event (after.map Prod.fst).head?).nextInBin other = q.nextInBin other) ∧
      SameEvents q (q.insertBefore event (after.map Prod.fst).head?) ∧
      (q.insertBefore event (after.map Prod.fst).head?).head = q.head := by
  have hframe : ∀ target, ∀ b ∈ after,
      Segment (update q.nextInBin event target) (some b.1) (b.1 :: b.2) none :=
    fun target b hb => (hinBin b hb).update (hnew b hb) target
  have hothers : ∀ (next : Fin n → Option (Fin n)) target, ∀ other ≠ event,
      update next event target other = next other :=
    fun next target other hne => update_of_ne hne ..
  have hnil : ∀ next : Fin n → Option (Fin n), Segment (update next event none) (some event) [event] none :=
    fun next => have hempty : Segment next none [] none := rfl
      hempty.push not_mem_nil
  cases after with
  | nil =>
    refine ⟨hnil q.nextBin, ?_, fun other hne => ⟨hothers _ _ other hne, hothers _ _ other hne⟩, ⟨rfl, rfl, rfl⟩, rfl⟩
    intro b hb
    obtain rfl := mem_singleton.mp hb
    exact hnil q.nextInBin
  | cons b after =>
    have htops : event ∉ (b :: after).map Prod.fst := by
      intro hmem
      obtain ⟨c, hc, rfl⟩ := mem_map.mp hmem
      exact hnew c hc mem_cons_self
    simp only [map_cons, head?_cons, insertBefore]
    cases hlt : q.lt event b.1 with
    | true =>
      rw [pushFront, if_pos (lt_iff.mp hlt), if_pos rfl]
      refine ⟨hchain.push htops, ?_, fun other hne => ⟨hothers _ _ other hne, hothers _ _ other hne⟩,
        ⟨rfl, rfl, rfl⟩, rfl⟩
      exact forall_mem_cons.mpr ⟨hnil q.nextInBin, hframe none⟩
    | false =>
      have hkey : ¬ q.key event < q.key b.1 := by
        rw [← lt_iff, hlt]
        exact Bool.false_ne_true
      rw [pushFront, if_neg hkey, if_neg Bool.false_ne_true]
      refine ⟨hchain.2.push (fun hmem => htops (mem_cons_of_mem _ hmem)), ?_,
        fun other hne => ⟨hothers _ _ other hne, hothers _ _ other hne⟩, ⟨rfl, rfl, rfl⟩, rfl⟩
      exact forall_mem_cons.mpr ⟨(hinBin b mem_cons_self).push (hnew b mem_cons_self), fun c hc =>
        hframe (some b.1) c (mem_cons_of_mem b hc)⟩

theorem insert_spec {before after : List (Fin n × List (Fin n))} (hlinked : Linked q (before ++ after))
    (hnodup : ((before ++ after).map Prod.fst).Nodup) (hbefore : ∀ b ∈ before, q.key b.1 < q.key event)
    (hafter : ∀ b ∈ after, q.key event ≤ q.key b.1) (hnew : ∀ b ∈ before ++ after, event ∉ b.1 :: b.2) :
    ∃ q', q.insert event = .ok q' ∧ Linked q' (before ++ pushFront q.key event after) ∧ SameEvents q q' := by
  obtain ⟨hchain, hinBin⟩ := hlinked
  rw [map_append] at hchain hnodup
  obtain ⟨curr, hchainBefore, hchainAfter⟩ := segment_append_iff.mp hchain
  obtain rfl := hchainAfter.start_eq
  obtain ⟨hfront, hfrontInBin, hothers, hsame, hhead⟩ := insertBefore_spec hchainAfter
    (fun b hb => hinBin b (mem_append_right _ hb)) (fun b hb => hnew b (mem_append_right _ hb))
  cases before with
  | nil =>
    refine ⟨{ q.insertBefore event (after.map Prod.fst).head? with head := some event }, ?_, ⟨hfront, hfrontInBin⟩,
      { hsame with }⟩
    have hstart : q.head = (after.map Prod.fst).head? := hchainBefore
    cases after with
    | nil => simp [insert, hstart]
    | cons b after =>
      have hle : q.le event b.1 = true := le_iff.mpr (hafter b mem_cons_self)
      simp [insert, hstart, hle]
  | cons first before =>
    obtain ⟨hnodupBefore, -, hapart⟩ := nodup_append.mp hnodup
    have hstart : q.head = some first.1 := hchainBefore.1
    have hle : q.le event first.1 = false := by
      rw [Bool.eq_false_iff, ne_eq, le_iff, not_le]
      exact hbefore first mem_cons_self
    obtain ⟨prev, hprev⟩ : ∃ prev, prev = (before.map Prod.fst).getLastD first.1 := ⟨_, rfl⟩
    have hfind := findBin_split hchain hnodupBefore hbefore hafter
    rw [← hprev] at hfind
    have hne : ∀ b ∈ first :: before, event ∉ b.1 :: b.2 := fun b hb => hnew b (mem_append_left _ hb)
    -- The event is linked behind the last of the bins before it.
    refine ⟨{ q.insertBefore event (after.map Prod.fst).head? with
        nextBin := update (q.insertBefore event (after.map Prod.fst).head?).nextBin prev (some event) },
      ?_, ⟨?_, ?_⟩, { hsame with }⟩
    · simp [insert, hstart, hle, hfind, bind_of_ok rfl]
    · rw [map_append, hprev]
      refine hhead ▸ hchainBefore.relink hnodupBefore (fun node hnode => ?_) hfront fun node hnode hmem => ?_ <;>
        obtain ⟨b, hb, rfl⟩ := (mem_map (l := first :: before)).mp hnode
      · refine (hothers b.1 ?_).1
        rintro rfl
        exact hne b hb mem_cons_self
      · obtain ⟨c, hc, heq⟩ := mem_map.mp hmem
        rcases fst_of_mem_pushFront hc with hevent | hc
        · exact hne b hb (by simp [← heq, hevent])
        · exact hapart b.1 (mem_map_of_mem hb) c.1 (mem_map_of_mem hc) heq.symm
    · intro b hb
      rcases mem_append.mp hb with hold | hfrontMem
      · refine (hinBin b (mem_append_left _ hold)).congr ?_
        intro node hnode
        refine (hothers node ?_).2
        rintro rfl
        exact hne b hold hnode
      · exact hfrontInBin b hfrontMem

/-- The event is taken out of its bin. A new top gets the `nextBin` of the old one. -/
theorem removeItem_spec {b : Fin n × List (Fin n)} {after : List (Fin n × List (Fin n))}
    (hchain : Segment q.nextBin (some b.1) (b.1 :: after.map Prod.fst) none)
    (hinBin : Segment q.nextInBin (some b.1) (b.1 :: b.2) none) (hnodup : (b.1 :: b.2).Nodup)
    (hapart : ∀ node ∈ b.1 :: b.2, node ∉ after.map Prod.fst) (hmem : event ∈ b.1 :: b.2) :
    ∃ top q', q.removeItem event b.1 = .ok (top, q') ∧
      Segment q'.nextBin top ((ofStack ((b.1 :: b.2).erase event)).map Prod.fst ++ after.map Prod.fst) none ∧
      (∀ c ∈ ofStack ((b.1 :: b.2).erase event), Segment q'.nextInBin (some c.1) (c.1 :: c.2) none) ∧
      (∀ other ∉ b.1 :: b.2, q'.nextBin other = q.nextBin other ∧ q'.nextInBin other = q.nextInBin other) ∧
      SameEvents q q' ∧ q'.head = q.head := by
  obtain ⟨top, rest⟩ := b
  by_cases heq : event = top
  · subst heq
    rw [erase_cons_head]
    cases rest with
    | nil =>
      have hnext : q.nextInBin event = none := hinBin.2
      refine ⟨q.nextBin event, q, by simp [removeItem, hnext], hchain.2, ?_, fun _ _ => ⟨rfl, rfl⟩,
        ⟨rfl, rfl, rfl⟩, rfl⟩
      intro c hc
      cases hc
    | cons next rest =>
      have hnext : q.nextInBin event = some next := hinBin.2.1
      refine ⟨some next, { q with nextBin := update q.nextBin next (q.nextBin event) },
        by simp [removeItem, hnext], hchain.2.push (hapart next (by simp)), ?_, ?_, ⟨rfl, rfl, rfl⟩, rfl⟩
      · intro c hc
        obtain rfl := mem_singleton.mp hc
        exact hnext ▸ hinBin.2
      · intro other hother
        refine ⟨update_of_ne ?_ .., rfl⟩
        rintro rfl
        exact hother (by simp)
  · have hrest : event ∈ rest := (mem_cons.mp hmem).resolve_left heq
    obtain ⟨before, later, rfl⟩ := append_of_mem hrest
    have hnot : event ∉ before := by
      intro hbefore
      have hdisjoint := (nodup_append.mp (nodup_cons.mp hnodup).2).2.2
      exact hdisjoint event hbefore event mem_cons_self rfl
    have herase : (top :: (before ++ event :: later)).erase event = top :: (before ++ later) := by
      rw [erase_cons_tail (by simpa using Ne.symm heq), erase_append_right _ hnot, erase_cons_head]
    have hfind : q.findInBin event n top (q.nextInBin top) = .ok (before.getLastD top) := by
      apply findInBin_eq hinBin.2 _ hnot
      have hlength := length_le_of_nodup hnodup
      simp only [length_cons, length_append] at hlength
      omega
    rw [herase]
    refine ⟨some top, { q with nextInBin := update q.nextInBin (before.getLastD top) (q.nextInBin event) },
      by simp [removeItem, heq, hfind, bind_of_ok rfl], hchain, ?_, ?_, ⟨rfl, rfl, rfl⟩, rfl⟩
    · intro c hc
      obtain rfl := mem_singleton.mp hc
      rw [← cons_append] at hinBin hnodup
      obtain ⟨middle, hbefore, rfl, hlater⟩ := segment_append_iff.mp hinBin
      obtain ⟨hnodupBefore, -, hdisjoint⟩ := nodup_append.mp hnodup
      exact hbefore.relink hnodupBefore (fun _ _ => rfl) hlater fun node hnode hmem =>
        hdisjoint node hnode node (mem_cons_of_mem event hmem) rfl
    · intro other hother
      refine ⟨rfl, update_of_ne ?_ ..⟩
      rintro rfl
      rw [← cons_append] at hother
      exact hother (mem_append_left _ (getLastD_mem ..))

theorem remove_spec {before after : List (Fin n × List (Fin n))} {b : Fin n × List (Fin n)}
    (hlinked : Linked q (before ++ b :: after)) (htops : ((before ++ b :: after).map Prod.fst).Nodup)
    (hbefore : ∀ c ∈ before, q.key c.1 < q.key event) (hkey : q.key b.1 = q.key event)
    (hafter : ∀ c ∈ after, q.key event < q.key c.1) (hnodup : (b.1 :: b.2).Nodup)
    (hapart : ∀ c ∈ before ++ after, ∀ node ∈ b.1 :: b.2, node ∉ c.1 :: c.2) (hmem : event ∈ b.1 :: b.2) :
    ∃ q', q.remove event = .ok q' ∧ Linked q' (before ++ ofStack ((b.1 :: b.2).erase event) ++ after) ∧
      SameEvents q q' := by
  obtain ⟨hchain, hinBin⟩ := hlinked
  rw [map_append, map_cons] at hchain htops
  obtain ⟨curr, hchainBefore, hchainAfter⟩ := segment_append_iff.mp hchain
  obtain rfl : curr = some b.1 := hchainAfter.1
  have hapartAfter : ∀ node ∈ b.1 :: b.2, node ∉ after.map Prod.fst := by
    intro node hnode hin
    obtain ⟨c, hc, rfl⟩ := mem_map.mp hin
    exact hapart c (mem_append_right _ hc) c.1 hnode mem_cons_self
  obtain ⟨top, q₁, hitem, hrest, hrestInBin, hothers, hsame, hhead⟩ :=
    removeItem_spec hchainAfter (hinBin b (by simp)) hnodup hapartAfter hmem
  -- The other bins are not touched.
  have hkept : ∀ c ∈ before ++ after, Segment q₁.nextInBin (some c.1) (c.1 :: c.2) none := by
    intro c hc
    refine (hinBin c (((sublist_cons_self b after).append_left before).subset hc)).congr ?_
    intro node hnode
    exact (hothers node fun hb => hapart c hc node hb hnode).2
  have hallInBin : ∀ c ∈ before ++ ofStack ((b.1 :: b.2).erase event) ++ after,
      Segment q₁.nextInBin (some c.1) (c.1 :: c.2) none := by
    intro c hc
    rcases mem_append.mp hc with hc | hc
    · rcases mem_append.mp hc with hc | hc
      · exact hkept c (mem_append_left _ hc)
      · exact hrestInBin c hc
    · exact hkept c (mem_append_right _ hc)
  have heq : q.eq b.1 event = true := eq_iff.mpr hkey
  cases before with
  | nil =>
    have hstart : q.head = some b.1 := hchainBefore
    refine ⟨{ q₁ with head := top }, by simp [remove, hstart, heq, hitem, bind_of_ok rfl], ⟨?_, hallInBin⟩,
      { hsame with }⟩
    rw [nil_append, map_append]
    exact hrest
  | cons first before =>
    obtain ⟨htopsBefore, -, hcross⟩ := nodup_append.mp htops
    have hstart : q.head = some first.1 := hchainBefore.1
    have hne : q.eq first.1 event = false := by
      rw [Bool.eq_false_iff, ne_eq, eq_iff]
      exact ne_of_lt (hbefore first mem_cons_self)
    obtain ⟨prev, hprev⟩ : ∃ prev, prev = (before.map Prod.fst).getLastD first.1 := ⟨_, rfl⟩
    have hge : ∀ c ∈ b :: after, q.key event ≤ q.key c.1 :=
      forall_mem_cons.mpr ⟨hkey.ge, fun c hc => (hafter c hc).le⟩
    have hfind := findBin_split hchain htopsBefore hbefore hge
    rw [← hprev] at hfind
    have hinBefore : ∀ c ∈ first :: before, c.1 ∉ b.1 :: b.2 := fun c hc hb =>
      hapart c (mem_append_left _ hc) c.1 hb mem_cons_self
    refine ⟨{ q₁ with nextBin := update q₁.nextBin prev top },
      by simp [remove, hstart, hne, hfind, heq, hitem, bind_of_ok rfl], ⟨?_, hallInBin⟩,
      { hsame with }⟩
    rw [append_assoc, map_append, map_append, hprev]
    refine hhead ▸ hchainBefore.relink htopsBefore (fun node hnode => ?_) hrest fun node hnode hmem => ?_ <;>
      obtain ⟨c, hc, rfl⟩ := (mem_map (l := first :: before)).mp hnode
    · exact (hothers c.1 (hinBefore c hc)).1
    rcases mem_append.mp hmem with hmem | hmem
    · rw [map_fst_ofStack, Option.mem_toList] at hmem
      exact hinBefore c hc (mem_of_mem_erase (mem_of_mem_head? hmem))
    · exact hcross c.1 (mem_map_of_mem hc) c.1 (mem_cons_of_mem _ hmem) rfl

/-- Servicing the head is removing it. -/
theorem serviceOne_of_remove (hhead : q.head = some event) (hremove : q.remove event = .ok q') :
    q.serviceOne = .ok (event, { q' with scheduled := update q'.scheduled event false }) := by
  have heq : q.eq event event = true := eq_iff.mpr rfl
  simp only [remove, hhead, heq, if_true, removeItem] at hremove
  cases hnext : q.nextInBin event with
  | none =>
    rw [hnext] at hremove
    cases hremove
    simp [serviceOne, hhead, hnext]
  | some next =>
    rw [hnext] at hremove
    cases hremove
    simp [serviceOne, hhead, hnext]

end Gem5.EventQueue
