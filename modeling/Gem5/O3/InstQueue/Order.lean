import Gem5.O3.InstQueue.Model

open Lib Result List
open Function (update update_self update_of_ne update_eq_self)

namespace Gem5.O3.InstQueue

variable {pq : PriorityQueue IQInst IQInst.seqNum} {F : Type}

/-- The class of each entry of the order list. -/
def classes (nodes : List (Nat × ListOrderEntry)) : List OpClass := nodes.map fun node => node.2.queueType

/-- A class is on the order list as its ready list demands. -/
structure Listed (s : InstQueue pq F) (c : OpClass) : Prop where
  off : pq.top (s.readyInsts c) = none → s.queueOnList c = false ∧ c ∉ classes s.listOrder.nodes
  on : ∀ top, pq.top (s.readyInsts c) = some top →
    s.queueOnList c = true ∧ ∃ it, s.readyIt c = some it ∧ (it, ⟨c, top.seqNum⟩) ∈ s.listOrder.nodes

/-- The order list is sorted and has one entry for each class that is ready. -/
structure Consistent (s : InstQueue pq F) : Prop where
  sorted : s.listOrder.nodes.Pairwise fun a b => a.2.oldestInst ≤ b.2.oldestInst
  distinct : (classes s.listOrder.nodes).Nodup
  listed : ∀ c, s.Listed c
  opClass : ∀ c, ∀ inst ∈ pq.items (s.readyInsts c), inst.opClass = c

/-- The invariant while the class `c` is not on the order list but should be. -/
structure ConsistentBut (s : InstQueue pq F) (c : OpClass) : Prop where
  sorted : s.listOrder.nodes.Pairwise fun a b => a.2.oldestInst ≤ b.2.oldestInst
  distinct : (classes s.listOrder.nodes).Nodup
  listed : ∀ other, other ≠ c → s.Listed other
  absent : c ∉ classes s.listOrder.nodes
  opClass : ∀ c, ∀ inst ∈ pq.items (s.readyInsts c), inst.opClass = c

/-- What the changes of the order list leave as it is. -/
structure SameReady (s s' : InstQueue pq F) : Prop where
  readyInsts : s'.readyInsts = s.readyInsts
  deferredMemInsts : s'.deferredMemInsts = s.deferredMemInsts
  retryMemInsts : s'.retryMemInsts = s.retryMemInsts

theorem Consistent.construct (pq : PriorityQueue IQInst IQInst.seqNum) (fuPool : F) (numEntries : Unsigned) :
    (construct pq fuPool numEntries).Consistent := by
  constructor
  · exact .nil
  · exact .nil
  · intro c
    constructor
    · intro
      exact ⟨rfl, not_mem_nil⟩
    · intro top htop
      rw [InstQueue.construct, pq.top_empty] at htop
      cases htop
  · intro c inst hmem
    rw [InstQueue.construct, pq.items_empty] at hmem
    cases hmem

variable {s s' : InstQueue pq F} {c : OpClass} {top : IQInst} {it : Nat}
  {pre post : List (Nat × ListOrderEntry)}

theorem Listed.of_top (htop : pq.top (s.readyInsts c) = some top) (hon : s.queueOnList c = true)
    (hit : s.readyIt c = some it) (hmem : (it, ⟨c, top.seqNum⟩) ∈ s.listOrder.nodes) : s.Listed c := by
  constructor
  · intro hnone
    cases htop.symm.trans hnone
  · intro found hfound
    cases htop.symm.trans hfound
    exact ⟨hon, it, hit, hmem⟩

/-- Only the entries of the class itself matter. -/
theorem Listed.of_eq (h : s.Listed c) (hready : s'.readyInsts c = s.readyInsts c)
    (hon : s'.queueOnList c = s.queueOnList c) (hit : s'.readyIt c = s.readyIt c)
    (hnodes : ∀ node : Nat × ListOrderEntry, node.2.queueType = c →
      (node ∈ s'.listOrder.nodes ↔ node ∈ s.listOrder.nodes)) : s'.Listed c := by
  have hclass : c ∈ classes s'.listOrder.nodes ↔ c ∈ classes s.listOrder.nodes := by
    simp only [classes, mem_map]
    exact exists_congr fun node => and_congr_left (hnodes node)
  constructor
  · rw [hready, hon, hclass]
    exact h.off
  · rw [hready, hon, hit]
    intro top htop
    obtain ⟨honlist, it, hit, hmem⟩ := h.on top htop
    exact ⟨honlist, it, hit, (hnodes _ rfl).mpr hmem⟩

/-- The class gets its entry at a place where the list stays sorted. -/
theorem ConsistentBut.insert (hs : s.ConsistentBut c) (htop : pq.top (s.readyInsts c) = some top)
    (hnodes : s.listOrder.nodes = pre ++ post) (hpre : ∀ node ∈ pre, node.2.oldestInst ≤ top.seqNum)
    (hpost : ∀ node ∈ post, top.seqNum ≤ node.2.oldestInst)
    (hnodes' : s'.listOrder.nodes = pre ++ (it, ⟨c, top.seqNum⟩) :: post) (hready : s'.readyInsts = s.readyInsts)
    (hit : s'.readyIt = update s.readyIt c (some it))
    (hon : s'.queueOnList = update s.queueOnList c true) : s'.Consistent := by
  obtain ⟨hsorted, hdistinct, hlisted, habsent, hclass⟩ := hs
  rw [hnodes] at hsorted hdistinct habsent
  have hmem : ∀ node, node ∈ s'.listOrder.nodes ↔ node = (it, ⟨c, top.seqNum⟩) ∨ node ∈ s.listOrder.nodes := by
    intro node
    rw [hnodes', hnodes, mem_append, mem_cons, mem_append, or_left_comm]
  constructor
  · obtain ⟨hbefore, hafter, hcross⟩ := pairwise_append.mp hsorted
    rw [hnodes', pairwise_append, pairwise_cons]
    exact ⟨hbefore, ⟨hpost, hafter⟩, fun a ha => forall_mem_cons.mpr ⟨hpre a ha, hcross a ha⟩⟩
  · rw [hnodes', classes, map_append, map_cons, nodup_middle, ← map_append]
    exact nodup_cons.mpr ⟨habsent, hdistinct⟩
  · intro other
    by_cases hother : other = c
    · rw [hother]
      exact .of_top (hready ▸ htop) (by rw [hon, update_self]) (by rw [hit, update_self]) ((hmem _).mpr (.inl rfl))
    · refine (hlisted other hother).of_eq (by rw [hready]) (by rw [hon, update_of_ne hother])
        (by rw [hit, update_of_ne hother]) fun node hnode => ?_
      rw [hmem, or_iff_right]
      rintro rfl
      exact hother hnode.symm
  · rw [hready]
    exact hclass

/-- The entry of the class is taken away. -/
theorem Consistent.erase (hs : s.Consistent) (hc : node.2.queueType = c)
    (hnodes : s.listOrder.nodes = pre ++ node :: post) (hnodes' : s'.listOrder.nodes = pre ++ post)
    (hready : ∀ other, other ≠ c → s'.readyInsts other = s.readyInsts other)
    (hit : ∀ other, other ≠ c → s'.readyIt other = s.readyIt other)
    (hon : ∀ other, other ≠ c → s'.queueOnList other = s.queueOnList other)
    (hclass : ∀ inst ∈ pq.items (s'.readyInsts c), inst.opClass = c) : s'.ConsistentBut c := by
  obtain ⟨hsorted, hdistinct, hlisted, hopClass⟩ := hs
  have hsub : (pre ++ post).Sublist (pre ++ node :: post) := (List.Sublist.refl pre).append (sublist_cons_self ..)
  rw [hnodes] at hsorted hdistinct
  constructor
  · rw [hnodes']
    exact hsorted.sublist hsub
  · rw [hnodes']
    exact hdistinct.sublist (hsub.map _)
  · intro other hother
    refine (hlisted other).of_eq (hready other hother) (hon other hother) (hit other hother) fun other' hclass => ?_
    -- Another class has another entry.
    have hne : other' ≠ node := by
      rintro rfl
      exact hother (hclass.symm.trans hc)
    rw [hnodes', hnodes]
    simp [hne]
  · rw [hnodes', classes, map_append]
    rw [classes, map_append, map_cons, nodup_middle, nodup_cons, hc] at hdistinct
    exact hdistinct.1
  · intro other
    by_cases hother : other = c
    · rw [hother]
      exact hclass
    · rw [hready other hother]
      exact hopClass other

theorem addToOrderList_spec (hs : s.ConsistentBut c) (htop : pq.top (s.readyInsts c) = some top) :
    ∃ s', s.addToOrderList c = .ok s' ∧ s'.Consistent ∧ SameReady s s' := by
  have hat := (NodeList.At.begin_ s.listOrder).find fun entry => entry.oldestInst > top.seqNum
  obtain ⟨l', hinsert, hnodes'⟩ := hat.insert ⟨c, top.seqNum⟩
  refine ⟨{ s with
    listOrder := l'
    readyIt := update s.readyIt c (some s.listOrder.next)
    queueOnList := update s.queueOnList c true }, ?_,
    hs.insert htop hat.nodes ?_ ?_ hnodes' rfl rfl rfl, rfl, rfl, rfl⟩
  · rw [addToOrderList, htop]
    exact bind_of_ok hinsert _
  · intro node hmem
    rw [nil_append] at hmem
    simpa using mem_takeWhile_imp hmem
  · intro node hmem
    have hnot := not_of_mem_dropWhile (hs.sorted.imp fun {a b} hle h => ?_) hmem
    · exact Nat.le_of_lt (by simpa using hnot)
    · simp only [Bool.not_eq_true', decide_eq_false_iff_not, Nat.not_lt] at h ⊢
      exact Nat.le_trans hle h

@[simp] theorem readyInsts_setReady_self (s : InstQueue pq F) (c : OpClass) (queue : pq.Queue) :
    (s.setReady c queue).readyInsts c = queue := update_self ..

theorem readyInsts_setReady_of_ne (s : InstQueue pq F) (h : other ≠ c) (queue : pq.Queue) :
    (s.setReady c queue).readyInsts other = s.readyInsts other := update_of_ne h ..

@[simp] theorem listOrder_setReady (s : InstQueue pq F) (c : OpClass) (queue : pq.Queue) :
    (s.setReady c queue).listOrder = s.listOrder := rfl

@[simp] theorem queueOnList_setReady (s : InstQueue pq F) (c : OpClass) (queue : pq.Queue) :
    (s.setReady c queue).queueOnList = s.queueOnList := rfl

@[simp] theorem readyIt_setReady (s : InstQueue pq F) (c : OpClass) (queue : pq.Queue) :
    (s.setReady c queue).readyIt = s.readyIt := rfl

theorem Listed.setReady (h : s.Listed other) (hother : other ≠ c) (queue : pq.Queue) :
    (s.setReady c queue).Listed other :=
  h.of_eq (s.readyInsts_setReady_of_ne hother queue) rfl rfl fun _ _ => Iff.rfl

theorem opClass_setReady (h : ∀ c, ∀ inst ∈ pq.items (s.readyInsts c), inst.opClass = c)
    (hqueue : ∀ inst ∈ pq.items queue, inst.opClass = c) :
    ∀ other, ∀ inst ∈ pq.items ((s.setReady c queue).readyInsts other), inst.opClass = other := by
  intro other
  by_cases hother : other = c
  · rw [hother, readyInsts_setReady_self]
    exact hqueue
  · rw [s.readyInsts_setReady_of_ne hother]
    exact h other

theorem Consistent.setReady_erase (hs : s.Consistent) (hnodes : s.listOrder.nodes = pre ++ node :: post)
    (hnodes' : l'.nodes = pre ++ post) (hclass : ∀ inst ∈ pq.items queue, inst.opClass = node.2.queueType) :
    ({ s.setReady node.2.queueType queue with listOrder := l' } : InstQueue pq F).ConsistentBut node.2.queueType := by
  apply hs.erase rfl hnodes hnodes'
  · intro other hother
    exact s.readyInsts_setReady_of_ne hother queue
  · exact fun _ _ => rfl
  · exact fun _ _ => rfl
  · rwa [← s.readyInsts_setReady_self node.2.queueType queue] at hclass

theorem addReady_spec (hs : s.Consistent) (inst : IQInst) :
    ∃ s', s.addReady inst = .ok s' ∧ s'.Consistent ∧ s'.deferredMemInsts = s.deferredMemInsts ∧
      s'.retryMemInsts = s.retryMemInsts := by
  obtain ⟨top, htop, hkey⟩ := Option.map_eq_some_iff.mp (pq.least_push (s.readyInsts inst.opClass) inst)
  obtain ⟨queue, hqueue⟩ : ∃ queue, queue = pq.push (s.readyInsts inst.opClass) inst := ⟨_, rfl⟩
  have hclass : ∀ other ∈ pq.items queue, other.opClass = inst.opClass := by
    intro other hmem
    rw [hqueue, (pq.items_push _ _).mem_iff, mem_cons] at hmem
    cases hmem with
    | inl heq => rw [heq]
    | inr hmem => exact hs.opClass _ _ hmem
  rw [← hqueue] at htop
  simp only [addReady, ← hqueue, queueOnList_setReady, readyInsts_setReady_self, readyIt_setReady,
    listOrder_setReady, htop]
  cases hold : pq.top (s.readyInsts inst.opClass) with
  | none =>
    obtain ⟨hoff, habsent⟩ := (hs.listed inst.opClass).off hold
    have hbut : (s.setReady inst.opClass queue).ConsistentBut inst.opClass :=
      ⟨hs.sorted, hs.distinct, fun other hother => (hs.listed other).setReady hother queue, habsent,
        opClass_setReady hs.opClass hclass⟩
    obtain ⟨s', hadd, hs', hsame⟩ := addToOrderList_spec hbut (by rw [readyInsts_setReady_self, htop])
    refine ⟨s', ?_, hs', hsame.deferredMemInsts, hsame.retryMemInsts⟩
    simpa only [hoff, Bool.not_false, if_true] using hadd
  | some old =>
    obtain ⟨hon, it, hit, hmem⟩ := (hs.listed inst.opClass).on old hold
    have hmin : top.seqNum = min inst.seqNum old.seqNum := by
      rw [hkey, PriorityQueue.least, hold]
      rfl
    obtain ⟨pre, post, hnodes⟩ := append_of_mem hmem
    have hat : s.listOrder.At (some it) pre ((it, ⟨inst.opClass, old.seqNum⟩) :: post) := ⟨hnodes, rfl⟩
    simp only [hon, hit, Bool.not_true, Bool.false_eq_true, if_false, bind_of_ok hat.get]
    by_cases hlt : top.seqNum < old.seqNum
    · -- The class has an older instruction than before: its entry moves.
      obtain ⟨l', herase, hnodes'⟩ := hat.erase
      obtain ⟨s', hadd, hs', hsame⟩ := addToOrderList_spec (hs.setReady_erase hnodes hnodes' hclass)
        ((congrArg pq.top (s.readyInsts_setReady_self _ queue)).trans htop)
      refine ⟨s', ?_, hs', hsame.deferredMemInsts, hsame.retryMemInsts⟩
      rw [if_pos hlt, bind_of_ok herase]
      exact hadd
    · have hsame : top.seqNum = old.seqNum := by
        have hle : top.seqNum ≤ old.seqNum := hmin ▸ Nat.min_le_right _ _
        exact Nat.le_antisymm hle (Nat.not_lt.mp hlt)
      refine ⟨s.setReady inst.opClass queue, if_neg hlt, ?_, rfl, rfl⟩
      refine ⟨hs.sorted, hs.distinct, ?_, opClass_setReady hs.opClass hclass⟩
      intro other
      by_cases hother : other = inst.opClass
      · rw [hother]
        exact .of_top ((congrArg pq.top (s.readyInsts_setReady_self _ queue)).trans htop) hon hit (hsame ▸ hmem)
      · exact (hs.listed other).setReady hother queue

variable {entry : ListOrderEntry}

theorem moveToYoungerInst_eq (hat : s.listOrder.At (some it) pre ((it, entry) :: post))
    (htop : pq.top (s.readyInsts entry.queueType) = some top) :
    ∃ l', s.moveToYoungerInst it = .ok { s with
        listOrder := l'
        readyIt := update s.readyIt entry.queueType (some s.listOrder.next) } ∧
      l'.nodes = pre ++ (it, entry) :: (post.takeWhile (fun node => node.2.oldestInst < top.seqNum) ++
        (s.listOrder.next, ⟨entry.queueType, top.seqNum⟩) ::
          post.dropWhile (fun node => node.2.oldestInst < top.seqNum)) := by
  have hfind := hat.next.find fun entry => !decide (entry.oldestInst < top.seqNum)
  simp only [Bool.not_not] at hfind
  obtain ⟨l', hinsert, hnodes'⟩ := hfind.insert ⟨entry.queueType, top.seqNum⟩
  refine ⟨l', ?_, ?_⟩
  · rw [moveToYoungerInst, bind_of_ok hat.get, bind_of_ok hat.succ, htop]
    exact bind_of_ok hinsert _
  · rw [hnodes']
    simp

theorem ConsistentBut.of_empty (hs : s.ConsistentBut c) (htop : pq.top (s.readyInsts c) = none)
    (hon : s.queueOnList c = false) : s.Consistent := by
  refine ⟨hs.sorted, hs.distinct, ?_, hs.opClass⟩
  intro other
  by_cases hother : other = c
  · rw [hother]
    constructor
    · intro
      exact ⟨hon, hs.absent⟩
    · intro top hsome
      rw [htop] at hsome
      cases hsome
  · exact hs.listed other hother

/-- Each entry is the one of its class. -/
theorem Consistent.top_of_mem (hs : s.Consistent) (hmem : (it, entry) ∈ s.listOrder.nodes) :
    ∃ top, pq.top (s.readyInsts entry.queueType) = some top ∧ entry.oldestInst = top.seqNum ∧
      s.queueOnList entry.queueType = true := by
  cases htop : pq.top (s.readyInsts entry.queueType) with
  | none =>
    exact absurd (mem_map.mpr ⟨(it, entry), hmem, rfl⟩) ((hs.listed entry.queueType).off htop).2
  | some top =>
    obtain ⟨hon, other, -, hother⟩ := (hs.listed entry.queueType).on top htop
    have heq := inj_on_of_nodup_map hs.distinct hmem hother rfl
    rw [Prod.mk.injEq] at heq
    exact ⟨top, rfl, by rw [heq.2], hon⟩

theorem pending_congr (h : ∀ node ∈ nodes, s'.readyInsts node.2.queueType = s.readyInsts node.2.queueType) :
    s'.pending nodes = s.pending nodes := by
  rw [pending, pending]
  congr 1
  apply map_congr_left
  intro node hmem
  rw [h node hmem]

section

variable (hs : s.Consistent)
include hs

/-- The entries around one of them. -/
theorem Consistent.around (hnodes : s.listOrder.nodes = pre ++ node :: post) :
    (∀ other ∈ pre, other.2.oldestInst ≤ node.2.oldestInst) ∧ (∀ other ∈ post, node.2.oldestInst ≤ other.2.oldestInst) ∧
      ∀ other ∈ post, other.2.queueType ≠ node.2.queueType := by
  have hsorted := hs.sorted
  have hdistinct := hs.distinct
  rw [hnodes, pairwise_append, pairwise_cons] at hsorted
  rw [hnodes, classes, map_append, map_cons, nodup_middle, nodup_cons] at hdistinct
  refine ⟨fun other hmem => hsorted.2.2 other hmem node mem_cons_self, hsorted.2.1.1, ?_⟩
  intro other hmem heq
  exact hdistinct.1 (mem_append_right _ (mem_map.mpr ⟨other, hmem, heq⟩))

variable (hat : s.listOrder.At (some it) pre ((it, entry) :: post))
include hat

/-- The last instruction of a class is popped. -/
theorem popReady_last (hnext : pq.top (pq.pop (s.readyInsts entry.queueType)) = none) :
    ∃ s', s.popReady it entry.queueType = .ok (NodeList.iterator post, s') ∧ s'.Consistent ∧
      s'.listOrder.nodes = pre ++ post ∧ s'.pending post = s.pending post := by
  obtain ⟨-, -, hclasses⟩ := hs.around hat.nodes
  obtain ⟨l', herase, hnodes'⟩ := hat.erase
  obtain ⟨queue, hqueue⟩ : ∃ queue, queue = pq.pop (s.readyInsts entry.queueType) := ⟨_, rfl⟩
  rw [← hqueue] at hnext
  refine ⟨{ s.setReady entry.queueType queue with
    listOrder := l'
    readyIt := update s.readyIt entry.queueType none
    queueOnList := update s.queueOnList entry.queueType false }, ?_, ?_, hnodes',
    pending_congr fun node hmem => s.readyInsts_setReady_of_ne (hclasses node hmem) queue⟩
  · simp only [popReady, ← hqueue, readyInsts_setReady_self, hnext, Option.isSome_none, Bool.false_eq_true, if_false]
    exact (bind_of_ok hat.succ _).trans (bind_of_ok herase _)
  · refine ConsistentBut.of_empty (hs.erase rfl hat.nodes hnodes' ?_ ?_ ?_ ?_)
      ((congrArg pq.top (s.readyInsts_setReady_self _ queue)).trans hnext) (update_self ..)
    · exact fun _ hne => s.readyInsts_setReady_of_ne hne queue
    · exact fun _ hne => update_of_ne hne ..
    · exact fun _ hne => update_of_ne hne ..
    · intro inst hmem
      rw [show pq.items _ = [] from (congrArg pq.items (s.readyInsts_setReady_self _ queue)).trans
        ((pq.top_eq_none_iff queue).mp hnext)] at hmem
      cases hmem

/-- A class with more instructions moves to the place of the next one. -/
theorem popReady_move (hnext : pq.top (pq.pop (s.readyInsts entry.queueType)) = some top) :
    ∃ before after new s', post = before ++ after ∧ s.popReady it entry.queueType =
        .ok (NodeList.iterator (before ++ (new, ⟨entry.queueType, top.seqNum⟩) :: after), s') ∧ s'.Consistent ∧
      s'.listOrder.nodes = pre ++ (before ++ (new, ⟨entry.queueType, top.seqNum⟩) :: after) ∧
      entry.oldestInst ≤ top.seqNum ∧ s'.pending post = s.pending post ∧
      s'.readyInsts entry.queueType = pq.pop (s.readyInsts entry.queueType) := by
  obtain ⟨hpre, hpost, hclasses⟩ := hs.around hat.nodes
  obtain ⟨old, hold, holdest, hon⟩ := hs.top_of_mem (hat.nodes ▸ mem_append_right pre mem_cons_self)
  have hle : entry.oldestInst ≤ top.seqNum := holdest ▸ pq.top_le_top_pop hold hnext
  have hclass : ∀ inst ∈ pq.items (pq.pop (s.readyInsts entry.queueType)), inst.opClass = entry.queueType := by
    intro inst hmem
    exact hs.opClass _ _ ((pq.items_pop _ _ hold).mem_iff.mpr (mem_cons_of_mem old hmem))
  obtain ⟨queue, hqueue⟩ : ∃ queue, queue = pq.pop (s.readyInsts entry.queueType) := ⟨_, rfl⟩
  rw [← hqueue] at hnext hclass
  -- The list without the entry, and the list with the new one in its place.
  obtain ⟨erased, -, herased⟩ := hat.erase
  obtain ⟨moved, hmove, hmoved⟩ := moveToYoungerInst_eq (s := s.setReady entry.queueType queue) hat
    ((congrArg pq.top (s.readyInsts_setReady_self _ queue)).trans hnext)
  obtain ⟨before, hbefore⟩ : ∃ before, before = post.takeWhile fun node => node.2.oldestInst < top.seqNum := ⟨_, rfl⟩
  obtain ⟨after, hafter⟩ : ∃ after, after = post.dropWhile fun node => node.2.oldestInst < top.seqNum := ⟨_, rfl⟩
  rw [← hbefore, ← hafter, listOrder_setReady] at hmoved
  have hsplit : post = before ++ after := by rw [hbefore, hafter, takeWhile_append_dropWhile]
  have hatmoved : moved.At (some it) pre
      ((it, entry) :: (before ++ (s.listOrder.next, ⟨entry.queueType, top.seqNum⟩) :: after)) :=
    ⟨hmoved, rfl⟩
  obtain ⟨l', herase, hnodes'⟩ := hatmoved.erase
  refine ⟨before, after, s.listOrder.next, { s.setReady entry.queueType queue with
    listOrder := l'
    readyIt := update s.readyIt entry.queueType (some s.listOrder.next) }, hsplit, ?_, ?_, hnodes', hle, ?_, ?_⟩
  · simp only [popReady, ← hqueue, readyInsts_setReady_self, hnext, Option.isSome_some, if_true]
    rw [bind_of_ok hmove, bind_of_ok hatmoved.succ, bind_of_ok herase]
    rfl
  · have hnodes : erased.nodes = (pre ++ before) ++ after := by rw [herased, hsplit, append_assoc]
    have hnodes'' : l'.nodes = (pre ++ before) ++ (s.listOrder.next, ⟨entry.queueType, top.seqNum⟩) :: after := by
      rw [hnodes', append_assoc]
    refine (hs.setReady_erase hat.nodes herased hclass).insert
      ((congrArg pq.top (s.readyInsts_setReady_self _ queue)).trans hnext) hnodes ?_ ?_ hnodes''
      rfl rfl ?_
    · intro node hmem
      cases mem_append.mp hmem with
      | inl hmem => exact Nat.le_trans (hpre node hmem) hle
      | inr hmem =>
        rw [hbefore] at hmem
        exact Nat.le_of_lt (by simpa using mem_takeWhile_imp hmem)
    · intro node hmem
      rw [hafter] at hmem
      have hsorted := hs.sorted
      rw [hat.nodes, pairwise_append, pairwise_cons] at hsorted
      have hnot := not_of_mem_dropWhile (hsorted.2.1.2.imp fun {a b} hab h => ?_) hmem
      · exact Nat.not_lt.mp (of_decide_eq_false hnot)
      · exact decide_eq_true (Nat.lt_of_le_of_lt hab (of_decide_eq_true h))
    · -- The class stays marked as being on the list.
      exact (hon ▸ update_eq_self entry.queueType s.queueOnList).symm
  · exact pending_congr fun node hmem => s.readyInsts_setReady_of_ne (hclasses node hmem) queue
  · exact s.readyInsts_setReady_self _ _ |>.trans hqueue

theorem popReady_spec : ∃ post' s', s.popReady it entry.queueType = .ok (NodeList.iterator post', s') ∧ s'.Consistent ∧
      s'.listOrder.nodes = pre ++ post' ∧ (∀ node ∈ post', entry.oldestInst ≤ node.2.oldestInst) ∧
      s'.pending post' < s.pending ((it, entry) :: post) := by
  obtain ⟨-, hpost, -⟩ := hs.around hat.nodes
  cases hnext : pq.top (pq.pop (s.readyInsts entry.queueType)) with
  | none =>
    obtain ⟨s', hpop, hs', hnodes', hpending⟩ := popReady_last hs hat hnext
    refine ⟨post, s', hpop, hs', hnodes', hpost, ?_⟩
    simp only [pending, map_cons, sum_cons] at hpending ⊢
    omega
  | some top =>
    obtain ⟨before, after, new, s', rfl, hpop, hs', hnodes', hle, hpending, hready⟩ := popReady_move hs hat hnext
    refine ⟨_, s', hpop, hs', hnodes', ?_, ?_⟩
    · intro node hmem
      rw [mem_append, mem_cons, or_left_comm, ← mem_append] at hmem
      cases hmem with
      | inl heq => exact heq ▸ hle
      | inr hmem => exact hpost node hmem
    · obtain ⟨old, hold, -⟩ := hs.top_of_mem (hat.nodes ▸ mem_append_right pre mem_cons_self)
      have hsize := pq.size_pop hold
      simp only [pending, map_cons, sum_cons, map_append, sum_append, hready] at hpending ⊢
      omega

end

/-- The ready lists and the order list are the same. -/
structure SameLists (s s' : InstQueue pq F) : Prop where
  readyInsts : s'.readyInsts = s.readyInsts
  listOrder : s'.listOrder = s.listOrder
  queueOnList : s'.queueOnList = s.queueOnList
  readyIt : s'.readyIt = s.readyIt

theorem SameLists.consistent (h : SameLists s s') (hs : s.Consistent) : s'.Consistent := by
  obtain ⟨hsorted, hdistinct, hlisted, hclass⟩ := hs
  obtain ⟨hready, hlist, hon, hit⟩ := h
  refine ⟨hlist ▸ hsorted, hlist ▸ hdistinct, fun c => ?_, hready ▸ hclass⟩
  exact (hlisted c).of_eq (by rw [hready]) (by rw [hon]) (by rw [hit]) fun _ _ => by rw [hlist]

theorem SameLists.pending (h : SameLists s s') (nodes : List (Nat × ListOrderEntry)) :
    s'.pending nodes = s.pending nodes := pending_congr fun _ _ => by rw [h.readyInsts]

theorem SameLists.trans (h : SameLists s₁ s₂) (h' : SameLists s₂ s₃) : SameLists s₁ s₃ :=
  ⟨h'.readyInsts.trans h.readyInsts, h'.listOrder.trans h.listOrder, h'.queueOnList.trans h.queueOnList,
    h'.readyIt.trans h.readyIt⟩

variable (pool : FUPool F)

theorem getUnit_sameLists (s : InstQueue pq F) (c : OpClass) : SameLists s (getUnit pool s c).2 := by
  rw [getUnit]
  split <;> exact ⟨rfl, rfl, rfl, rfl⟩

theorem freeEntry_sameLists (s : InstQueue pq F) (inst : IQInst) : SameLists s (s.freeEntry inst) := by
  rw [freeEntry]
  split <;> exact ⟨rfl, rfl, rfl, rfl⟩

theorem sendToExecute_sameLists (s : InstQueue pq F) (inst : IQInst) (c : OpClass) (idx : Int)
    (op_latency : Nat) : SameLists s (sendToExecute pool s inst c idx op_latency).2 := by
  rw [sendToExecute]
  split <;> exact ⟨rfl, rfl, rfl, rfl⟩

/-- The invariant of the issue loop, whose iterator stands between `pre` and `post`:
what was considered is older than what is left, and the classes that were passed
over have no free unit. -/
structure Issue.Valid (l : Issue pq F) (pre post : List (Nat × ListOrderEntry)) : Prop where
  consistent : l.queue.Consistent
  position : l.queue.listOrder.At l.order_it pre post
  sorted : l.considered.Pairwise fun later earlier => earlier.1.seqNum ≤ later.1.seqNum
  older : ∀ c ∈ l.considered, ∀ node ∈ post, c.1.seqNum ≤ node.2.oldestInst
  busy : ∀ node ∈ pre, ∃ inst, (inst, Outcome.fuBusy) ∈ l.considered ∧ inst.opClass = node.2.queueType

variable {l : Issue pq F}

/-- The instruction of the entry at the iterator is considered, and the iterator moves on. -/
theorem Issue.Valid.consider {l' : Issue pq F} (hl : l.Valid pre ((it, entry) :: post)) {inst : IQInst}
    (hinst : inst.seqNum = entry.oldestInst) (hs : l'.queue.Consistent)
    (hposition : l'.queue.listOrder.At l'.order_it pre' post')
    (hconsidered : l'.considered = (inst, outcome) :: l.considered)
    (hpost : ∀ node ∈ post', entry.oldestInst ≤ node.2.oldestInst)
    (hpre : ∀ node ∈ pre', node ∈ pre ∨ outcome = .fuBusy ∧ inst.opClass = node.2.queueType) : l'.Valid pre' post' := by
  have hold : ∀ c ∈ l.considered, c.1.seqNum ≤ inst.seqNum := fun c hmem =>
    hinst ▸ hl.older c hmem (it, entry) mem_cons_self
  refine ⟨hs, hposition, ?_, ?_, ?_⟩
  · rw [hconsidered, pairwise_cons]
    exact ⟨hold, hl.sorted⟩
  · rw [hconsidered]
    exact forall_mem_cons.mpr ⟨hinst ▸ hpost, fun c hmem node hnode => (hold c hmem).trans (hinst ▸ hpost node hnode)⟩
  · rw [hconsidered]
    intro node hmem
    cases hpre node hmem with
    | inl hmem =>
      obtain ⟨earlier, hearlier, hclass⟩ := hl.busy node hmem
      exact ⟨earlier, mem_cons_of_mem _ hearlier, hclass⟩
    | inr hbusy => exact ⟨inst, hbusy.1 ▸ mem_cons_self, hbusy.2⟩

/-- What an iteration of the issue loop does. -/
theorem issueNext_spec (totalWidth : Nat) (marks : Marks) (hl : l.Valid pre post) :
    issueNext pool totalWidth marks l = .ok none ∨
      ∃ l' pre' post' it entry rest inst outcome, issueNext pool totalWidth marks l = .ok (some l') ∧
        l'.Valid pre' post' ∧ l'.queue.pending post' < l.queue.pending post ∧ post = (it, entry) :: rest ∧
        inst.seqNum = entry.oldestInst ∧ l'.considered = (inst, outcome) :: l.considered := by
  rw [issueNext, hl.position.it]
  cases post with
  | nil => exact .inl rfl
  | cons node post =>
    obtain ⟨it, entry⟩ := node
    have hat : l.queue.listOrder.At (some it) pre ((it, entry) :: post) := ⟨hl.position.nodes, rfl⟩
    obtain ⟨top, htop, holdest, -⟩ := hl.consistent.top_of_mem (hat.nodes ▸ mem_append_right pre mem_cons_self)
    have hclass := hl.consistent.opClass _ top (pq.top_mem _ _ htop)
    simp only [NodeList.iterator, head?_cons, Option.map_some]
    split
    · exact .inl rfl
    right
    simp only [bind_of_ok hat.get, htop, bind_of_ok (require_of_decide holdest.symm)]
    split
    · -- A squashed instruction is dropped.
      obtain ⟨post', s', hpop, hs', hnodes', hpost, hlt⟩ := popReady_spec hl.consistent hat
      rw [bind_of_ok hpop]
      exact ⟨_, pre, post', it, entry, post, top, .squashed, rfl,
        hl.consider holdest.symm hs' ⟨hnodes', rfl⟩ rfl hpost fun node hmem => .inl hmem, hlt, rfl, holdest.symm, rfl⟩
    · have hunit := getUnit_sameLists pool l.queue entry.queueType
      split
      · -- It is issued.
        have hsend := hunit.trans (sendToExecute_sameLists pool (getUnit pool l.queue entry.queueType).2 top
          entry.queueType (getUnit pool l.queue entry.queueType).1
          (opLatency pool entry.queueType (getUnit pool l.queue entry.queueType).1))
        obtain ⟨post', s', hpop, hs', hnodes', hpost, hlt⟩ :=
          popReady_spec (hsend.consistent hl.consistent) (hsend.listOrder ▸ hat)
        have hfree := freeEntry_sameLists s' top
        rw [bind_of_ok hpop]
        exact ⟨_, pre, post', it, entry, post, top, _, rfl,
          hl.consider holdest.symm (hfree.consistent hs') ⟨hfree.listOrder ▸ hnodes', rfl⟩ rfl hpost
            fun node hmem => .inl hmem,
          by rw [hfree.pending]; exact hsend.pending _ ▸ hlt, rfl, holdest.symm, rfl⟩
      · -- Its class has no free unit and is passed over.
        obtain ⟨-, hpost, -⟩ := hl.consistent.around hat.nodes
        have hat' := hunit.listOrder ▸ hat
        rw [bind_of_ok hat'.succ]
        refine ⟨_, pre ++ [(it, entry)], post, it, entry, post, top, .fuBusy, rfl,
          hl.consider holdest.symm (hunit.consistent hl.consistent) hat'.next rfl hpost ?_, ?_, rfl, holdest.symm, rfl⟩
        · exact forall_mem_append.mpr ⟨fun _ => .inl, forall_mem_singleton.mpr (.inr ⟨rfl, hclass⟩)⟩
        · rw [hunit.pending]
          simp only [pending, map_cons, sum_cons]
          omega

/-! ### Runs -/

/-- A loop that feeds memory instructions into the ready lists. -/
theorem addMemInsts_returns {getMemInst : InstQueue pq F → Option IQInst × InstQueue pq F}
    (waiting : InstQueue pq F → Nat) (hsame : ∀ s, SameLists s (getMemInst s).2)
    (htake : ∀ s, (getMemInst s).1.isSome → waiting (getMemInst s).2 < waiting s)
    (hwaiting : ∀ s inst s', s.Consistent → s.addReady inst = .ok s' → waiting s' = waiting s)
    (hs : s.Consistent) : ∃ s', loop (addMemInsts getMemInst) (waiting s + 1) s = .ok s' ∧ s'.Consistent := by
  have hbody : ∀ s : InstQueue pq F, s.Consistent → addMemInsts getMemInst s = .ok none ∨
      ∃ next, addMemInsts getMemInst s = .ok (some next) ∧ next.Consistent ∧ waiting next < waiting s := by
    intro s hs
    have htake := htake s
    have htaken := (hsame s).consistent hs
    rw [addMemInsts]
    cases hget : getMemInst s with
    | mk mem_inst taken =>
    rw [hget] at htake htaken
    cases mem_inst with
    | none => exact .inl rfl
    | some mem_inst =>
      obtain ⟨next, hadd, hnext, -⟩ := addReady_spec htaken mem_inst
      refine .inr ⟨next, bind_of_ok hadd _, hnext, ?_⟩
      rw [hwaiting taken mem_inst next htaken hadd]
      exact htake rfl
  obtain ⟨s', hloop, hs', -⟩ := Loop.returns waiting hbody hs (Nat.lt_succ_self _)
  exact ⟨s', hloop, hs'⟩

theorem addReady_memInsts (hs : s.Consistent) (h : s.addReady inst = .ok s') :
    s'.deferredMemInsts = s.deferredMemInsts ∧ s'.retryMemInsts = s.retryMemInsts := by
  obtain ⟨next, hnext, -, hsame⟩ := addReady_spec hs inst
  obtain rfl : next = s' := by simpa [hnext] using h
  exact hsame

theorem addDeferred_returns (marks : Marks) (hs : s.Consistent) :
    ∃ s', loop (addMemInsts (getDeferredMemInstToExecute marks)) (s.deferredMemInsts.length + 1) s = .ok s' ∧
      s'.Consistent := by
  refine addMemInsts_returns (fun s : InstQueue pq F => s.deferredMemInsts.length) ?_ ?_ ?_ hs
  · intro s
    exact ⟨rfl, rfl, rfl, rfl⟩
  · intro s hsome
    obtain ⟨inst, hinst⟩ := Option.isSome_iff_exists.mp hsome
    have hmem := mem_of_find?_eq_some hinst
    have hlength := length_eraseP_of_mem hmem (find?_some hinst)
    have hpos := length_pos_of_mem hmem
    simp only [getDeferredMemInstToExecute] at hlength ⊢
    omega
  · intro s inst s' hs hadd
    rw [(addReady_memInsts hs hadd).1]

theorem addBlocked_returns (hs : s.Consistent) :
    ∃ s', loop (addMemInsts getBlockedMemInstToExecute) (s.retryMemInsts.length + 1) s = .ok s' ∧ s'.Consistent := by
  refine addMemInsts_returns (fun s : InstQueue pq F => s.retryMemInsts.length) ?_ ?_ ?_ hs
  · intro s
    exact ⟨rfl, rfl, rfl, rfl⟩
  · intro s hsome
    simp only [getBlockedMemInstToExecute] at hsome ⊢
    cases hlist : s.retryMemInsts with
    | nil => simp [hlist] at hsome
    | cons inst rest => simp
  · intro s inst s' hs hadd
    rw [(addReady_memInsts hs hadd).2]

theorem scheduleStart_spec (marks : Marks) (hs : s.Consistent) :
    ∃ start, s.scheduleStart marks = .ok start ∧ start.Valid [] start.queue.listOrder.nodes := by
  obtain ⟨first, hfirst, hconsistent⟩ := addDeferred_returns marks hs
  obtain ⟨second, hsecond, hs'⟩ := addBlocked_returns hconsistent
  refine ⟨⟨second, 0, second.listOrder.begin_, []⟩, ?_, hs', .begin_ _, .nil, ?_, ?_⟩
  · rw [scheduleStart, bind_of_ok hfirst, bind_of_ok hsecond]
  · intro c hmem
    cases hmem
  · intro node hmem
    cases hmem

/-- The loop runs to its end. -/
theorem issueLoop_returns (totalWidth : Nat) (marks : Marks)
    (hl : l.Valid [] l.queue.listOrder.nodes) :
    ∃ last pre post, loop (issueNext pool totalWidth marks) (l.queue.pending l.queue.listOrder.nodes + 1) l = .ok last ∧
      last.Valid pre post := by
  have hmeasure : ∀ {l : Issue pq F} {pre post}, l.Valid pre post → l.queue.listOrder.since l.order_it = post :=
    fun hl => hl.position.since_eq
  have hbody : ∀ l : Issue pq F, (∃ pre post, l.Valid pre post) → issueNext pool totalWidth marks l = .ok none ∨
      ∃ next, issueNext pool totalWidth marks l = .ok (some next) ∧ (∃ pre post, next.Valid pre post) ∧
        next.queue.pending (next.queue.listOrder.since next.order_it) <
          l.queue.pending (l.queue.listOrder.since l.order_it) := by
    rintro l ⟨pre, post, hl⟩
    obtain hdone | ⟨next, pre', post', -, -, -, -, -, hnext, hvalid, hlt, -⟩ := issueNext_spec pool totalWidth marks hl
    · exact .inl hdone
    · refine .inr ⟨next, hnext, ⟨pre', post', hvalid⟩, ?_⟩
      rw [hmeasure hl, hmeasure hvalid]
      exact hlt
  obtain ⟨last, hloop, ⟨pre, post, hlast⟩, -⟩ := Loop.returns _ hbody ⟨_, _, hl⟩ (Nat.lt_succ_self _)
  rw [hmeasure hl] at hloop
  exact ⟨last, pre, post, hloop, hlast⟩

theorem scheduleReadyInsts_spec (totalWidth : Nat) (marks : Marks) (hs : s.Consistent) :
    ∃ considered s', scheduleReadyInsts pool totalWidth marks s = .ok (considered, s') ∧ s'.Consistent ∧
      considered.Pairwise fun earlier later => earlier.1.seqNum ≤ later.1.seqNum := by
  obtain ⟨start, hstart, hvalid⟩ := scheduleStart_spec marks hs
  obtain ⟨last, pre, post, hloop, hlast⟩ := issueLoop_returns pool totalWidth marks hvalid
  refine ⟨last.considered.reverse, last.queue, ?_, hlast.consistent, pairwise_reverse.mpr hlast.sorted⟩
  rw [scheduleReadyInsts, bind_of_ok hstart, bind_of_ok hloop]

theorem step_consistent (totalWidth : Nat) (hs : s.Consistent) (op : Op F) :
    ∃ answer s', (machine pool totalWidth).step s op = .ok (answer, s') ∧ s'.Consistent := by
  cases op with
  | addIfReady inst readyToIssue =>
    obtain ⟨s', hadd, hs', -⟩ := addReady_spec hs inst
    simp only [machine, addIfReady]
    split
    · split
      · exact ⟨[], s, rfl, hs⟩
      · rw [bind_of_ok hadd]
        exact ⟨[], s', rfl, hs'⟩
    · exact ⟨[], s, rfl, hs⟩
  | addReadyMemInst ready_inst =>
    obtain ⟨s', hadd, hs', -⟩ := addReady_spec hs ready_inst
    exact ⟨[], s', bind_of_ok hadd _, hs'⟩
  | scheduleReadyInsts marks =>
    obtain ⟨considered, s', hschedule, hs', -⟩ := scheduleReadyInsts_spec pool totalWidth marks hs
    exact ⟨considered, s', hschedule, hs'⟩
  | _ => exact ⟨[], _, rfl, SameLists.consistent (s := s) ⟨rfl, rfl, rfl, rfl⟩ hs⟩

theorem run_consistent (totalWidth : Nat) (hs : s.Consistent) (ops : List (Op F)) :
    ∃ answers s', (machine pool totalWidth).run s ops = .ok (answers, s') ∧ s'.Consistent :=
  Machine.run_progress (fun _ op hs _ => step_consistent pool totalWidth hs op) hs
    ((machine pool totalWidth).stepsAll_of_forall (fun _ _ => trivial) _ _)

/-- The age order list and the ready lists agree. -/
structure AgeOrdered (s : InstQueue pq F) : Prop where
  sorted : s.listOrder.nodes.Pairwise fun a b => a.2.oldestInst ≤ b.2.oldestInst
  onList : ∀ c, s.queueOnList c = true ↔ pq.items (s.readyInsts c) ≠ []
  oneEntry : ∀ c, pq.items (s.readyInsts c) ≠ [] ↔ (classes s.listOrder.nodes).count c = 1
  oldest : ∀ c, pq.items (s.readyInsts c) ≠ [] → ∃ it entry top, s.readyIt c = some it ∧
    s.listOrder.get it = .ok entry ∧ entry.queueType = c ∧ pq.top (s.readyInsts c) = some top ∧
    entry.oldestInst = top.seqNum

theorem Consistent.ageOrdered (hs : s.Consistent) : s.AgeOrdered := by
  have hempty : ∀ c, pq.items (s.readyInsts c) ≠ [] ↔ ∃ top, pq.top (s.readyInsts c) = some top := by
    intro c
    rw [ne_eq, ← pq.top_eq_none_iff, ← ne_eq, Option.ne_none_iff_exists']
  refine ⟨hs.sorted, ?_, ?_, ?_⟩
  · intro c
    rw [hempty]
    cases htop : pq.top (s.readyInsts c) with
    | none => simp [((hs.listed c).off htop).1]
    | some top => simp [((hs.listed c).on top htop).1]
  · intro c
    rw [hempty]
    cases htop : pq.top (s.readyInsts c) with
    | none => simp [count_eq_zero_of_not_mem ((hs.listed c).off htop).2]
    | some top =>
      obtain ⟨-, it, -, hmem⟩ := (hs.listed c).on top htop
      have hmem : c ∈ classes s.listOrder.nodes := mem_map.mpr ⟨_, hmem, rfl⟩
      simp [count_eq_one_of_mem hs.distinct hmem]
  · intro c hnonempty
    obtain ⟨top, htop⟩ := (hempty c).mp hnonempty
    obtain ⟨-, it, hit, hmem⟩ := (hs.listed c).on top htop
    obtain ⟨pre, post, hnodes⟩ := append_of_mem hmem
    have hat : s.listOrder.At (some it) pre ((it, ⟨c, top.seqNum⟩) :: post) := ⟨hnodes, rfl⟩
    exact ⟨it, _, top, hit, hat.get, rfl, htop, rfl⟩

/-- The instruction that is considered next is younger than what was considered
before, and the oldest that is ready in the classes not found busy. -/
def Issue.OldestFirst (l : Issue pq F) (inst : IQInst) : Prop :=
  (∀ c ∈ l.considered, c.1.seqNum ≤ inst.seqNum) ∧
    ∀ c, (∀ busy, (busy, Outcome.fuBusy) ∈ l.considered → busy.opClass ≠ c) →
      ∀ other ∈ pq.items (l.queue.readyInsts c), inst.seqNum ≤ other.seqNum

theorem Issue.Valid.oldestFirst (hl : l.Valid pre ((it, entry) :: post)) (hinst : inst.seqNum = entry.oldestInst) :
    l.OldestFirst inst := by
  refine ⟨fun c hmem => hinst ▸ hl.older c hmem (it, entry) mem_cons_self, ?_⟩
  intro c hbusy other hmem
  have hnonempty : pq.top (l.queue.readyInsts c) ≠ none := by
    rw [ne_eq, pq.top_eq_none_iff]
    exact ne_nil_of_mem hmem
  obtain ⟨top, htop⟩ := Option.ne_none_iff_exists'.mp hnonempty
  refine Nat.le_trans ?_ (pq.top_le _ _ htop other hmem)
  -- The entry of the class is not among those passed over.
  obtain ⟨-, otherIt, -, hentry⟩ := (hl.consistent.listed c).on top htop
  rw [hinst]
  rw [hl.position.nodes] at hentry
  cases mem_append.mp hentry with
  | inl hpre =>
    obtain ⟨busy, hmem, hclass⟩ := hl.busy _ hpre
    exact absurd hclass (hbusy busy hmem)
  | inr hpost =>
    cases mem_cons.mp hpost with
    | inl heq =>
      cases heq
      exact Nat.le_refl _
    | inr hmem => exact (hl.consistent.around hl.position.nodes).2.1 _ hmem

/-- No call of any run faults. The age order list and the ready lists agree in every
state between calls and at every iteration of the issue loop, whose assertions
hold, and the loop considers instructions oldest first. -/
theorem run_ageOrdered (pq : PriorityQueue IQInst IQInst.seqNum) (pool : FUPool F) (totalWidth : Nat) (fuPool : F)
    (numEntries : Unsigned) (ops : List (Op F)) :
    ∃ answers s, (machine pool totalWidth).run (construct pq fuPool numEntries) ops = .ok (answers, s) ∧
      s.AgeOrdered ∧ ∀ marks, ∃ start, s.scheduleStart marks = .ok start ∧
        ∀ l, Loop.Reaches (issueNext pool totalWidth marks) start l → l.queue.AgeOrdered ∧
          (issueNext pool totalWidth marks l = .ok none ∨
            ∃ l' inst outcome, issueNext pool totalWidth marks l = .ok (some l') ∧
              l'.considered = (inst, outcome) :: l.considered ∧ l.OldestFirst inst) := by
  obtain ⟨answers, s, hrun, hs⟩ := run_consistent pool totalWidth (Consistent.construct pq fuPool numEntries) ops
  refine ⟨answers, s, hrun, hs.ageOrdered, ?_⟩
  intro marks
  obtain ⟨start, hstart, hvalid⟩ := scheduleStart_spec marks hs
  refine ⟨start, hstart, ?_⟩
  intro l hreach
  obtain ⟨pre, post, hl⟩ : ∃ pre post, l.Valid pre post := by
    apply hreach.invariant ⟨_, _, hvalid⟩
    rintro l l' ⟨pre, post, hl⟩ hnext
    obtain hdone | ⟨next, pre', post', -, -, -, -, -, hok, hvalid, -⟩ := issueNext_spec pool totalWidth marks hl
    · rw [hdone] at hnext
      cases hnext
    · obtain rfl : next = l' := by simpa [hok] using hnext
      exact ⟨pre', post', hvalid⟩
  refine ⟨hl.consistent.ageOrdered, ?_⟩
  obtain hdone | ⟨l', -, -, it, entry, rest, inst, outcome, hnext, -, -, rfl, hinst, hconsidered⟩ :=
    issueNext_spec pool totalWidth marks hl
  · exact .inl hdone
  · exact .inr ⟨l', inst, outcome, hnext, hconsidered, hl.oldestFirst hinst⟩

end Gem5.O3.InstQueue
