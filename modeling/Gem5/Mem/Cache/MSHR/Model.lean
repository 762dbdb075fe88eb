import Gem5.Lib.Run
import Gem5.Mem.MemCmd

open Lib Result

namespace Gem5

namespace MSHR

/-- A packet, with the fields that the MSHR uses. `ptr` stands for the pointer to it,
and `sender` is the next MSHR in its stack of sender states. -/
structure Packet where
  ptr : Nat
  cmd : MemCmd
  isUncacheable : Bool
  isExpressSnoop : Bool
  cacheResponding : Bool
  responderHadWritable : Bool
  hasSharers : Bool
  staticData : Bool
  dynamicData : Bool
  sender : Option Nat
  deriving DecidableEq, Repr

namespace Packet

/-- `needsWritable`, which is asked of requests only. -/
def needsWritable (pkt : Packet) : Result Bool := do
  require pkt.cmd.isRequest
  .ok pkt.cmd.needsWritable

variable (pkt : Packet)

def hasRespData : Bool := pkt.cmd.responseCommand.hasData

/-- `allocate`, on the flags. -/
def allocate : Result Packet :=
  if pkt.cmd.hasData || pkt.hasRespData then do
    require (!pkt.staticData && !pkt.dynamicData)
    .ok { pkt with dynamicData := true }
  else .ok pkt

def setCacheResponding : Result Packet := do
  require pkt.cmd.isRequest
  require !pkt.cacheResponding
  .ok { pkt with cacheResponding := true }

def setResponderHadWritable : Result Packet := do
  require pkt.cacheResponding
  require !pkt.responderHadWritable
  .ok { pkt with responderHadWritable := true }

/-- `Packet(new Request(*pkt->req), pkt->cmd, blkSize)`. -/
def fresh : Packet :=
  { pkt with
    isExpressSnoop := false, cacheResponding := false, responderHadWritable := false, hasSharers := false
    staticData := false, dynamicData := false, sender := none }

/-- `Packet(pkt, true, true)`. -/
def copy : Packet :=
  { pkt.fresh with
    staticData := pkt.staticData, dynamicData := !pkt.staticData && (pkt.cmd.hasData || pkt.hasRespData)
    sender := pkt.sender }

end Packet

/-- The command that `replaceUpgrade` puts in the place of an upgrade. -/
def replacement : MemCmd → MemCmd
  | .UpgradeReq => .ReadExReq
  | .SCUpgradeReq => .SCUpgradeFailReq
  | .StoreCondReq => .StoreCondFailReq
  | cmd => cmd

def replaceUpgrade (pkt : Packet) : Result Packet :=
  let has_data := pkt.cmd.hasData || pkt.hasRespData
  let pkt := { pkt with cmd := replacement pkt.cmd }
  if !has_data then do
    require !pkt.cmd.hasData
    if pkt.hasRespData then pkt.allocate else .ok pkt
  else .ok pkt

/-- `replaceUpgrade`, if the condition holds. -/
def replaceUpgradeIf (condition : Bool) (pkt : Packet) : Result Packet :=
  if condition then replaceUpgrade pkt else .ok pkt

/-- `Target::Source`. -/
inductive Source where
  | FromCPU
  | FromSnoop
  | FromPrefetcher
  deriving DecidableEq, Repr

structure Target where
  recvTime : Nat
  readyTime : Nat
  order : Nat
  pkt : Packet
  source : Source
  markedPending : Bool
  allocOnFill : Bool
  deriving DecidableEq, Repr

/-- The `downstreamPending` flags of the MSHRs in the caches above. What setting or
clearing one does in the caches further above is not modelled. -/
abbrev Above : Type := Nat → Bool

def Above.set (above : Above) (mshr : Nat) (pending : Bool) : Above := fun i => if i = mshr then pending else above i

structure TargetList where
  targets : List Target
  needsWritable : Bool
  hasUpgrade : Bool
  allocOnFill : Bool
  deriving DecidableEq, Repr

namespace TargetList

/-- `TargetList()`. -/
def construct : TargetList := ⟨[], false, false, false⟩

variable (l : TargetList)

def empty : Bool := l.targets.isEmpty

def updateFlags (pkt : Packet) (source : Source) (alloc_on_fill : Bool) : Result TargetList :=
  if source ≠ .FromSnoop then do
    let needsWritable ← pkt.needsWritable
    .ok { l with
      needsWritable := l.needsWritable || needsWritable
      hasUpgrade := l.hasUpgrade || (pkt.cmd.isUpgrade || pkt.cmd == .StoreCondReq)
      allocOnFill := l.allocOnFill || alloc_on_fill }
  else .ok l

def resetFlags : TargetList := { l with needsWritable := false, hasUpgrade := false, allocOnFill := false }

def isReset : Bool := !l.needsWritable && !l.hasUpgrade && !l.allocOnFill

def populateFlags : Result TargetList :=
  l.targets.foldlM (fun l t => l.updateFlags t.pkt t.source t.allocOnFill) l.resetFlags

/-- Setting the flag of the MSHR that sent the packet, if the target is to be marked.
The result says whether it has been marked. -/
def markAbove (above : Above) (pkt : Packet) (markPending : Bool) : Result (Bool × Above) :=
  match markPending, pkt.sender with
  | true, some mshr => do
    require !above mshr
    .ok (true, above.set mshr true)
  | _, _ => .ok (false, above)

def add (above : Above) (pkt : Packet) (curTick readyTime order : Nat) (source : Source)
    (markPending alloc_on_fill : Bool) : Result (TargetList × Above) := do
  let l ← l.updateFlags pkt source alloc_on_fill
  let (markPending, above) ← markAbove above pkt markPending
  .ok ({ l with targets := l.targets ++ [⟨curTick, readyTime, order, pkt, source, markPending, alloc_on_fill⟩] }, above)

/-- `replaceUpgrades`. -/
def replaceUpgrades : Result TargetList :=
  if l.hasUpgrade then do
    let targets ← l.targets.mapM fun t => do
      let pkt ← replaceUpgrade t.pkt
      .ok { t with pkt := pkt }
    .ok { l with targets := targets, hasUpgrade := false }
  else .ok l

/-- The body of the loop in `clearDownstreamPending`. -/
def clearAbove (above : Above) (t : Target) : Result (Target × Above) :=
  if t.markedPending then
    match t.pkt.sender with
    | some mshr => do
      require (above mshr)
      .ok ({ t with markedPending := false }, above.set mshr false)
    | none => .ok ({ t with markedPending := false }, above)
  else .ok (t, above)

def clearAll : List Target → Above → Result (List Target × Above)
  | [], above => .ok ([], above)
  | t :: ts, above => do
    let (t, above) ← clearAbove above t
    let (ts, above) ← clearAll ts above
    .ok (t :: ts, above)

def clearDownstreamPending (above : Above) : Result (TargetList × Above) := do
  let (targets, above) ← clearAll l.targets above
  .ok ({ l with targets := targets }, above)

end TargetList

end MSHR

/-- A miss status and handling register. `free` says that it is on the free list of
the queue, and `above` has the flags that it sets in the caches above. -/
structure MSHR where
  readyTime : Nat
  isUncacheable : Bool
  inService : Bool
  order : Nat
  downstreamPending : Bool
  pendingModified : Bool
  postInvalidate : Bool
  postDowngrade : Bool
  isForward : Bool
  targets : MSHR.TargetList
  deferredTargets : MSHR.TargetList
  free : Bool
  above : MSHR.Above

namespace MSHR

/-- `MSHR()`. -/
def construct (above : Above) : MSHR :=
  { readyTime := 0, isUncacheable := false, inService := false, order := 0, downstreamPending := false
    pendingModified := false, postInvalidate := false, postDowngrade := false, isForward := false
    targets := .construct, deferredTargets := .construct, free := true, above }

variable (m : MSHR) (pkt : Packet)

def getNumTargets : Nat := m.targets.targets.length + m.deferredTargets.targets.length

def hasPostInvalidate : Result Bool := do
  require m.inService
  .ok m.postInvalidate

/-- `targets.add`. -/
def addTarget (curTick readyTime order : Nat) (source : Source) (markPending alloc_on_fill : Bool) : Result MSHR := do
  let (targets, above) ← m.targets.add m.above pkt curTick readyTime order source markPending alloc_on_fill
  .ok { m with targets := targets, above := above }

/-- `deferredTargets.add`. -/
def addDeferred (curTick readyTime order : Nat) (source : Source) (markPending alloc_on_fill : Bool) : Result MSHR := do
  let (deferredTargets, above) ←
    m.deferredTargets.add m.above pkt curTick readyTime order source markPending alloc_on_fill
  .ok { m with deferredTargets := deferredTargets, above := above }

/-- `MSHRQueue::allocate`, on the MSHR that it takes from the free list. -/
def allocate (target : Packet) (curTick when_ready order : Nat) (alloc_on_fill : Bool) : Result MSHR := do
  require (m.getNumTargets == 0)
  let m :=
    { m with
      free := false, readyTime := when_ready, order := order, isForward := false
      isUncacheable := target.isUncacheable, inService := false, downstreamPending := false }
  require m.targets.isReset
  let source := if target.cmd = .HardPFReq then Source.FromPrefetcher else Source.FromCPU
  let m ← m.addTarget target curTick when_ready order source true alloc_on_fill
  require m.deferredTargets.isReset
  .ok m

/-- `clearDownstreamPending`, called by the cache below. -/
def clearDownstreamPending (m : MSHR) : Result MSHR := do
  require m.downstreamPending
  let (targets, above) ← m.targets.clearDownstreamPending m.above
  .ok { m with downstreamPending := false, targets := targets, above := above }

/-- What `TargetList::add` in the cache below does with the sender of its packet. -/
def setDownstreamPending : Result MSHR := do
  require !m.downstreamPending
  .ok { m with downstreamPending := true }

def markInService (pending_modified_resp : Bool) : Result MSHR := do
  require !m.inService
  let m :=
    { m with
      inService := true, pendingModified := m.targets.needsWritable || pending_modified_resp
      postInvalidate := false, postDowngrade := false }
  if !m.downstreamPending then do
    let (targets, above) ← m.targets.clearDownstreamPending m.above
    .ok { m with targets := targets, above := above }
  else .ok m

/-- `MSHRQueue::markPending`. -/
def markPending : Result MSHR := do
  require m.inService
  .ok { m with inService := false }

/-- `Queue::deallocate`, which puts the MSHR on the free list. -/
def deallocate : Result MSHR := do
  require m.targets.empty
  let m := { m with targets := m.targets.resetFlags }
  require m.deferredTargets.isReset
  .ok { m with inService := false, free := true }

/-- Whether a new target has to wait for the response. -/
def defers : Result Bool :=
  if m.inService then
    if !m.deferredTargets.empty || m.postInvalidate then .ok true
    else do
      let needsWritable ← pkt.needsWritable
      .ok (needsWritable && (!m.pendingModified || m.postDowngrade || m.isForward))
  else .ok false

/-- Adding a target that has to wait. -/
def deferTarget (curTick whenReady order : Nat) (alloc_on_fill : Bool) : Result MSHR := do
  let postInvalidate ← m.hasPostInvalidate
  let pkt ← replaceUpgradeIf postInvalidate pkt
  m.addDeferred pkt curTick whenReady order .FromCPU true alloc_on_fill

def allocateTarget (curTick whenReady order : Nat) (alloc_on_fill : Bool) : Result MSHR := do
  require (pkt.cmd ≠ .HardPFReq)
  require !m.isUncacheable
  let defers ← m.defers pkt
  if defers then m.deferTarget pkt curTick whenReady order alloc_on_fill
  else m.addTarget pkt curTick whenReady order .FromCPU (!m.inService) alloc_on_fill

/-- `targets.replaceUpgrades()`, if the snoop takes the block away. -/
def replaceTargets (needsWritable : Bool) : Result MSHR :=
  if needsWritable then do
    let targets ← m.targets.replaceUpgrades
    .ok { m with targets := targets }
  else .ok m

/-- `deferredTargets.replaceUpgrades()`, if the snoop takes the block away. -/
def replaceDeferred (needsWritable : Bool) : Result MSHR :=
  if needsWritable then do
    let deferredTargets ← m.deferredTargets.replaceUpgrades
    .ok { m with deferredTargets := deferredTargets }
  else .ok m

/-- Marking a snoop that will be responded to. -/
def respond (will_respond : Bool) (pkt : Packet) : Result Packet :=
  if will_respond then do
    let pkt ← pkt.setCacheResponding
    pkt.setResponderHadWritable
  else .ok pkt

/-- Saving a snoop for after the response, if that is necessary. -/
def saveSnoop (needsWritable : Bool) (curTick order : Nat) : Result (Packet × MSHR) :=
  if m.pendingModified || pkt.cmd.isInvalidate then do
    let will_respond := m.pendingModified && pkt.cmd.needsResponse
    let cp_pkt := if will_respond then pkt.copy else pkt.fresh
    let pkt ← respond will_respond pkt
    let m ← m.addTarget cp_pkt curTick curTick order .FromSnoop (m.downstreamPending && m.targets.needsWritable) false
    .ok (pkt, { m with postInvalidate := m.postInvalidate || needsWritable })
  else .ok (pkt, m)

/-- What a snoop that reads the block does in the end. -/
def downgrade (needsWritable : Bool) : Packet × MSHR :=
  if !needsWritable && !pkt.isUncacheable then ({ pkt with hasSharers := true }, { m with postDowngrade := true })
  else (pkt, m)

/-- `handleSnoop`, with the packet that it marks. -/
def handleSnoop (curTick order : Nat) : Result (Bool × Packet × MSHR) := do
  let needsWritable ← pkt.needsWritable
  require (needsWritable == pkt.cmd.isInvalidate)
  if !m.inService || (pkt.isExpressSnoop && m.downstreamPending) then do
    let m ← m.replaceTargets needsWritable
    let m ← m.replaceDeferred needsWritable
    .ok (false, pkt, m)
  else do
    let m ← m.replaceDeferred needsWritable
    if m.postInvalidate then .ok (true, pkt, m)
    else do
      let (pkt, m) ← m.saveSnoop pkt needsWritable curTick order
      .ok (true, m.downgrade pkt needsWritable)

/-- The loop of `extractServiceableTargets` over the targets behind the first one, as
those that are ready and those that stay. -/
def splitSnoops : List Target → Result (List Target × List Target)
  | [] => .ok ([], [])
  | t :: ts =>
    if t.source = .FromCPU then do
      let (ready, kept) ← splitSnoops ts
      .ok (ready, t :: kept)
    else do
      require (t.source = .FromSnoop)
      let (ready, kept) ← splitSnoops ts
      .ok (t :: ready, kept)

/-- The targets that a `ReadRespWithInvalidate` serves. -/
def extractFirst : Result (TargetList × MSHR) :=
  match m.targets.targets with
  | [] => .error .dangling
  | first :: rest => do
    require (first.source = .FromCPU ∨ first.source = .FromPrefetcher)
    let (ready, kept) ← splitSnoops rest
    let ready_targets ← { TargetList.construct with targets := first :: ready }.populateFlags
    let targets ← { m.targets with targets := kept }.populateFlags
    .ok (ready_targets, { m with targets := targets })

def extractServiceableTargets (cmd : MemCmd) : Result (TargetList × MSHR) :=
  if cmd = .ReadRespWithInvalidate then m.extractFirst
  else do
    let targets ← TargetList.construct.populateFlags
    .ok (m.targets, { m with targets := targets })

/-- `promoteDeferredTargets` once the deferred targets have been moved. -/
def restart (curTick : Nat) : Result MSHR :=
  match m.targets.targets with
  | [] => .error .dangling
  | front :: _ =>
    .ok { m with
      deferredTargets := m.deferredTargets.resetFlags, order := front.order
      readyTime := max curTick front.readyTime }

def promoteDeferredTargets (curTick : Nat) : Result (Bool × MSHR) :=
  if m.targets.empty then
    if m.deferredTargets.empty then .ok (false, m)
    else do
      let m ← { m with targets := m.deferredTargets, deferredTargets := m.targets }.restart curTick
      .ok (true, m)
  else do
    let targets ← { m.targets with targets := m.targets.targets ++ m.deferredTargets.targets }.populateFlags
    let m ← { m with targets := targets, deferredTargets := { m.deferredTargets with targets := [] } }.restart curTick
    .ok (true, m)

/-- Moving the deferred targets up, in `promoteWritable`. -/
def promote : Result MSHR := do
  require !m.targets.needsWritable
  require !m.downstreamPending
  let (deferredTargets, above) ← m.deferredTargets.clearDownstreamPending m.above
  .ok { m with
    targets := { m.targets with targets := m.targets.targets ++ deferredTargets.targets, needsWritable := true }
    deferredTargets := { deferredTargets with targets := [] }.resetFlags
    above := above }

def promoteWritable : Result MSHR :=
  if m.deferredTargets.needsWritable then do
    require m.inService
    if m.postInvalidate || m.postDowngrade then .ok m else m.promote
  else .ok m

/-- `promoteWritable`, if the response passes a writable block. -/
def promoteUnless (hasSharers : Bool) : Result MSHR := if !hasSharers then m.promoteWritable else .ok m

/-- What `Cache::recvTimingResp` does with the MSHR for one of the targets, where
`is_error` says that the response is an error. -/
def serveTarget (is_error : Bool) (m : MSHR) (target : Target) : Result MSHR :=
  match target.source with
  | .FromCPU =>
    if target.pkt.cmd.isSWPrefetch then .ok m
    else if target.pkt.cmd = .WriteLineReq then do
      require !is_error
      m.promoteWritable
    else .ok m
  | .FromPrefetcher => do
    require (target.pkt.cmd = .HardPFReq)
    .ok m
  | .FromSnoop => do
    require !is_error
    .ok m

/-- `Cache::recvTimingResp` up to the service of the targets that it extracts, with
the command and the `hasSharers` flag of the response. -/
def serve (cmd : MemCmd) (hasSharers : Bool) : Result (List Target × MSHR) := do
  require !m.targets.empty
  let m ← m.promoteUnless hasSharers
  let (targets, m) ← m.extractServiceableTargets cmd
  let m ← targets.targets.foldlM (serveTarget cmd.isError) m
  .ok (targets.targets, m)

/-- What `Cache::recvTimingResp` does with the MSHR in the end. -/
def finish (promoted : Bool) : Result MSHR := if promoted then m.markPending else m.deallocate

/-- `Cache::recvTimingResp`, on the MSHR, with the targets served. -/
def recvTimingResp (cmd : MemCmd) (hasSharers : Bool) (curTick : Nat) : Result (List Target × MSHR) := do
  let (served, m) ← m.serve cmd hasSharers
  let (promoted, m) ← m.promoteDeferredTargets curTick
  let m ← m.finish promoted
  .ok (served, m)

/-- The calls on the MSHR. The caches above and below change `above` and
`downstreamPending`, and `sendMSHRQueuePacket` sets `isForward`. -/
inductive Call where
  | allocate (pkt : Packet) (curTick when_ready order : Nat) (alloc_on_fill : Bool)
  | allocateTarget (pkt : Packet) (curTick whenReady order : Nat) (alloc_on_fill : Bool)
  | handleSnoop (pkt : Packet) (curTick order : Nat)
  | setForward (isForward : Bool)
  | markInService (pending_modified_resp : Bool)
  | recvTimingResp (cmd : MemCmd) (hasSharers : Bool) (curTick : Nat)
  | setDownstreamPending
  | clearDownstreamPending
  | setAbove (mshr : Nat) (pending : Bool)
  deriving DecidableEq, Repr

/-- The answer to a call: whether a snoop has been handled and how its packet has been
marked, or the targets that have been served. -/
inductive Answer where
  | done
  | snooped (handled : Bool) (pkt : Packet)
  | served (targets : List Target)
  deriving DecidableEq, Repr

/-- A call on an MSHR that is not on the free list. -/
def call : Call → Result (Answer × MSHR)
  | .allocate .. => .error .assertion
  | .allocateTarget pkt curTick whenReady order alloc_on_fill =>
    (m.allocateTarget pkt curTick whenReady order alloc_on_fill).map (.done, ·)
  | .handleSnoop pkt curTick order =>
    (m.handleSnoop pkt curTick order).map fun answer => (.snooped answer.1 answer.2.1, answer.2.2)
  | .setForward isForward => .ok (.done, { m with isForward := isForward })
  | .markInService pending_modified_resp => (m.markInService pending_modified_resp).map (.done, ·)
  | .recvTimingResp cmd hasSharers curTick =>
    (m.recvTimingResp cmd hasSharers curTick).map fun answer => (.served answer.1, answer.2)
  | .setDownstreamPending => m.setDownstreamPending.map (.done, ·)
  | .clearDownstreamPending => m.clearDownstreamPending.map (.done, ·)
  | .setAbove mshr pending => .ok (.done, { m with above := m.above.set mshr pending })

variable {m} {pkt}

/-- The MSHR serving calls. While it is free it can only be allocated. -/
def machine : Machine MSHR Call Answer where
  step m c :=
    match m.free, c with
    | true, .allocate pkt curTick when_ready order alloc_on_fill =>
      (m.allocate pkt curTick when_ready order alloc_on_fill).map (.done, ·)
    | true, _ => .error .dangling
    | false, c => m.call c

end MSHR

end Gem5
