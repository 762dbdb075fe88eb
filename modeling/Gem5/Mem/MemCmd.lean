import Mathlib.Data.List.Basic

namespace Gem5

/-- `MemCmd::Command`. -/
inductive MemCmd where
  | InvalidCmd | ReadReq | ReadResp | ReadRespWithInvalidate | WriteReq | WriteResp | WritebackDirty
  | WritebackClean | CleanEvict | SoftPFReq | HardPFReq | SoftPFResp | HardPFResp | WriteLineReq | UpgradeReq
  | SCUpgradeReq | UpgradeResp | SCUpgradeFailReq | UpgradeFailResp | ReadExReq | ReadExResp | ReadCleanReq
  | ReadSharedReq | LoadLockedReq | StoreCondReq | StoreCondFailReq | StoreCondResp | SwapReq | SwapResp
  | MessageReq | MessageResp | MemFenceReq | MemFenceResp | InvalidDestError | BadAddressError
  | FunctionalReadError | FunctionalWriteError | PrintReq | FlushReq | InvalidateReq | InvalidateResp
  deriving DecidableEq, Repr

namespace MemCmd

inductive Attribute where
  | IsRead | IsWrite | IsUpgrade | IsInvalidate | NeedsWritable | IsRequest | IsResponse | NeedsResponse
  | IsEviction | IsSWPrefetch | IsHWPrefetch | IsLlsc | HasData | IsError | IsPrint | IsFlush | FromCache
  deriving DecidableEq, Repr

/-- `CommandInfo`, without the name that is printed. -/
structure CommandInfo where
  attributes : List Attribute
  response : MemCmd

def commandInfo : MemCmd → CommandInfo
  | InvalidCmd => ⟨[], InvalidCmd⟩
  | ReadReq => ⟨[.IsRead, .IsRequest, .NeedsResponse], ReadResp⟩
  | ReadResp => ⟨[.IsRead, .IsResponse, .HasData], InvalidCmd⟩
  | ReadRespWithInvalidate => ⟨[.IsRead, .IsResponse, .HasData, .IsInvalidate], InvalidCmd⟩
  | WriteReq => ⟨[.IsWrite, .NeedsWritable, .IsRequest, .NeedsResponse, .HasData], WriteResp⟩
  | WriteResp => ⟨[.IsWrite, .IsResponse], InvalidCmd⟩
  | WritebackDirty => ⟨[.IsWrite, .IsRequest, .IsEviction, .HasData, .FromCache], InvalidCmd⟩
  | WritebackClean => ⟨[.IsWrite, .IsRequest, .IsEviction, .HasData, .FromCache], InvalidCmd⟩
  | CleanEvict => ⟨[.IsRequest, .IsEviction, .FromCache], InvalidCmd⟩
  | SoftPFReq => ⟨[.IsRead, .IsRequest, .IsSWPrefetch, .NeedsResponse], SoftPFResp⟩
  | HardPFReq => ⟨[.IsRead, .IsRequest, .IsHWPrefetch, .NeedsResponse, .FromCache], HardPFResp⟩
  | SoftPFResp => ⟨[.IsRead, .IsResponse, .IsSWPrefetch, .HasData], InvalidCmd⟩
  | HardPFResp => ⟨[.IsRead, .IsResponse, .IsHWPrefetch, .HasData], InvalidCmd⟩
  | WriteLineReq => ⟨[.IsWrite, .NeedsWritable, .IsRequest, .NeedsResponse, .HasData], WriteResp⟩
  | UpgradeReq => ⟨[.IsInvalidate, .NeedsWritable, .IsUpgrade, .IsRequest, .NeedsResponse, .FromCache], UpgradeResp⟩
  | SCUpgradeReq => ⟨[.IsInvalidate, .NeedsWritable, .IsUpgrade, .IsLlsc, .IsRequest, .NeedsResponse, .FromCache],
      UpgradeResp⟩
  | UpgradeResp => ⟨[.IsUpgrade, .IsResponse], InvalidCmd⟩
  | SCUpgradeFailReq => ⟨[.IsRead, .NeedsWritable, .IsInvalidate, .IsLlsc, .IsRequest, .NeedsResponse, .FromCache],
      UpgradeFailResp⟩
  | UpgradeFailResp => ⟨[.IsRead, .IsResponse, .HasData], InvalidCmd⟩
  | ReadExReq => ⟨[.IsRead, .NeedsWritable, .IsInvalidate, .IsRequest, .NeedsResponse, .FromCache], ReadExResp⟩
  | ReadExResp => ⟨[.IsRead, .IsResponse, .HasData], InvalidCmd⟩
  | ReadCleanReq => ⟨[.IsRead, .IsRequest, .NeedsResponse, .FromCache], ReadResp⟩
  | ReadSharedReq => ⟨[.IsRead, .IsRequest, .NeedsResponse, .FromCache], ReadResp⟩
  | LoadLockedReq => ⟨[.IsRead, .IsLlsc, .IsRequest, .NeedsResponse], ReadResp⟩
  | StoreCondReq => ⟨[.IsWrite, .NeedsWritable, .IsLlsc, .IsRequest, .NeedsResponse, .HasData], StoreCondResp⟩
  | StoreCondFailReq => ⟨[.IsWrite, .NeedsWritable, .IsLlsc, .IsRequest, .NeedsResponse, .HasData], StoreCondResp⟩
  | StoreCondResp => ⟨[.IsWrite, .IsLlsc, .IsResponse], InvalidCmd⟩
  | SwapReq => ⟨[.IsRead, .IsWrite, .NeedsWritable, .IsRequest, .HasData, .NeedsResponse], SwapResp⟩
  | SwapResp => ⟨[.IsRead, .IsWrite, .IsResponse, .HasData], InvalidCmd⟩
  | MessageReq => ⟨[.IsWrite, .IsRequest, .NeedsResponse, .HasData], MessageResp⟩
  | MessageResp => ⟨[.IsWrite, .IsResponse], InvalidCmd⟩
  | MemFenceReq => ⟨[.IsRequest, .NeedsResponse], MemFenceResp⟩
  | MemFenceResp => ⟨[.IsResponse], InvalidCmd⟩
  | InvalidDestError => ⟨[.IsResponse, .IsError], InvalidCmd⟩
  | BadAddressError => ⟨[.IsResponse, .IsError], InvalidCmd⟩
  | FunctionalReadError => ⟨[.IsRead, .IsResponse, .IsError], InvalidCmd⟩
  | FunctionalWriteError => ⟨[.IsWrite, .IsResponse, .IsError], InvalidCmd⟩
  | PrintReq => ⟨[.IsRequest, .IsPrint], InvalidCmd⟩
  | FlushReq => ⟨[.IsRequest, .IsFlush, .NeedsWritable], InvalidCmd⟩
  | InvalidateReq => ⟨[.IsInvalidate, .IsRequest, .NeedsWritable, .NeedsResponse, .FromCache], InvalidateResp⟩
  | InvalidateResp => ⟨[.IsInvalidate, .IsResponse], InvalidCmd⟩

variable (cmd : MemCmd)

def testCmdAttrib (attrib : Attribute) : Bool := (commandInfo cmd).attributes.contains attrib

def isRead : Bool := cmd.testCmdAttrib .IsRead
def isWrite : Bool := cmd.testCmdAttrib .IsWrite
def isUpgrade : Bool := cmd.testCmdAttrib .IsUpgrade
def isRequest : Bool := cmd.testCmdAttrib .IsRequest
def isSWPrefetch : Bool := cmd.testCmdAttrib .IsSWPrefetch
def isError : Bool := cmd.testCmdAttrib .IsError
def needsWritable : Bool := cmd.testCmdAttrib .NeedsWritable
def needsResponse : Bool := cmd.testCmdAttrib .NeedsResponse
def isInvalidate : Bool := cmd.testCmdAttrib .IsInvalidate
def hasData : Bool := cmd.testCmdAttrib .HasData
def isPrint : Bool := cmd.testCmdAttrib .IsPrint

theorem isPrint_of_isRead {cmd : MemCmd} (h : cmd.isRead = true) : cmd.isPrint = false := by
  cases cmd <;> first | rfl | cases h

theorem isPrint_of_isWrite {cmd : MemCmd} (h : cmd.isWrite = true) : cmd.isPrint = false := by
  cases cmd <;> first | rfl | cases h

def responseCommand : MemCmd := (commandInfo cmd).response

end MemCmd

end Gem5
