import Gem5.Base.AddrRange.Interleaving
import Gem5.Base.AddrRangeMap.Decode
import Gem5.Base.AddrRangeMap.Plain
import Gem5.Base.ChunkGenerator
import Gem5.Base.TimeBuffer
import Gem5.Dev.PktFifo
import Gem5.Mem.Cache.FALRU.Lookup
import Gem5.Mem.Cache.LRU
import Gem5.Mem.Cache.MSHR.Flags
import Gem5.Mem.MemChecker.Assertions
import Gem5.Mem.MemChecker.Verdict
import Gem5.Mem.Packet
import Gem5.Mem.PageTable
import Gem5.Mem.Ruby.MessageBuffer.Capacity
import Gem5.Mem.Ruby.MessageBuffer.Reanalysis
import Gem5.Minor.Scoreboard
import Gem5.Minor.StoreBuffer
import Gem5.O3.InstQueue.Order
import Gem5.O3.LSQUnit.Forwarding
import Gem5.O3.LSQUnit.Violations
import Gem5.O3.MemDepUnit.Barriers
import Gem5.O3.Rename.Restore
import Gem5.Pred.BPredUnit.CommitDirection
import Gem5.Pred.BPredUnit.Ownership
import Gem5.Pred.BPredUnit.PathLength
import Gem5.Pred.BPredUnit.ReturnRecords
import Gem5.Pred.BPredUnit.ReturnStack
import Gem5.Pred.Bounds
import Gem5.Pred.Ensemble.GshareIndex
import Gem5.Pred.Ensemble.HistoryPath
import Gem5.Pred.Ensemble.Stats
import Gem5.Pred.Ensemble2.Convergence
import Gem5.Pred.GTriTournament.GshareIndex
import Gem5.Pred.Gshare
import Gem5.Pred.LTAGE.Allocation
import Gem5.Pred.LTAGE.LoopTable
import Gem5.Pred.LTAGE.PathHash
import Gem5.Pred.LTAGE.PlainSquash
import Gem5.Pred.LocalBP
import Gem5.Pred.Tournament.GlobalHistory
import Gem5.Pred.Tournament.LocalHistory
import Gem5.Sim.EventQueue.Order
