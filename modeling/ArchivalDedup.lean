import ArchivalDedup.Library.FiniteTable
import ArchivalDedup.Library.ByteMap
import ArchivalDedup.Library.ConsecutiveRun
import ArchivalDedup.Library.Interleaving
import ArchivalDedup.Library.BufferedStream
import ArchivalDedup.Library.LittleEndian
import ArchivalDedup.Library.Simulation
import ArchivalDedup.MetaIndex
import ArchivalDedup.WriteDedup
import ArchivalDedup.PlanShape
import ArchivalDedup.Ledger
import ArchivalDedup.LedgerMoves
import ArchivalDedup.LedgerPublication
import ArchivalDedup.LedgerPasses
import ArchivalDedup.ReadDedup
import ArchivalDedup.Passthrough
import ArchivalDedup.LoopFrames
import ArchivalDedup.LedgerLoops
import ArchivalDedup.Threads
import ArchivalDedup.ThreadLedger
import ArchivalDedup.FlushRuns
import ArchivalDedup.ReadBlocks
import ArchivalDedup.WordOffsets
import ArchivalDedup.ReferenceSafety
import ArchivalDedup.SlotAccounting
import ArchivalDedup.Content
import ArchivalDedup.ReadSnapshots
import ArchivalDedup.Extents
import ArchivalDedup.SequentialWrite
import ArchivalDedup.FailedWrite
import ArchivalDedup.Persistence
import ArchivalDedup.Remount
import ArchivalDedup.SequentialRun
import ArchivalDedup.RemountSafety
import ArchivalDedup.MappedHashes
import ArchivalDedup.BlockRefinement
import ArchivalDedup.BatchedRead
import ArchivalDedup.WordRead
import ArchivalDedup.CoalescedFlush
import ArchivalDedup.WordFlush
import ArchivalDedup.WriteShape
import ArchivalDedup.HandlerEffects
import ArchivalDedup.ShortReads
import ArchivalDedup.ExactRequests
import ArchivalDedup.SettledWrites
import ArchivalDedup.EqualWrites
import ArchivalDedup.SplitWrites
import ArchivalDedup.PerfectDedup
import ArchivalDedup.BatchedRemoval
import ArchivalDedup.BufferedFile
import ArchivalDedup.BufferedWriter
import ArchivalDedup.BufferedReader
import ArchivalDedup.ElementMemory
import ArchivalDedup.BufferedLoad
import ArchivalDedup.ElementDecoding
import ArchivalDedup.CutFiles
import ArchivalDedup.SavedElements
import ArchivalDedup.SyscallCounter
import ArchivalDedup.Library.EffectTrace
import ArchivalDedup.Linearization
import ArchivalDedup.AtomicCalls
import ArchivalDedup.Library.Descent
import ArchivalDedup.Progress
import ArchivalDedup.MasterExtent
import ArchivalDedup.Sessions
import ArchivalDedup.BufferedSave
import ArchivalDedup.Library.HeapLog
import ArchivalDedup.MemorySafety
import ArchivalDedup.Library.Reduction
import ArchivalDedup.LockedSections
import ArchivalDedup.SectionLedger
import ArchivalDedup.SectionMoves
import ArchivalDedup.SectionReduction
import ArchivalDedup.CounterReport
import ArchivalDedup.FewestCalls
import ArchivalDedup.KilledUnmount
import ArchivalDedup.LockProgress
