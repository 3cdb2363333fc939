import MultiMLton.Lib.Interleave
import MultiMLton.Pacml.CircularQueue
import MultiMLton.Pacml.Lock
import MultiMLton.Pacml.Channel.Balance
import MultiMLton.Pacml.Event.Combinators
import MultiMLton.Pacml.Event.WrapHandler
import MultiMLton.Pacml.LiveThreads
import MultiMLton.Lib.Linearizability
import MultiMLton.Lib.PointerReversal
import MultiMLton.Pacml.ImpQueue
import MultiMLton.Pacml.SyncVar.Code
import MultiMLton.Pacml.SyncVar.Invariant
import MultiMLton.Pacml.SyncVar.OnePlace
import MultiMLton.Pacml.SyncVar.WriteOnce
import MultiMLton.Pacml.SyncVar.Waiters
import MultiMLton.Pacml.Channel.Network
import MultiMLton.Pacml.Channel.Moves
import MultiMLton.Pacml.Channel.Tokens
import MultiMLton.Pacml.Channel.ExactlyOnce
import MultiMLton.Pacml.Channel.SameEvent
import MultiMLton.Pacml.FunPriorityQueue
import MultiMLton.Pacml.Timeout
import MultiMLton.Lib.Ring
import MultiMLton.Runtime.SchedulerQueue
import MultiMLton.Runtime.Object
import MultiMLton.Runtime.DfsMark
import MultiMLton.Runtime.Generational
import MultiMLton.Pacml.Event.BlockHelper
import MultiMLton.Runtime.DfsSimulation
import MultiMLton.Runtime.DfsExact
import MultiMLton.Runtime.Cleanliness
import MultiMLton.Lib.OpenAddressing
import MultiMLton.Runtime.HashCons
import MultiMLton.Runtime.Processor
import MultiMLton.Runtime.ProcessorProgress
import MultiMLton.Runtime.Threadlet
import MultiMLton.Runtime.WriteBarrierArray
import MultiMLton.Runtime.QueueLock
import MultiMLton.Pacml.IdleLoop
import MultiMLton.Pacml.Multicast
import MultiMLton.Lib.Tiling
import MultiMLton.Runtime.SharedChunk
import MultiMLton.Runtime.WeakLinks
import MultiMLton.Runtime.Exclusivity
import MultiMLton.Runtime.Reclaim
import MultiMLton.Atoms.WordX
import MultiMLton.Atoms.Prim
import MultiMLton.Atoms.PrimMeaning
import MultiMLton.Atoms.PrimConsts
import MultiMLton.Atoms.PrimSound
import MultiMLton.Lib.DisjointSet
import MultiMLton.Backend.Rssa
import MultiMLton.Backend.Chunkify
import MultiMLton.Backend.ReturnsTo
import MultiMLton.Backend.ChunkifyCorrect
import MultiMLton.Lib.Folds
import MultiMLton.Lib.LoopForest
import MultiMLton.Backend.RssaSemantics
import MultiMLton.Lib.StepSystem
import MultiMLton.Ssa.Tree
import MultiMLton.Ssa.Semantics
import MultiMLton.Ssa.TypeCheck
import MultiMLton.Lib.Words
import MultiMLton.Basic.DominatorsCorrect
import MultiMLton.Basis.TaggedWord
import MultiMLton.Basis.IntInf
import MultiMLton.Basis.IntInfRep
import MultiMLton.Basis.IntInfLoops
import MultiMLton.Basis.IntInfOps
import MultiMLton.Basis.IntInfDivision
import MultiMLton.Basis.IntInfExact
import MultiMLton.Lib.Fuel
import MultiMLton.Basis.StringCvt
import MultiMLton.Basis.Numeral
import MultiMLton.Basis.IntegerText
import MultiMLton.Basis.IntInfText
import MultiMLton.Basis.ScanAgree
import MultiMLton.Basis.OutStream
import MultiMLton.Basis.InStream
import MultiMLton.Basis.InStreamChain
import MultiMLton.Basis.InStreamFunctional
import MultiMLton.MatchCompile.Constants
import MultiMLton.Ssa.DirectExp
import MultiMLton.Ssa.EqualEval
import MultiMLton.Ssa.PolyEqualCorrect
import MultiMLton.Pacml.CircularQueuePutBack
import MultiMLton.Pacml.LockQueue
import MultiMLton.Pacml.Channel.Queues
import MultiMLton.Pacml.LockRelease
import MultiMLton.Pacml.FunQueue
import MultiMLton.Pacml.Event.SelectDoitFn
import MultiMLton.Elaborate.Equality
import MultiMLton.Backend.ParallelMove
import MultiMLton.Pacml.NonBlocking
import MultiMLton.Runtime.HeapCreate
import MultiMLton.Runtime.HashConsTable
import MultiMLton.Runtime.StackGrowth
import MultiMLton.Backend.ImplementHandlersCorrect
import MultiMLton.Backend.LiveCorrect
import MultiMLton.Basis.FixedDivision
import MultiMLton.Basis.WordText
import MultiMLton.Basis.IntInfWords
import MultiMLton.Ssa.CommonArgCorrect
import MultiMLton.Ssa.LoopInvariantCorrect
import MultiMLton.Ssa.Simplify
import MultiMLton.Basic.StronglyConnected
import MultiMLton.Backend.SignalCheck
import MultiMLton.Ssa.MultiCorrect
import MultiMLton.Basis.Generate
import MultiMLton.Basis.SequenceConcat
import MultiMLton.Basis.SliceSearch
import MultiMLton.Basis.SliceRoundTrip
import MultiMLton.Basis.StreamExit
import MultiMLton.Runtime.ArrayAllocate
import MultiMLton.Elaborate.EqualitySolver
import MultiMLton.ClosureConvert.LambdaFreeCorrect
