import Osvcp.Lib.FifoMap
import Osvcp.Lib.Framer
import Osvcp.Lib.LineBuffer
import Osvcp.Lib.Lines
import Osvcp.Lib.LinkedList
import Osvcp.Lib.Messages
import Osvcp.Lib.Ownership
import Osvcp.Lib.Path
import Osvcp.Lib.PolledLoop
import Osvcp.Lib.ReadThrough
import Osvcp.Lib.SelectLoop
import Osvcp.Lib.SelectPass
import Osvcp.Lib.Text
import Osvcp.Lib.Threads
import Osvcp.Lib.Transition
import Osvcp.Semaphores.NsMutex
import Osvcp.Semaphores.NsMutexSafety
import Osvcp.Semaphores.NsMutexQueue
import Osvcp.Semaphores.ReaderWriter
import Osvcp.Semaphores.ReaderWriterSafety
import Osvcp.Semaphores.ReaderWriterNoStarve
import Osvcp.Semaphores.ReaderWriterTurnstile
import Osvcp.Semaphores.ReaderWriterOvertaking
import Osvcp.Semaphores.Zemaphore
import Osvcp.Semaphores.ZemaphoreSafety
import Osvcp.Semaphores.ZemaphoreRefinement
import Osvcp.Semaphores.Barrier
import Osvcp.Semaphores.ReaderWriterStarvation
import Osvcp.Semaphores.Completion
import Osvcp.Semaphores.NsMutexWorkers
import Osvcp.Counters.SloppyCounter
import Osvcp.Counters.SloppyCounterSafety
import Osvcp.Counters.SloppyCounterGet
import Osvcp.Counters.SloppyCounterGlobal
import Osvcp.Counters.SloppyCounterLaw
import Osvcp.Counters.SloppyCounterSnapshot
import Osvcp.Servers.Framing
import Osvcp.Servers.RustFraming
import Osvcp.Servers.Wire
import Osvcp.Servers.Responses
import Osvcp.Servers.DocRoot
import Osvcp.Servers.Cache
import Osvcp.Servers.FileCache
import Osvcp.Servers.FileServer
import Osvcp.Servers.TimeServer
import Osvcp.Servers.ClientTable
import Osvcp.Servers.TimeServerSurvival
import Osvcp.Servers.TimeServerAnswers
import Osvcp.Servers.RustFileServer
import Osvcp.Servers.Freshness
import Osvcp.Servers.FlushSignal
import Osvcp.Servers.TokioServer
import Osvcp.Servers.TokioRaces
import Osvcp.Servers.AioServer
import Osvcp.Servers.AioBody
import Osvcp.Servers.Containment
import Osvcp.Servers.AioSlots
import Osvcp.Servers.AioStream
import Osvcp.Servers.AioIntegrity
import Osvcp.Servers.AioStranded
import Osvcp.Servers.AioFlush
import Osvcp.Servers.Transparency
import Osvcp.Servers.OneResponse
import Osvcp.Servers.RustOneResponse
import Osvcp.Servers.TokioLines
import Osvcp.Servers.TokioOneResponse
import Osvcp.Servers.AioRefinement
import Osvcp.Servers.AioOwnership
import Osvcp.Servers.AioStates
import Osvcp.Servers.AioHalfClose
import Osvcp.Servers.AioTransfer
import Osvcp.Servers.Protocol
import Osvcp.Servers.RustEventLoop
import Osvcp.Servers.RustTransparency
import Osvcp.Servers.RustContainment
import Osvcp.Servers.TokioTransparency
import Osvcp.Servers.Interchange
import Osvcp.Lib.TwoPhase
import Osvcp.Lib.Termination
import Osvcp.Lib.CallThreads
import Osvcp.Lib.CallSerial
import Osvcp.Vectors.VectorAdd
import Osvcp.Vectors.VectorAddCode
import Osvcp.Vectors.VectorAddSerial
import Osvcp.Vectors.VectorAddDeadlock
import Osvcp.Vectors.VectorAddTermination
import Osvcp.Vectors.VectorDeadlock
import Osvcp.Vectors.VectorNolock
import Osvcp.Vectors.VectorAgreement
import Osvcp.Counters.SharedCounter
import Osvcp.Counters.SloppyCounterCompletion
