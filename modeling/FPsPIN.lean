import FPsPIN.Lib.Run
import FPsPIN.Lib.PriorityEncoder
import FPsPIN.Lib.LinkedQueues
import FPsPIN.CommonCells
import FPsPIN.Config
import FPsPIN.FifoEngine.Model
import FPsPIN.FifoEngine.Invariant
import FPsPIN.FifoEngine.Refinement
import FPsPIN.FifoEngine.Reservation
import FPsPIN.MpqEngine.Fsm
import FPsPIN.MpqEngine.Model
import FPsPIN.MpqEngine.Pipeline
import FPsPIN.MpqEngine.Bookkeeping
import FPsPIN.MpqEngine.Stranded
import FPsPIN.MpqEngine.Message
import FPsPIN.MpqEngine.Ordering
import FPsPIN.MpqEngine.Release
import FPsPIN.MpqEngine.Counters
import FPsPIN.MpqEngine.TaskOutput
import FPsPIN.Lib.RoundRobin
import FPsPIN.RrArbTree.Tree
import FPsPIN.RrArbTree.Arbiter
import FPsPIN.MpqEngine.Arbitration
import FPsPIN.HpuDriver.TaskFrontend
import FPsPIN.HpuDriver.CmdFrontend
import FPsPIN.HpuDriver.CommandIds
import FPsPIN.HpuDriver.CmdTest
import FPsPIN.HpuDriver.Driver
import FPsPIN.HpuDriver.DriverRuns
import FPsPIN.HpuDriver.Handle
import FPsPIN.HpuDriver.Feedback
import FPsPIN.Lib.LatencyFifo
import FPsPIN.PktAlloc.Model
import FPsPIN.PktAlloc.SlotSafety
import FPsPIN.PktAlloc.Descriptors
import FPsPIN.Ingress.HerGen
import FPsPIN.Ingress.IngressDma
import FPsPIN.Ingress.HerDelivery
import FPsPIN.PktMatch.Model
import FPsPIN.PktMatch.Tracking
import FPsPIN.PktMatch.Phases
import FPsPIN.PktMatch.Stream
import FPsPIN.PktMatch.Progress
import FPsPIN.PktMatch.Preservation
import FPsPIN.Ingress.Datapath
import FPsPIN.Ingress.Pairing
import FPsPIN.Lib.Ring
import FPsPIN.Lib.Ranges
import FPsPIN.ClusterScheduler.ClusterRb
import FPsPIN.ClusterScheduler.RbInvariant
import FPsPIN.ClusterScheduler.RbShim
import FPsPIN.ClusterScheduler.Scheduler
import FPsPIN.ClusterScheduler.BufferSafety
import FPsPIN.ClusterScheduler.Dispatch
import FPsPIN.Lib.Bytes
import FPsPIN.Lib.Trace
import FPsPIN.HostReq.Flag
import FPsPIN.Slmp.Packets
import FPsPIN.Slmp.Sender
import FPsPIN.Slmp.Handlers
import FPsPIN.Slmp.Reassembly
import FPsPIN.PktMatch.Classification
import FPsPIN.Driver.Registers
import FPsPIN.Driver.Model
import FPsPIN.Driver.Reconfiguration
import FPsPIN.Driver.HostMemory
import FPsPIN.Driver.Mappings
import FPsPIN.Loader.Model
import FPsPIN.Loader.Rulesets
import FPsPIN.Loader.SlmpClassification
import FPsPIN.Loader.Contexts
import FPsPIN.HostReq.Model
import FPsPIN.HostReq.Requests
import FPsPIN.HostReq.Protocol
import FPsPIN.HostReq.Startup
import FPsPIN.Runtime.RwLock
import FPsPIN.Scheduler.Delivery
import FPsPIN.HostMem.HostWrite
import FPsPIN.HostMem.ImmSize
import FPsPIN.HostMem.ReadAnswers
import FPsPIN.HostMem.Responses
import FPsPIN.CmdUnit.Contract
import FPsPIN.CmdUnit.Arbiters
import FPsPIN.ClusterScheduler.RbAdmission
import FPsPIN.PktMatch.NeutralRules
import FPsPIN.PktMatch.Padding
import FPsPIN.Lib.Headers
import FPsPIN.Lib.OnesComplement
import FPsPIN.Loader.RuleConstructors
import FPsPIN.Slmp.MessageQueues
import FPsPIN.Slmp.Segmentation
import FPsPIN.Slmp.Acks
import FPsPIN.Slmp.Network
import FPsPIN.Slmp.Window
import FPsPIN.Slmp.Service
import FPsPIN.Slmp.Socket
import FPsPIN.Slmp.HandlerMemory
import FPsPIN.Slmp.Checksum
import FPsPIN.Slmp.AckFrame
import FPsPIN.HpuDriver.Encoders
import FPsPIN.Driver.MemoryFile
import FPsPIN.Driver.FileCalls
import FPsPIN.Driver.AccessWindows
import FPsPIN.Driver.ReadDelivery
import FPsPIN.Driver.ContextIndices
import FPsPIN.IcmpPing.Checksum
import FPsPIN.RegsCompiler.Layout
import FPsPIN.RegsCompiler.RegisterFile
import FPsPIN.Stdout.ApbStdout
import FPsPIN.Ingress.SlotConservation
import FPsPIN.Simulator.PacketRing
import FPsPIN.Loader.ImageLoading
import FPsPIN.AxiDmaRd.Requests
