import TorchComms.AvlTree.Tree
import TorchComms.AvlTree.TreeRuns
import TorchComms.Memory.Placement
import TorchComms.Memory.UsableBuffers
import TorchComms.CommState.NvlTopology
import TorchComms.CtranIb.CtrlDelivery
import TorchComms.CtranIb.IssueOrder
import TorchComms.CtranIb.Chunking
import TorchComms.CtranIb.Draining
import TorchComms.CtranIb.NotifyAgreement
import TorchComms.Ibverbx.Charging
import TorchComms.Ibverbx.SprayNotify
import TorchComms.Ibverbx.DqplbNotify
import TorchComms.Ibverbx.Unsignaled
import TorchComms.Ibverbx.SendRecv
import TorchComms.Mapper.RegSession
import TorchComms.Mapper.TraceDump
import TorchComms.Mapper.NvlRelease
import TorchComms.Ncclx.Finalize
import TorchComms.Ncclx.GraphCapture
import TorchComms.Ncclx.AllocatorSegments
import TorchComms.CollTrace.Watchdog
import TorchComms.CollTrace.CommDumpRecords
import TorchComms.CollTrace.PastColls
import TorchComms.CollTrace.GenericMetadata
import TorchComms.CollTrace.HandleRuns
import TorchComms.Gpe.KernelOrder
import TorchComms.Gpe.Handshake
import TorchComms.Gpe.ElemOwnership
import TorchComms.Gpe.FailedSubmit
import TorchComms.Socket.SocketDelivery
import TorchComms.Transport.RdmaFutures
import TorchComms.Algos.BroadcastAgreement
import TorchComms.Algos.BroadcastNotify
import TorchComms.Algos.RingOutcome
import TorchComms.Algos.ReduceScatterOutcome
import TorchComms.Algos.AllGatherRecDbl
import TorchComms.Algos.BufManager
import TorchComms.Algos.GroupOutcome
import TorchComms.Algos.MultiPutOutcome
import TorchComms.Algos.BarrierOutcome
import TorchComms.Algos.PipelineOutcome
import TorchComms.Algos.RingCover
import TorchComms.Algos.RingBalance
import TorchComms.AllToAllvDedup.FwdAgreement
import TorchComms.AllToAllvDedup.ExecProgress
import TorchComms.AllToAllvDedup.ExecRequests
import TorchComms.AllToAllvDedup.PrepareOutcome
import TorchComms.AllToAllvDedup.ChunkLayout
import TorchComms.Ibverbx.VirtualQpRuns
import TorchComms.Ibverbx.QpCapacity
import TorchComms.Ibverbx.SendPartition
import TorchComms.Ibverbx.SendLimitsExact
import TorchComms.Ibverbx.VirtualCqPoll
import TorchComms.Ibverbx.DqplbSeqTracker
import TorchComms.Ibverbx.StatusFold
import TorchComms.Ibverbx.RelocationRuns
import TorchComms.Ibverbx.BusinessCard
import TorchComms.Ibverbx.DeviceFilter
import TorchComms.Socket.BootstrapEnds
import TorchComms.Algos.SendRecvExit
import TorchComms.Algos.StridedOutcome
import TorchComms.Algos.DeviceCopiesExact
import TorchComms.Ncclx.Window
import TorchComms.Algos.DeviceBcastExact
