import BFTList.ForStd.Counter
import BFTList.ForStd.List
import BFTList.ForStd.Eviction
import BFTList.ForStd.Network
import BFTList.ForStd.Quorum
import BFTList.ForStd.SequentialLog
import BFTList.ForStd.Transition
import BFTList.ForStd.Fairness
import BFTList.ForStd.Channels
import BFTList.Native.Python
import BFTList.Native.ReplicaStructure
import BFTList.Native.Replication
import BFTList.Native.ViewChange
import BFTList.Native.ReplicationRun
import BFTList.Native.Predicates
import BFTList.Native.PrimaryMonitoring
import BFTList.Native.FailureDetector
import BFTList.Native.Udp
import BFTList.Spec.ReplicaStructure
import BFTList.Spec.ReplicationSteps
import BFTList.Spec.ReplicationNetwork
import BFTList.Spec.SequentialReplication
import BFTList.Spec.Reconcile
import BFTList.Spec.StableView
import BFTList.Spec.AtMostOnce
import BFTList.Spec.RateLimiter
import BFTList.Spec.Startup
import BFTList.Spec.Validity
import BFTList.Spec.Agreement
import BFTList.Spec.CommonState
import BFTList.Spec.NewView
import BFTList.Spec.ViewPairs
import BFTList.Spec.WitnessHistory
import BFTList.Spec.ViewAgreement
import BFTList.Spec.ViewSupport
import BFTList.Spec.ViewStability
import BFTList.Spec.PrimaryStatus
import BFTList.Spec.SupportedChange
import BFTList.Spec.MonitoredView
import BFTList.Spec.StatusMachine
import BFTList.Spec.SuspectedPrimary
import BFTList.Spec.SenderSlots
import BFTList.Spec.PendingRequests
import BFTList.Spec.Containers
import BFTList.Spec.NodeRuns
import BFTList.Spec.Completion
import BFTList.Spec.QueueBounds
import BFTList.Spec.ConsecutiveLog
import BFTList.Spec.StateInStep
import BFTList.Spec.AdoptedLog
import BFTList.Spec.CompatibleStates
import BFTList.Spec.QuorumCounts
import BFTList.Spec.PrePrepares
import BFTList.Spec.CheckedProposal
import BFTList.Spec.RenewedQueue
import BFTList.Spec.TokenLink
import BFTList.Spec.FaultFreeLink
import BFTList.Spec.NewPrimary
import BFTList.Spec.SequenceWindow
import BFTList.Spec.SurvivingRequests
import BFTList.Spec.LastCommonExec
import BFTList.Spec.LastRequests
import BFTList.Spec.FreshNumbers
import BFTList.Native.Processor
import BFTList.Spec.ProcessorNetwork
import BFTList.Spec.ProcessorStability
import BFTList.Spec.ProcessorAgreement
import BFTList.Spec.VotedOut
import BFTList.Spec.ViewRecovery
import BFTList.Native.EventDrivenFD
import BFTList.Spec.DetectorRounds
