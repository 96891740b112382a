import DistDB.ConsensusRuns
import DistDB.WalRuns
import DistDB.EngineCrash
import DistDB.TxnVote
import DistDB.NodeInstall
import DistDB.NodeVotes
import DistDB.TxnRelease
import DistDB.SqlRouting
import DistDB.Replicas
import DistDB.ElectionRuns
import DistDB.ClusterProposals
import DistDB.Wire
import DistDB.Dispatch
import DistDB.EngineSnapshot
import DistDB.SqlFrame
import DistDB.SqlReapply
import DistDB.SqlScatter
import DistDB.TxnAgreement
import DistDB.SqlAlter
import DistDB.NodeOrder
import DistDB.NodeCrash
import DistDB.ClientWrites
import DistDB.LogCalls
import DistDB.LogDelivery
import DistDB.Redelivery
import DistDB.CommitRule
import DistDB.TxnOnce
import DistDB.Overwrites
import DistDB.MembershipFold
import DistDB.ApplyErrors
import DistDB.SelfRemoval
import DistDB.ClusterReplication
import DistDB.TxnCalls
import DistDB.Routing
import DistDB.Failover
import DistDB.MembershipRuns
import DistDB.LogFile
import DistDB.SqlInts
import DistDB.SqlKeys
import DistDB.SqlSchemas
import DistDB.ReadRequests
import DistDB.SqlEncodings
import DistDB.SnapshotDamage
import DistDB.SstMap
import DistDB.WalCorruption
import DistDB.PeerReads
import DistDB.AutoQualify
import DistDB.SqlPositions
import DistDB.ShardedReads
import DistDB.ClusterStates
import DistDB.RemoteCalls
import DistDB.Console
import DistDB.SqlReplicas
import DistDB.TxnSerial
import DistDB.Window
import DistDB.ShellCalls
