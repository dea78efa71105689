import MorphlingC.Library.Machine
import MorphlingC.Library.Schedules
import MorphlingC.Library.Linearizable
import MorphlingC.Library.Quorum
import MorphlingC.Library.Store
import MorphlingC.Library.Tally
import MorphlingC.Library.Intake
import MorphlingC.Library.ByteOrder
import MorphlingC.Library.MsgPack
import MorphlingC.Library.MsgPackRead
import MorphlingC.Library.EvenSplit
import MorphlingC.Library.GrowVector
import MorphlingC.Model.Guidance
import MorphlingC.Model.Message
import MorphlingC.Model.Log
import MorphlingC.Model.Vote
import MorphlingC.Model.Smr
import MorphlingC.Model.Group
import MorphlingC.Model.Replica
import MorphlingC.Model.Cluster
import MorphlingC.Model.Linked
import MorphlingC.Model.Client
import MorphlingC.Model.Deployment
import MorphlingC.Model.Connect
import MorphlingC.Model.Framing
import MorphlingC.Model.Encoders
import MorphlingC.Model.Packing
import MorphlingC.Model.Unpacking
import MorphlingC.Model.Wired
import MorphlingC.Model.Datagrams
import MorphlingC.Model.LogVector
import MorphlingC.Model.Server
import MorphlingC.Interface.AppendSpec
import MorphlingC.Interface.LogMatching
import MorphlingC.Interface.ReplySpec
import MorphlingC.Interface.StoreService
import MorphlingC.Analysis.Handlers
import MorphlingC.Analysis.VoteTally
import MorphlingC.Analysis.VoteAnswers
import MorphlingC.Analysis.SoleAppender
import MorphlingC.Analysis.FreshVotes
import MorphlingC.Analysis.AppendMerge
import MorphlingC.Analysis.VerifiedLogs
import MorphlingC.Analysis.CommitRuns
import MorphlingC.Analysis.OneOwner
import MorphlingC.Analysis.GroupRuns
import MorphlingC.Analysis.Stragglers
import MorphlingC.Analysis.ReplicaHandlers
import MorphlingC.Analysis.ReplyRouting
import MorphlingC.Analysis.ClusterStep
import MorphlingC.Analysis.ClusterRuns
import MorphlingC.Analysis.LinkedRefinement
import MorphlingC.Analysis.WiredRefinement
import MorphlingC.Analysis.ServiceSocket
import MorphlingC.Analysis.DatagramRefinement
import MorphlingC.Analysis.InOrder
import MorphlingC.Analysis.LinkedStep
import MorphlingC.Analysis.LinkedRuns
import MorphlingC.Analysis.ServiceRefinement
import MorphlingC.Analysis.GuidanceRead
import MorphlingC.Analysis.ClientTurns
import MorphlingC.Analysis.PeerConnections
import MorphlingC.Analysis.FrameReads
import MorphlingC.Analysis.FrameCodec
import MorphlingC.Analysis.MessageSizes
import MorphlingC.Analysis.MessageCodec
import MorphlingC.Analysis.SmallMessages
import MorphlingC.Analysis.UnknownFrames
import MorphlingC.Analysis.KeyPartition
import MorphlingC.Analysis.Linearizability
import MorphlingC.Analysis.DeploymentSteps
import MorphlingC.Analysis.DeploymentStore
import MorphlingC.Analysis.DeploymentCounts
import MorphlingC.Analysis.DeploymentProgress
import MorphlingC.Analysis.FairRuns
import MorphlingC.Analysis.LogGrowth
import MorphlingC.Analysis.LogIndices
import MorphlingC.Analysis.Broadcasts
import MorphlingC.Analysis.ClientConnections
