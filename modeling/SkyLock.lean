import SkyLock.Lib.Run
import SkyLock.Lib.Path
import SkyLock.Lib.Service
import SkyLock.Lib.Text
import SkyLock.Lib.Map
import SkyLock.Lib.Replication
import SkyLock.Lib.Schedule
import SkyLock.Store.Sequence
import SkyLock.Store.Basic
import SkyLock.Store.Tree
import SkyLock.Store.Ops
import SkyLock.Store.Laws
import SkyLock.Store.Sequential
import SkyLock.Store.Closure
import SkyLock.Store.Children
import SkyLock.Store.Versions
import SkyLock.Store.Namespace
import SkyLock.Watch.Manager
import SkyLock.Watch.Delivery
import SkyLock.Watch.Wiring
import SkyLock.Watch.Soundness
import SkyLock.Session.Manager
import SkyLock.Session.Lifecycle
import SkyLock.Lock.Basic
import SkyLock.Lock.Effect
import SkyLock.Lock.Queue
import SkyLock.Lock.Exclusion
import SkyLock.Lock.Fairness
import SkyLock.Lock.WakeUp
import SkyLock.Lock.Cleanup
import SkyLock.Lock.Decode
import SkyLock.Lock.Release
import SkyLock.Lock.Acquire
import SkyLock.Lock.HandOver
import SkyLock.Raft.Log
import SkyLock.Raft.State
import SkyLock.Raft.Node
import SkyLock.Raft.Replicate
import SkyLock.Raft.Effect
import SkyLock.Raft.Calls
import SkyLock.Raft.NextIndex
import SkyLock.Raft.Voting
import SkyLock.Raft.Leadership
import SkyLock.Raft.Election
import SkyLock.Raft.Apply
import SkyLock.Raft.Stability
import SkyLock.Raft.AppendEntries
import SkyLock.Raft.CatchUp
import SkyLock.Raft.Quorum
import SkyLock.Raft.Refinement
import SkyLock.Raft.Simulation
import SkyLock.Raft.Replay
import SkyLock.Raft.Safety
import SkyLock.Raft.Agreement
import SkyLock.Raft.Hints
import SkyLock.Raft.Matching
import SkyLock.Raft.Campaign
import SkyLock.Raft.Liveness
import SkyLock.Transport.Connections
import SkyLock.Server.Basic
import SkyLock.Server.Handlers
import SkyLock.Lock.Info
import SkyLock.Server.Ephemerals
import SkyLock.Server.Nodes
import SkyLock.Server.Cluster
import SkyLock.Server.Unreplicated
import SkyLock.Server.Locks
import SkyLock.Server.Turns
import SkyLock.Server.Flags
import SkyLock.Client.KeepAlive
