import PeerChat.Distribution.Network
import PeerChat.Distribution.RawClock
import PeerChat.Distribution.HandOver
import PeerChat.Distribution.Relay
import PeerChat.Distribution.Flooding
import PeerChat.Distribution.Payload
import PeerChat.Distribution.Drain
import PeerChat.Distribution.FirstUse
import PeerChat.Distribution.RetryQueue
import PeerChat.Distribution.Refusal
import PeerChat.Membership.Watched
import PeerChat.Membership.Threads
import PeerChat.Membership.Router
import PeerChat.Membership.Onboarding
import PeerChat.Membership.Redelivery
import PeerChat.Membership.EventIds
import PeerChat.Membership.Lifecycle
import PeerChat.Membership.Checkpoint
import PeerChat.Membership.Terms
import PeerChat.Membership.LocalUser
import PeerChat.Membership.Notifier
import PeerChat.Membership.Calls
import PeerChat.Membership.Acceptance
import PeerChat.Membership.Lag
import PeerChat.Membership.Discovery
import PeerChat.Membership.SeenEvents
import PeerChat.Membership.CheckpointFiles
import PeerChat.Membership.Fallback
import PeerChat.Membership.Detector
import PeerChat.Membership.Copies
import PeerChat.History.Recovery
import PeerChat.History.Partition
import PeerChat.History.NamedSnapshots
import PeerChat.History.Backlog
import PeerChat.History.Crash
import PeerChat.History.IndexFiles
import PeerChat.History.LogFile
import PeerChat.History.PeerRuntime
import PeerChat.History.ClockSync
import PeerChat.History.ReplayOrder
import PeerChat.History.StorageMessages
import PeerChat.History.IndexCache
import PeerChat.History.FailedSave
import PeerChat.History.SaveOrder
import PeerChat.Deploy.DnsRegistry
import PeerChat.Security.PayloadEncryption
import PeerChat.Harness.LiveReplay
import PeerChat.History.RecoveryFanout
import PeerChat.Membership.Bootstrap
import PeerChat.Deploy.Readiness
import PeerChat.Distribution.Links
import PeerChat.Distribution.CausalBroadcast
import PeerChat.Deploy.Cluster
import PeerChat.Membership.Silence
import PeerChat.Ui.PeerList
import PeerChat.Ui.Service
import PeerChat.Distribution.SendOrder
import PeerChat.History.RoomHistory
import PeerChat.Membership.Followers
