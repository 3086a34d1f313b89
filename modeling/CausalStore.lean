import CausalStore.Http.Service
import CausalStore.Main
import CausalStore.Simulation.Cluster
import CausalStore.Proofs.ClockJoin
import CausalStore.Proofs.ClockComparison
import CausalStore.Proofs.Joining
import CausalStore.Proofs.Authority
import CausalStore.Proofs.Confluence
import CausalStore.Proofs.Recovery
import CausalStore.Proofs.Identities
import CausalStore.Proofs.Introductions
import CausalStore.Proofs.Rosters
import CausalStore.Proofs.EngineRuns
import CausalStore.Proofs.Applications
import CausalStore.Proofs.Redelivery
import CausalStore.Proofs.Accounts
import CausalStore.Proofs.Replay
import CausalStore.Proofs.LearnedPeers
import CausalStore.Proofs.Reconciliation
import CausalStore.Proofs.Refusals
import CausalStore.Proofs.Postings
import CausalStore.Proofs.Handshakes
import CausalStore.Proofs.JoinAttempts
import CausalStore.Proofs.Pairing
import CausalStore.Proofs.PeerLists
import CausalStore.Proofs.SeedChoice
import CausalStore.Proofs.Stations
import CausalStore.Proofs.Workloads
import CausalStore.Proofs.Members
import CausalStore.Proofs.Traffic
import CausalStore.Proofs.Punctuality
import CausalStore.Proofs.Rounds
import CausalStore.Proofs.Schedules
import CausalStore.Proofs.Wire.Literals
import CausalStore.Proofs.Wire.TreeTexts
import CausalStore.Proofs.Wire.Depictions
import CausalStore.Proofs.Wire.Written
import CausalStore.Proofs.Wire.MessageLayouts
import CausalStore.Proofs.Wire.RoundTrip
import CausalStore.Proofs.Wire.Cuts
import CausalStore.Proofs.Wire.Truncation
