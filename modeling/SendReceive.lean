import SendReceive.Lib.Box
import SendReceive.Lib.RegionTree
import SendReceive.Lib.RegionTreeMap
import SendReceive.Lib.Transition
import SendReceive.Lib.Lockstep
import SendReceive.Lib.Interleaving
import SendReceive.Lib.LastMax
import SendReceive.Lib.TruncatedAverage
import SendReceive.Lib.WeightedAverage
import SendReceive.Bisection
import SendReceive.Reachable
import SendReceive.Queries
import SendReceive.Dna
import SendReceive.NormalForm
import SendReceive.Replacement
import SendReceive.Wildcard
import SendReceive.MostUsed
import SendReceive.Hash
import SendReceive.Alternatives
import SendReceive.Generations
import SendReceive.SearchSpace
import SendReceive.Poller
import SendReceive.PollerRound
import SendReceive.RetiredActions
import SendReceive.Calls
import SendReceive.Server
import SendReceive.Client
import SendReceive.RoundTrips
import SendReceive.Forgetting
import SendReceive.Batch
import SendReceive.PayloadLength
import SendReceive.Timer
import SendReceive.ClientRun
import SendReceive.ClientProgress
import SendReceive.Completion
import SendReceive.PollTimeout
import SendReceive.Pacing
import SendReceive.Window
import SendReceive.System
import SendReceive.Fleet
import SendReceive.Acknowledgements
import SendReceive.Timestamps
import SendReceive.Indistinguishable
import SendReceive.OpenLoop
import SendReceive.Timeouts
import SendReceive.Survival
import SendReceive.Robustness
import SendReceive.Delivery
import SendReceive.Statistics
import SendReceive.Programs
import SendReceive.Optimised
import SendReceive.Descriptors
import SendReceive.Ezio
