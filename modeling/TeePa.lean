import TeePa.Runs
import TeePa.CStrings
import TeePa.BoundedFifo
import TeePa.KernelRing
import TeePa.RingRaces
import TeePa.KernelClient
import TeePa.DeviceRuns
import TeePa.ExactBatch
import TeePa.CollectTa
import TeePa.Texts
import TeePa.Receiver
import TeePa.RecordKinds
import TeePa.Segmentation
import TeePa.Transport
import TeePa.Heartbeat
import TeePa.Rounds
import TeePa.HeartbeatRuns
import TeePa.HeartbeatThreads
import TeePa.Deadlines
import TeePa.ExpiryPass
import TeePa.TokenRuns
import TeePa.HeartbeatAnswers
import TeePa.Threads
import TeePa.SavedLogs
import TeePa.SpadeServer
import TeePa.Consumers
import TeePa.HeartbeatLoop
import TeePa.DeviceIsolation
import TeePa.Enrollment
import TeePa.BadRecords
import TeePa.Ledger
import TeePa.TeeLedger
import TeePa.CollectSessions
import TeePa.MemoryIntrospection
import TeePa.KernelIntegrity
import TeePa.Kauditd
import TeePa.SlidingQueue
import TeePa.ReceiverThreads
import TeePa.ReceiverDeques
import TeePa.ReceiverOutputs
import TeePa.Detection
import TeePa.Coverage
import TeePa.Renewals
import TeePa.Process
import TeePa.Heeded
import TeePa.Batches
import TeePa.Connections
import TeePa.EndToEnd
import TeePa.Journeys
import TeePa.Deliveries
import TeePa.AnswerPath
import TeePa.Leaks
import TeePa.Hosts
import TeePa.Purging
import TeePa.Tampering
