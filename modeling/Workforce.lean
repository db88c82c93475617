import Workforce.HeldOnce
import Workforce.JournalOrder
import Workforce.Restore
import Workforce.Waves
import Workforce.PoolIndexes
import Workforce.PlainPass
import Workforce.Proposals
import Workforce.Turns
import Workforce.Wakeups
import Workforce.ConsolidatePayloads
import Workforce.WorkerFrames
import Workforce.NeverFull
import Workforce.WebhookRuns
import Workforce.CancelTree
import Workforce.StoreLock
import Workforce.WebhookTimer
import Workforce.Aging
import Workforce.Boot
import Workforce.Publishing
import Workforce.LatestRelease
import Workforce.Confinement
import Workforce.Eviction
import Workforce.RejectedJobs
import Workforce.Pagination
import Workforce.RunOrder
import Workforce.LogReplay
import Workforce.Draining
import Workforce.Heartbeats
import Workforce.IdleWorkers
import Workforce.Window
