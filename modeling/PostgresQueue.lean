import PostgresQueue.Library.KeyedTable
import PostgresQueue.Library.KeyedWrites
import PostgresQueue.Library.ListAt
import PostgresQueue.Library.LockOrder
import PostgresQueue.Library.OrderedDict
import PostgresQueue.Library.Transition
import PostgresQueue.Library.Rounding
import PostgresQueue.Library.Control
import PostgresQueue.Models
import PostgresQueue.Client
import PostgresQueue.Reaper
import PostgresQueue.ChildResult
import PostgresQueue.Worker
import PostgresQueue.TaskSystem
import PostgresQueue.TaskSteps
import PostgresQueue.RowForm
import PostgresQueue.RunIdentity
import PostgresQueue.LiveRuns
import PostgresQueue.AtMostOnce
import PostgresQueue.NoLostUpdate
import PostgresQueue.Parking
import PostgresQueue.UpsertBatch
import PostgresQueue.ChildProcess
import PostgresQueue.FinishedRuns
import PostgresQueue.Periodic
import PostgresQueue.PeriodicSystem
import PostgresQueue.NonOverlap
import PostgresQueue.PeriodicRelease
import PostgresQueue.LockWindow
import PostgresQueue.ScheduleClaims
import PostgresQueue.WorkerPaths
import PostgresQueue.Shutdown
import PostgresQueue.WorkerLoop
import PostgresQueue.ChildLedger
import PostgresQueue.Consistency
import PostgresQueue.Bookkeeping
import PostgresQueue.DrainSafety
import PostgresQueue.BatchLocks
import PostgresQueue.ReaperLocks
import PostgresQueue.ConnectionPools
import PostgresQueue.TaskRuns
import PostgresQueue.RunRefinement
import PostgresQueue.OutcomeTexts
import PostgresQueue.RecordedOutcome
import PostgresQueue.LosslessJson
import PostgresQueue.EncodablePayloads
import PostgresQueue.Registry
import PostgresQueue.RuntimeLimits
import PostgresQueue.ReaperRows
import PostgresQueue.TickOnce
import PostgresQueue.DrainOrder
import PostgresQueue.FailedReasons
import PostgresQueue.PipeDescriptors
import PostgresQueue.Library.Pipe
import PostgresQueue.Library.Utf8
import PostgresQueue.ErrorPipe
import PostgresQueue.ErrorText
import PostgresQueue.WaitBounds
import PostgresQueue.WaitRefinement
import PostgresQueue.Transactions
import PostgresQueue.Mailboxes
import PostgresQueue.Fleet
import PostgresQueue.WorkerAccounts
import PostgresQueue.FleetAccounts
import PostgresQueue.FleetTables
import PostgresQueue.GracefulExit
import PostgresQueue.RowHolders
import PostgresQueue.MaintenanceErrors
import PostgresQueue.ShutdownSteps
import PostgresQueue.ShutdownEnds
import PostgresQueue.ScheduleBook
import PostgresQueue.ScheduleRemoval
import PostgresQueue.Library.Ddl
import PostgresQueue.Migrations
import PostgresQueue.MigrationRuns
import PostgresQueue.JsonbColumn
import PostgresQueue.Deliveries
import PostgresQueue.ClosedRows
import PostgresQueue.RowOutcomes
import PostgresQueue.ScheduleDeliveries
import PostgresQueue.HostProcesses
import PostgresQueue.ProcessGroups
import PostgresQueue.KillCalls
import PostgresQueue.WorkerFrame
import PostgresQueue.LockCycles
import PostgresQueue.Lookups
