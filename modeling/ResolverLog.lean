import ResolverLog.Main
import ResolverLog.Http
import ResolverLog.Queue
import ResolverLog.Proofs.Lookup
import ResolverLog.Proofs.Results
import ResolverLog.Proofs.Base64
import ResolverLog.Proofs.Percent
import ResolverLog.Proofs.Decimal
import ResolverLog.Proofs.Calendar
import ResolverLog.Proofs.Timestamp
import ResolverLog.Proofs.Fields
import ResolverLog.Proofs.Record
import ResolverLog.Proofs.Files
import ResolverLog.Proofs.FileEffects
import ResolverLog.Proofs.LogFiles
import ResolverLog.Proofs.Operations
import ResolverLog.Proofs.Runs
import ResolverLog.Proofs.Conservation
import ResolverLog.Proofs.Latest
import ResolverLog.Proofs.Replay
import ResolverLog.Proofs.Restart
import ResolverLog.Proofs.Counts
import ResolverLog.Proofs.Ranking
import ResolverLog.Proofs.Tally
import ResolverLog.Proofs.HourlyStats
import ResolverLog.Proofs.RebuiltStats
import ResolverLog.Proofs.Writable
import ResolverLog.Proofs.Holdings
import ResolverLog.Proofs.TornLine
import ResolverLog.Proofs.CutRecord
import ResolverLog.Proofs.FieldOrder
import ResolverLog.Proofs.LogView
import ResolverLog.Proofs.Failures
import ResolverLog.Proofs.Admission
import ResolverLog.Proofs.Settings
import ResolverLog.Proofs.SettingsLines
import ResolverLog.Proofs.WindowedCounts
import ResolverLog.Proofs.HttpReads
import ResolverLog.Proofs.HeadLimit
import ResolverLog.Proofs.Http
import ResolverLog.Proofs.HttpRequests
import ResolverLog.Proofs.EventLine
import ResolverLog.Proofs.Feed
import ResolverLog.Proofs.Queue
import ResolverLog.Proofs.Feeding
import ResolverLog.Proofs.Handover
import ResolverLog.Proofs.CommandLine
import ResolverLog.Proofs.StartUp
import ResolverLog.Proofs.Options
import ResolverLog.Proofs.FeedRuns
import ResolverLog.Proofs.QuestionReads
import ResolverLog.Proofs.Lifecycle
import ResolverLog.Proofs.WorkerOrder
import ResolverLog.Proofs.NameGrammar
import ResolverLog.Proofs.Trimming
import ResolverLog.Proofs.EqualTimes
import ResolverLog.Proofs.LinkedTally
import ResolverLog.Proofs.Recency
import ResolverLog.Proofs.LargerTally
import ResolverLog.Proofs.ReplayLimits
import ResolverLog.Proofs.RebuiltKeys
import ResolverLog.Proofs.Signals
import ResolverLog.Proofs.WakeUps
import ResolverLog.Proofs.Json
import ResolverLog.Proofs.JsonGrammar
import ResolverLog.Proofs.JsonWriting
import ResolverLog.Proofs.ConfigRequest
import ResolverLog.Proofs.ConfigScan
import ResolverLog.Proofs.Api
import ResolverLog.Proofs.HttpAnswers
import ResolverLog.Proofs.View
import ResolverLog.Proofs.Pattern
import ResolverLog.Proofs.EventGrammar
import ResolverLog.Proofs.EventPattern
import ResolverLog.Proofs.QueryString
import ResolverLog.Proofs.EscapeScan
import ResolverLog.Proofs.Base64Text
import ResolverLog.Proofs.Base64Slots
