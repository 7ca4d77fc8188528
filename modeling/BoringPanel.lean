import BoringPanel.QueryService.ClickHouseReader.SeriesGroups
import BoringPanel.QueryService.QueryCache.CachedRuns
import BoringPanel.QueryService.Querier.ListPages
import BoringPanel.QueryService.PostProcess.Limit
import BoringPanel.QueryService.PostProcess.Gaps
import BoringPanel.QueryService.Parser.Substituted
import BoringPanel.QueryService.Resource.LostRows
import BoringPanel.QueryService.OpAMP.Connections
import BoringPanel.QueryService.OpAMP.RecommendConfig
import BoringPanel.QueryService.AgentConf.Versions
import BoringPanel.QueryService.QueryProgress.Tracked
import BoringPanel.QueryService.DebugMode.Workers
import BoringPanel.QueryService.DebugMode.Cleanup
import BoringPanel.QueryService.LogParsingPipeline.Reapplied
import BoringPanel.QueryService.Rules.RestartHistory
import BoringPanel.QueryService.Rules.ManagerCalls
import BoringPanel.QueryService.Rules.FailedCalls
import BoringPanel.AgentService.Security.ShellCommand
import BoringPanel.AgentService.Security.EmbeddedText
import BoringPanel.AgentService.Chat.ChatRoute
import BoringPanel.AgentService.Memory.Forgotten
import BoringPanel.AgentService.Memory.Hydration
import BoringPanel.AgentService.Memory.StoredSecrets
import BoringPanel.AgentService.Evidence.Isolation
import BoringPanel.QueryService.QueryCache.FluxCut
import BoringPanel.QueryService.QueryCache.FreshPoints
import BoringPanel.QueryService.QueryCache.StoredEntry
import BoringPanel.AgentService.Workflows.Versions
import BoringPanel.QueryService.Rules.BuildAndRunQuery
import BoringPanel.QueryService.Rules.CopyState
import BoringPanel.AgentService.Workflows.MergedResults
import BoringPanel.AgentService.Workflows.WaitingApprovals
import BoringPanel.QueryService.PostProcess.RowOrder
import BoringPanel.AgentService.Memory.Merges
import BoringPanel.AgentService.Memory.Scores
import BoringPanel.AgentService.Memory.Listing
import BoringPanel.AgentService.Memory.SplitText
import BoringPanel.AgentService.Database.WasmSQLite
import BoringPanel.AgentService.Memory.TracePaths
import BoringPanel.AgentService.Memory.CanonicalContents
import BoringPanel.QueryService.Rules.ScheduleText
import BoringPanel.AgentService.Workflows.ApprovedRuns
import BoringPanel.QueryService.Querier.ContainsFilter
import BoringPanel.QueryService.OpAMP.PipelineSpec
import BoringPanel.QueryService.LogParsingPipeline.LogPaths
import BoringPanel.QueryService.LogParsingPipeline.Preview
import BoringPanel.QueryService.LogParsingPipeline.TimeParser
import BoringPanel.QueryService.LogParsingPipeline.ReferencedFields
import BoringPanel.QueryService.Traces.Subtree
import BoringPanel.QueryService.Anomaly.Seasonal
import BoringPanel.QueryService.DebugMode.Generator
import BoringPanel.Frontend.ConservedSpans
import BoringPanel.Frontend.PrintedQueries
import BoringPanel.QueryService.Utils.Labels
