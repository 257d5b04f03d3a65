import Rullama.Router.Liveness
import Rullama.Router.Arbitration
import Rullama.Router.Replies
import Rullama.Router.Pings
import Rullama.Router.Elections
import Rullama.Client.Sessions
import Rullama.Client.Retries
import Rullama.CoreWorker.Snapshots
import Rullama.CoreWorker.Handover
import Rullama.Tools.FilePaths
import Rullama.Tools.Commands
import Rullama.Agent.Serial
import Rullama.Agent.Stranded
import Rullama.Agent.Attaching
import Rullama.Agent.Busy
import Rullama.Agent.Calls
import Rullama.Agent.Broadcasts
import Rullama.Mcp.Server
import Rullama.Mcp.Registry
import Rullama.Agent.Handshake
import Rullama.Session.Input
import Rullama.Session.Output
import Rullama.Agent.History
import Rullama.Agent.Hibernate
import Rullama.Memory.Store
import Rullama.PlanMode.Isolation
import Rullama.Tui.Saves
import Rullama.SelfImprove.Limits
import Rullama.Native.Cancellation
import Rullama.Native.Passes
import Rullama.Native.LiveReplies
import Rullama.Opfs.Prefixes
import Rullama.Opfs.Crashes
import Rullama.ToolCalls.Streaming
import Rullama.ToolCalls.Results
import Rullama.ToolCalls.Inversion
import Rullama.Types.WorkingSet
import Rullama.Agent.QueueOrder
import Rullama.Native.QueueStore
import Rullama.Native.Agreement
import Rullama.Tui.RenderList
import Rullama.Agents.ToolUses
import Rullama.Agents.CleanUp
import Rullama.Agents.FileExclusion
import Rullama.Agents.Budgets
import Rullama.CoreWorker.ActiveAdapter
import Rullama.Agents.AgentCap
import Rullama.Agents.AgentPool
import Rullama.Mdap.Inputs
import Rullama.Tools.MonitorStop
import Rullama.Tui.NanoSearch
import Rullama.Utils.Conversation
import Rullama.Types.Question
import Rullama.Agent.QueueFailures
import Rullama.Agents.IterationLimit
import Rullama.Types.Eviction
import Rullama.Types.Injection
import Rullama.CoreWorker.Envelope
import Rullama.Rag.Faithful
import Rullama.Tokenizer.Encode
import Rullama.Tui.JournalAppends
import Rullama.Opfs.SharedCancel
import Rullama.Agents.Manager
import Rullama.Tui.NanoFiles
import Rullama.Utils.Shortening
import Rullama.DevServer.Blobs
import Rullama.Tools.Domains
import Rullama.Tools.Globs
import Rullama.Tui.FindReplace
import Rullama.Tui.QuestionParser
import Rullama.Tools.Layers
import Rullama.Tools.PreToolHooks
import Rullama.Tools.Sudo
import Rullama.Tools.Retry
import Rullama.Utils.BudgetPeriods
import Rullama.Utils.ContextBuilder
import Rullama.Utils.PromptHistory
import Rullama.Utils.Recovery
import Rullama.Utils.RullamaMd
import Rullama.Native.ModelDownloader
import Rullama.Text.TextDecoder
import Rullama.Cloud.Client
import Rullama.Native.TextSplit
import Rullama.Tui.FileExplorer
import Rullama.Mdap.ToolExecutor
import Rullama.Text.Templates
import Rullama.Commands.Parser
import Rullama.Tui.GitScm
import Rullama.Native.ToolLoop
import Rullama.Text.Regex
import Rullama.Utils.CompletionDetector
import Rullama.Text.Stringify
import Rullama.Web.Orchestration
import Rullama.Text.JsonBytes
import Rullama.Web.QueueStore
import Rullama.Web.Turn
import Rullama.Suspension.Resume
import Rullama.Web.History
