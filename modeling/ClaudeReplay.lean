import ClaudeReplay.Builder.Header
import ClaudeReplay.Cache.Lock
import ClaudeReplay.Cache.Residency
import ClaudeReplay.Claude.Billing
import ClaudeReplay.Claude.InboxFormat
import ClaudeReplay.Codex.AgentPath
import ClaudeReplay.Codex.Mirrors
import ClaudeReplay.Codex.Reply
import ClaudeReplay.Codex.Timing
import ClaudeReplay.Compressed.DeclaredLen
import ClaudeReplay.Compressed.Source
import ClaudeReplay.Elide.Lossless
import ClaudeReplay.Gateway.Calls
import ClaudeReplay.Gateway.Delivery
import ClaudeReplay.Gateway.Plans
import ClaudeReplay.Gateway.Unread
import ClaudeReplay.Index.Reply
import ClaudeReplay.Jdi.Drain
import ClaudeReplay.Jdi.OneSupervisor
import ClaudeReplay.Jdi.Relaunch
import ClaudeReplay.Linking.Families
import ClaudeReplay.Linking.Lifetime
import ClaudeReplay.Linking.Lookups
import ClaudeReplay.Linking.Sends
import ClaudeReplay.Mask.Document
import ClaudeReplay.Monitor.InputLine
import ClaudeReplay.Monitor.Redeem
import ClaudeReplay.Monitor.Revoke
import ClaudeReplay.Monitor.StateStream
import ClaudeReplay.Monitor.SubCosts
import ClaudeReplay.Replay.Markers
import ClaudeReplay.Replay.Times
import ClaudeReplay.Search.Query
import ClaudeReplay.Shaping.Coalesce
import ClaudeReplay.Shared.Readmit
import ClaudeReplay.Shared.View
import ClaudeReplay.Spawn.Codex
import ClaudeReplay.Store.Appends
import ClaudeReplay.Store.RecordLog
import ClaudeReplay.Taskq.Drafts
import ClaudeReplay.Taskq.Echo
import ClaudeReplay.Tasks.Native
import ClaudeReplay.Viewer.Measure
import ClaudeReplay.Viewer.Placeholder
import ClaudeReplay.Viewer.Session
import ClaudeReplay.Follow.Parser
