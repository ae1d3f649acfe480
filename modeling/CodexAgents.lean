import CodexAgents.ApplyPatch.Print
import CodexAgents.ApplyPatch.Preview
import CodexAgents.ApplyPatch.Resume
import CodexAgents.ApplyPatch.Verify
import CodexAgents.TurnDiff.Canonical
import CodexAgents.StreamParser.Chunks
import CodexAgents.StreamParser.Utf8Stream
import CodexAgents.StreamParser.AssistantText
import CodexAgents.CommandSafety.Safe
import CodexAgents.ExecPolicy.Network
import CodexAgents.ExecPolicy.Reload
import CodexAgents.Permissions.Within
import CodexAgents.Session.EarlyExit
import CodexAgents.Session.Forks
import CodexAgents.Session.Pairs
import CodexAgents.NoiseRelay.Window
import CodexAgents.NoiseRelay.VirtualStream
import CodexAgents.RemoteControl.Lifecycle
import CodexAgents.RemoteControl.Delivery
import CodexAgents.NetworkProxy.Managed
import CodexAgents.NetworkProxy.Telemetry
import CodexAgents.AgentRegistry.Slots
import CodexAgents.Composer.Typing
import CodexAgents.ExecServer.Bounded
import CodexAgents.ExecServer.Stdin
import CodexAgents.McpTools.CodeMode
import CodexAgents.Config.HighestLayer
import CodexAgents.ApplyPatch.Normalize
import CodexAgents.UnifiedExec.Deltas
import CodexAgents.Permissions.FullDisk
import CodexAgents.RemoteControl.SplitOutcome
import CodexAgents.ApplyPatch.WellFormed
import CodexAgents.UtilsString.Truncate
