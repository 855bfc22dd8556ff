import ThreeXhaust.Tui.Snapshots
import ThreeXhaust.Tui.MainScreenRuns
import ThreeXhaust.State.Dispatch
import ThreeXhaust.Core.Turns
import ThreeXhaust.Patch.Atomicity
import ThreeXhaust.Chord.Calls
import ThreeXhaust.Ai.ToolState
import ThreeXhaust.Ai.EventStream
import ThreeXhaust.Delta.Overlay
import ThreeXhaust.Delta.TrackerRuns
import ThreeXhaust.Durable.WriterOrder
import ThreeXhaust.Durable.Transaction
import ThreeXhaust.Durable.LineScanExact
import ThreeXhaust.Harness.InboxRuns
import ThreeXhaust.Harness.ContextExact
import ThreeXhaust.Harness.OwnershipRuns
import ThreeXhaust.Harness.WaitGraph
import ThreeXhaust.Chord.Binary.RoundTrip
import ThreeXhaust.Chord.Channel.Order
import ThreeXhaust.Env.Session
import ThreeXhaust.Env.WindowTail
import ThreeXhaust.Env.ConnectionRuns
import ThreeXhaust.Lib.Lines
import ThreeXhaust.CodingAgent.SessionFile
import ThreeXhaust.CodingAgent.Migration
import ThreeXhaust.Chord.Store.Agreement
import ThreeXhaust.Chord.Jobs.Runs
import ThreeXhaust.Runtime.TerminalSanitizer
import ThreeXhaust.PiAdapter.Compaction
import ThreeXhaust.Core.Fingerprint
import ThreeXhaust.Patch.Edits
import ThreeXhaust.Runtime.CacheWarm
import ThreeXhaust.Semantic.Declared
import ThreeXhaust.Agent.Preview
import ThreeXhaust.Credential.LockRuns
import ThreeXhaust.Ai.Transcript
import ThreeXhaust.Tui.WordWrapDepth
import ThreeXhaust.Tui.StackSizes
import ThreeXhaust.Chord.OutputStream
import ThreeXhaust.CodingAgent.OutputAccumulator
import ThreeXhaust.Patch.Resume
import ThreeXhaust.Delta.Codec
import ThreeXhaust.Delta.Pending
