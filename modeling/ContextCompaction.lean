import ContextCompaction.Js.Base64
import ContextCompaction.Core.WriterNotes
import ContextCompaction.Core.Preparation
import ContextCompaction.Core.Merge
import ContextCompaction.Core.ReductionLaws
import ContextCompaction.Core.CutLaws
import ContextCompaction.Core.HistoryListing
import ContextCompaction.Core.HistorySearch
import ContextCompaction.Core.Rendering
import ContextCompaction.Preview.Chain
import ContextCompaction.Preview.AppendLaws
import ContextCompaction.Preview.Preparing
import ContextCompaction.Cbor.RoundTrip
import ContextCompaction.Delta.StateCodec
import ContextCompaction.Delta.Rebuilds
import ContextCompaction.Frames.Replay
import ContextCompaction.Harness.BoundaryLaws
import ContextCompaction.Agent.Requests
import ContextCompaction.Core.PrefixHashes
import ContextCompaction.Core.CarriedMessages
import ContextCompaction.Core.ChunkLaws
import ContextCompaction.Core.CutBudget
import ContextCompaction.Core.DiagnosisLaws
import ContextCompaction.Core.ExcerptLaws
import ContextCompaction.Core.RepairLaws
import ContextCompaction.Lease.Recovery
import ContextCompaction.Core.Budgets
import ContextCompaction.Core.ReadPrices
import ContextCompaction.Protocol.FramingLaws
import ContextCompaction.Core.LowDetail
import ContextCompaction.Preview.Shown
import ContextCompaction.Delta.Appliers
import ContextCompaction.Context.CompactionLaws
import ContextCompaction.Provider.TransformLaws
import ContextCompaction.Preview.ProjectedSummary
import ContextCompaction.Output.BufferLaws
import ContextCompaction.Edits.Kept
import ContextCompaction.Core.ExcerptWindow
import ContextCompaction.Core.LineageLaws
import ContextCompaction.Env.LineScanLaws
import ContextCompaction.Context.PromptRounds
