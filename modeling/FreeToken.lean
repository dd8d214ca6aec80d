import FreeToken.Accounting.Final
import FreeToken.Attention.TritonForward
import FreeToken.Checkpoint.ConvertCrash
import FreeToken.Checkpoint.FtwBanksLoad
import FreeToken.Checkpoint.GgufExact
import FreeToken.Checkpoint.Nvfp4Load
import FreeToken.Daemon.Checkpoint
import FreeToken.Daemon.ServeOnce
import FreeToken.Daemon.ServeReceipts
import FreeToken.Daemon.ServeState
import FreeToken.Engine.CacheBudget
import FreeToken.Kernel.Df11Complete
import FreeToken.Kernel.Df11DecodeExact
import FreeToken.Kernel.Df11Rows
import FreeToken.Kernel.GatedServing
import FreeToken.Kernel.PagedAttentionSpec
import FreeToken.KvCache.Counters
import FreeToken.KvCache.Dsv4CostModel
import FreeToken.KvCache.HybridRuns
import FreeToken.KvCache.RadixEvict
import FreeToken.KvCache.SwaConserve
import FreeToken.KvCache.SwaMatch
import FreeToken.Message.RoundTrip
import FreeToken.Moe.AlignPaths
import FreeToken.Moe.HybridAgrees
import FreeToken.Moe.OffloadRuns
import FreeToken.Moe.PrefillFills
import FreeToken.Scheduler.Snapshots
import FreeToken.Scheduler.StopStrings
import FreeToken.Server.AnthropicReply
import FreeToken.Server.ChatChunks
import FreeToken.Server.DeepSeekV32Blocks
import FreeToken.Server.GemmaInverse
import FreeToken.Server.HarmonyStream
import FreeToken.Server.InvokeParamReader
import FreeToken.Server.Maintenance
import FreeToken.Server.MiniMaxM3Exact
import FreeToken.Server.MiniMaxM3Nested
import FreeToken.Server.MistralArray
import FreeToken.Server.ResponsesReply
import FreeToken.Tokenizer.Lossless
