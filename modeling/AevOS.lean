import AevOS.HistBptreeBounds
import AevOS.HistoryInvariant
import AevOS.HistoryLedger
import AevOS.SepCorrector
import AevOS.HmsCacheTier
import AevOS.HmsCacheKeys
import AevOS.VmmInit
import AevOS.SlabClient
import AevOS.MemoryContents
import AevOS.Coroutine
import AevOS.AevosFsNames
import AevOS.Mkfs
import AevOS.Fat32Geometry
import AevOS.Ext4
import AevOS.Prompt
import AevOS.ToolCalls
import AevOS.AgentSystem
import AevOS.NetFrames
import AevOS.ConversationForest
import AevOS.VecIndexRoundTrip
import AevOS.CapIpc
import AevOS.Mailbox
import AevOS.LlmIpc
import AevOS.LcPolicy
import AevOS.SkillRegistry
import AevOS.Vfs
import AevOS.LlmInfer
import AevOS.GgufImage
import AevOS.LlmLoad
import AevOS.BootData
import AevOS.Nvme
import AevOS.VirtioNet
import AevOS.Terminal
import AevOS.DbSkills
import AevOS.ConversationQueries
import AevOS.JsonString
import AevOS.Dns
import AevOS.HalfFloat
