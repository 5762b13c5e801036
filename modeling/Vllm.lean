import Vllm.Broadcast.Delivery
import Vllm.DataParallel.WaveAgreement
import Vllm.Encoder.Protocol
import Vllm.Engine.Bookkeeping
import Vllm.Engine.Collectors
import Vllm.Engine.StreamInterval
import Vllm.Eplb.Replication
import Vllm.Hashing.Soundness
import Vllm.KVCache.Reservation
import Vllm.Lookup.HashBounds
import Vllm.Multimodal.MergeSafe
import Vllm.Multimodal.Mirror
import Vllm.Offload.ArcLists
import Vllm.Offload.Connector.LookupEagle
import Vllm.Offload.LazyHeap
import Vllm.Parser.JsonMember
import Vllm.Pool.Events
import Vllm.Scheduler.PrefillProgress
import Vllm.Scheduler.PriorityQueue
import Vllm.SpecDecode.Ngram
import Vllm.StructuredOutput.Agreement
import Vllm.Worker.BatchReorder
import Vllm.Worker.SlotMapping
