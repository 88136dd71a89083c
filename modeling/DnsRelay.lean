import DnsRelay.Relay
import DnsRelay.Deferred
import DnsRelay.LastTouch
import DnsRelay.CachedPath
import DnsRelay.HashRefine
import DnsRelay.Sections
import DnsRelay.Influence
import DnsRelay.Precedence
import DnsRelay.Types
import DnsRelay.Duplicates
import DnsRelay.Compression
import DnsRelay.Decompression
import DnsRelay.Bounds
import DnsRelay.NameKeys
import DnsRelay.DecodedRecords
import DnsRelay.Lifetime
import DnsRelay.Flush
import DnsRelay.HostFile
import DnsRelay.Buffers
import DnsRelay.Slots
import DnsRelay.Questions
import DnsRelay.HostMalformed
import DnsRelay.Delivery
import DnsRelay.Lib.RwLock
import DnsRelay.Lib.Alloc
import DnsRelay.CacheHeap
import DnsRelay.CacheThreads
import DnsRelay.Interleaving
import DnsRelay.DeferredThreads
import DnsRelay.HeapRefine
import DnsRelay.Lib.Keyed
import DnsRelay.MapThreads
import DnsRelay.MapInterleaving
import DnsRelay.MapDelivery
import DnsRelay.Lib.Parts
import DnsRelay.LookupThreads
import DnsRelay.LookupInterleaving
import DnsRelay.LookupAnswers
import DnsRelay.Lib.Tracks
import DnsRelay.PacketHeap
import DnsRelay.PacketRefine
import DnsRelay.PacketReply
import DnsRelay.DatagramThreads
import DnsRelay.DatagramMemory
import DnsRelay.DatagramLeaks
