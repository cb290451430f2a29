import Cerverus.FileBody
import Cerverus.LinkedHeap
import Cerverus.DoublyLinkedList
import Cerverus.Bytes
import Cerverus.Hashmap
import Cerverus.LruCache
import Cerverus.LruIndex
import Cerverus.FirstMatch
import Cerverus.NetworkTypes
import Cerverus.Receive
import Cerverus.RouteTrie
import Cerverus.Routing
import Cerverus.Descriptors
import Cerverus.FileTransfers
import Cerverus.OneResponse
import Cerverus.AcceptCapacity
import Cerverus.CallbackSuspension
import Cerverus.CacheOrder
import Cerverus.ConcurrentOpens
import Cerverus.GrowableArray
import Cerverus.Darray
import Cerverus.FailedOperations
import Cerverus.HashmapRefines
import Cerverus.ListFiles
import Cerverus.PublicListing
import Cerverus.RawRequest
import Cerverus.ResponseBalance
import Cerverus.Lifecycle
import Cerverus.ProtothreadTasks
import Cerverus.ResumptionCauses
import Cerverus.CoroutineRefinement
import Cerverus.ContentLength
import Cerverus.FileExtensions
import Cerverus.ListOperations
import Cerverus.LruStale
import Cerverus.PartialSends
import Cerverus.Rehash
import Cerverus.RouteAdditions
import Cerverus.SpliceProgress
import Cerverus.SubmissionRing
import Cerverus.Bitarray
import Cerverus.BumpAllocator
import Cerverus.DarrayRuns
import Cerverus.GpaAllocator
import Cerverus.ListGet
import Cerverus.PoolAllocator
import Cerverus.PoolRuns
import Cerverus.Queue
import Cerverus.ResponseRoundTrip
import Cerverus.TableSizes
import Cerverus.ServerRest
import Cerverus.ContextMemory
import Cerverus.Conversations
import Cerverus.SentHeaders
import Cerverus.Wire
import Cerverus.SdsMemory
import Cerverus.ReceiveMemory
import Cerverus.TrieMemory
import Cerverus.SdsSplit
import Cerverus.ResponseMemory
import Cerverus.SdsNumbers
import Cerverus.NoFaults
import Cerverus.AllAnswered
import Cerverus.LruRefines
import Cerverus.CacheMemory
