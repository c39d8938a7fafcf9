import Memnon.SharedGrowth
import Memnon.SegmentTable
import Memnon.Platform
import Memnon.Lib.Layout
import Memnon.PrefetchWorkerShutdown
import Memnon.PrefetchWorkerLifecycle
import Memnon.PrefetchWorkerUnregister
import Memnon.PrefetchWorkerHints
import Memnon.PrefetchWorkerTermination
import Memnon.PrefetchWorkerDestructor
import Memnon.Manager
import Memnon.ManagerRun
import Memnon.ManagerAllocate
import Memnon.ManagerNames
import Memnon.NamedObjects
import Memnon.OffsetPtr
import Memnon.ManagerReentry
import Memnon.TrieLookup
import Memnon.RegistryFind
import Memnon.TrieMap
import Memnon.TrieIsolation
import Memnon.RegistrySolo
import Memnon.RegistryMap
import Memnon.TrieWaitFree
import Memnon.TrieRaces
import Memnon.TrieSound
import Memnon.TrieTree
import Memnon.TrieCache
import Memnon.SegmentList
import Memnon.ManagerSections
import Memnon.ManagerGrowth
import Memnon.ManagerThreads
import Memnon.ManagerSessions
import Memnon.ManagerCalls
import Memnon.NameThreads
import Memnon.NameDirectory
import Memnon.DiscoveryThreads
import Memnon.AttachedNames
import Memnon.ManagerLifetimes
import Memnon.ManagerMappings
import Memnon.ManagerSteps
import Memnon.SegmentSizes
import Memnon.SharedFiles
import Memnon.ExplicitGrowth
import Memnon.BackgroundGrowth
import Memnon.SegmentedAllocator
import Memnon.FileReader
import Memnon.OpenTable
import Memnon.FileWriter
import Memnon.FilePublication
import Memnon.OpenOrCreate
import Memnon.FileRemoval
import Memnon.InnerBlocks
import Memnon.LiveBlocks
import Memnon.OffsetPtrRoundTrip
import Memnon.OffsetPtrShared
import Memnon.OffsetPtrStore
import Memnon.OffsetPtrContained
import Memnon.OffsetPtrTags
import Memnon.OffsetPtrArithmetic
import Memnon.NoexceptOperations
import Memnon.TrieLinearizable
import Memnon.ShmSpinlock
import Memnon.BlockThreads
import Memnon.ManagerProgress
import Memnon.SharedLinks
import Memnon.OffsetPtrComparison
