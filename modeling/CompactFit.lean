import CompactFit.Library.ByteMemory
import CompactFit.Library.LinkedChain
import CompactFit.Library.BucketPool
import CompactFit.Library.BucketPlaces
import CompactFit.Library.LifoStack
import CompactFit.Library.WaitFor
import CompactFit.Bitmap
import CompactFit.SizeClassTable
import CompactFit.SizeClassLookup
import CompactFit.Heap
import CompactFit.PageLists
import CompactFit.PagePool
import CompactFit.PagePoolLaws
import CompactFit.PagePoolInit
import CompactFit.HeapCarving
import CompactFit.PageExchange
import CompactFit.PageConservation
import CompactFit.PlainStack
import CompactFit.AddressPool
import CompactFit.AddressBuckets
import CompactFit.AddressBucketLaws
import CompactFit.AddressBucketPool
import CompactFit.BucketShortage
import CompactFit.AddressConservation
import CompactFit.Compaction
import CompactFit.Allocator
import CompactFit.PageSteps
import CompactFit.BlockBitmap
import CompactFit.PageInvariant
import CompactFit.Ownership
import CompactFit.CompactionInvariant
import CompactFit.CallInvariant
import CompactFit.Interleaving
import CompactFit.Scripts
import CompactFit.AbortFinality
import CompactFit.Safety
import CompactFit.AbstractAddresses
import CompactFit.AtomicFailure
import CompactFit.UsableSize
import CompactFit.BlockMetadata
import CompactFit.Fragmentation
import CompactFit.Sequential
import CompactFit.SequentialIntegrity
import CompactFit.NonMoving
import CompactFit.PageAccounting
import CompactFit.ModeEquivalence
import CompactFit.MutatorCoherence
import CompactFit.NbStack
import CompactFit.NbStackRefinement
import CompactFit.LockPage
import CompactFit.LockPageHeaders
import CompactFit.LockPageOwners
import CompactFit.LockPageInvariant
import CompactFit.LockPageMalloc
import CompactFit.LockPageFree
import CompactFit.LockPageSafety
import CompactFit.ListMove
import CompactFit.PageLinks
import CompactFit.ObjectStore
import CompactFit.ClassLock
import CompactFit.ClassLockInvariant
import CompactFit.ClassLockSafety
import CompactFit.ClassLockRetry
import CompactFit.StoreRefinement
import CompactFit.ThreadCaches
import CompactFit.MemoryGuarantee
import CompactFit.CompactionProgress
import CompactFit.MemoryInUse
import CompactFit.LockFreePages
import CompactFit.LockFreePagesInvariant
import CompactFit.LockFreePagesSteps
import CompactFit.LockFreePagesAccess
import CompactFit.LockFreePagesOwnership
import CompactFit.AddressCallsShortage
