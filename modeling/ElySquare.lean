import ElySquare.Allocators.BuddyBytes
import ElySquare.Allocators.BuddyPayload
import ElySquare.Allocators.BuddyCoverage
import ElySquare.Allocators.BuddyRoundTrip
import ElySquare.Allocators.PageOwnership
import ElySquare.Meta.MetaArenaHeap
import ElySquare.Meta.ShapeMemory
import ElySquare.Meta.ShapeRun
import ElySquare.Meta.ShapeForest
import ElySquare.Meta.InlineCache
import ElySquare.Meta.StarIdRun
import ElySquare.Meta.ShapeAncestors
import ElySquare.Meta.StarIdNames
import ElySquare.Meta.StarIdSite
import ElySquare.Meta.ExBox
import ElySquare.Allocators.PageSegments
import ElySquare.Allocators.PageProtection
import ElySquare.Allocators.LifetimeLedger
import ElySquare.Meta.StarIdCodec
import ElySquare.Meta.StarIdZero
import ElySquare.Meta.StarIdFresh
import ElySquare.Meta.StarIdReads
import ElySquare.Meta.StarIdCopy
import ElySquare.Meta.ShapeEpoch
import ElySquare.Meta.ShapeHistory
import ElySquare.Meta.ShapeCalls
import ElySquare.Allocators.ArenaLimits
import ElySquare.Meta.MetaArenaLimits
import ElySquare.Allocators.BlockLimits
import ElySquare.Meta.ExBoxFloat
import ElySquare.Meta.StarIdBuffer
import ElySquare.Meta.MetaArenaFootprint
import ElySquare.Meta.MetaArenaDebug
import ElySquare.Allocators.PageLifetime
import ElySquare.Meta.ShapePages
import ElySquare.Meta.ShapeTrie
import ElySquare.Meta.ShapeRemoval
import ElySquare.Meta.CacheSites
import ElySquare.Allocators.BlockFootprint
import ElySquare.Allocators.PagePlacement
import ElySquare.Meta.StarIdCollected
import ElySquare.Meta.ExBoxWords
import ElySquare.Meta.SharedPages
import ElySquare.Allocators.BuddyParcels
import ElySquare.Allocators.BuddyOwners
