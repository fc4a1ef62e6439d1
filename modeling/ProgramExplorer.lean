import ProgramExplorer.ArchiveBrowser
import ProgramExplorer.ArchiveFormat
import ProgramExplorer.ArchiveFrontend
import ProgramExplorer.ArchiveGrammar
import ProgramExplorer.ArchivePack
import ProgramExplorer.ArchivePackMem
import ProgramExplorer.ArchiveToDir
import ProgramExplorer.ArchiveUnpack
import ProgramExplorer.Base64
import ProgramExplorer.BearerChallenge
import ProgramExplorer.Bincode
import ProgramExplorer.BlobCache
import ProgramExplorer.BlobKeys
import ProgramExplorer.BufferedWriter
import ProgramExplorer.ByteStore
import ProgramExplorer.ByteStrings
import ProgramExplorer.CachedFiles
import ProgramExplorer.Combinators
import ProgramExplorer.ConcurrentOpens
import ProgramExplorer.CpuSets
import ProgramExplorer.Digests
import ProgramExplorer.Downloads
import ProgramExplorer.ErofsAddresses
import ProgramExplorer.ErofsAdds
import ProgramExplorer.ErofsBlocked
import ProgramExplorer.ErofsBuilder
import ProgramExplorer.ErofsCalls
import ProgramExplorer.ErofsClusterTables
import ProgramExplorer.ErofsCompressed
import ProgramExplorer.ErofsContents
import ProgramExplorer.ErofsCursor
import ProgramExplorer.ErofsDecoding
import ProgramExplorer.ErofsDirentPass
import ProgramExplorer.ErofsDirents
import ProgramExplorer.ErofsDisk
import ProgramExplorer.ErofsFinalize
import ProgramExplorer.ErofsIterators
import ProgramExplorer.ErofsLayout
import ProgramExplorer.ErofsLinkCounts
import ProgramExplorer.ErofsLinks
import ProgramExplorer.ErofsLookup
import ProgramExplorer.ErofsOwners
import ProgramExplorer.ErofsPacking
import ProgramExplorer.ErofsPasses
import ProgramExplorer.ErofsPaths
import ProgramExplorer.ErofsPlacement
import ProgramExplorer.ErofsReadback
import ProgramExplorer.ErofsReader
import ProgramExplorer.ErofsResolution
import ProgramExplorer.ErofsRoundtrip
import ProgramExplorer.ErofsTree
import ProgramExplorer.ErofsTreeRelation
import ProgramExplorer.ErofsWalk
import ProgramExplorer.ErofsXattrSync
import ProgramExplorer.ErofsXattrs
import ProgramExplorer.FileSession
import ProgramExplorer.FileSystem
import ProgramExplorer.FileTree
import ProgramExplorer.ImageIndex
import ProgramExplorer.ImageService
import ProgramExplorer.ImageTrailer
import ProgramExplorer.InputLoop
import ProgramExplorer.InsertionMap
import ProgramExplorer.Interleavings
import ProgramExplorer.IoFile
import ProgramExplorer.KeyedInserts
import ProgramExplorer.LittleEndian
import ProgramExplorer.LoadBalancer
import ProgramExplorer.MemoCache
import ProgramExplorer.OcidistCache
import ProgramExplorer.OrderedMap
import ProgramExplorer.PredecessorLookup
import ProgramExplorer.PublishOrder
import ProgramExplorer.Publishing
import ProgramExplorer.Ratelimits
import ProgramExplorer.RegistryAuth
import ProgramExplorer.ServiceErrors
import ProgramExplorer.Sift
import ProgramExplorer.SquashAgreement
import ProgramExplorer.SquashBottom
import ProgramExplorer.SquashDeletions
import ProgramExplorer.SquashErofs
import ProgramExplorer.SquashHistory
import ProgramExplorer.SquashMachine
import ProgramExplorer.SquashPathBuf
import ProgramExplorer.SquashVisibility
import ProgramExplorer.SquashWhiteouts
import ProgramExplorer.StateRules
import ProgramExplorer.Transitions
import ProgramExplorer.UnixPath
import ProgramExplorer.UrlState
import ProgramExplorer.Utf16
import ProgramExplorer.Utf8
import ProgramExplorer.VhostBlock
import ProgramExplorer.VmProcesses
import ProgramExplorer.WorkerPool
