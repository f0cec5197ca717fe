import BlobFuse.Storage
import BlobFuse.KeySet
import BlobFuse.Listing
import BlobFuse.Delivery
import BlobFuse.DirectoryEmpty
import BlobFuse.Getattr
import BlobFuse.LinkCount
import BlobFuse.Rename
import BlobFuse.RenameScope
import BlobFuse.CacheDirectory
import BlobFuse.RenameTree
import BlobFuse.DiskSpace
import BlobFuse.Eviction.Model
import BlobFuse.Eviction.Invariant
import BlobFuse.Eviction.Safety
import BlobFuse.Eviction.Queue
import BlobFuse.Eviction.Mutex
import BlobFuse.Eviction.Progress
