import Coffer.Lib.Mem
import Coffer.Lib.Radix
import Coffer.Lib.File
import Coffer.Lib.Links
import Coffer.Lib.Stream
import Coffer.Lib.Digits
import Coffer.Lib.Loop
import Coffer.Lib.Lucas
import Coffer.Lib.Weierstrass
import Coffer.Memory
import Coffer.Memset
import Coffer.PagePool
import Coffer.PageTable
import Coffer.Translation
import Coffer.TableWrites
import Coffer.PageMap
import Coffer.Permissions
import Coffer.Access
import Coffer.Partition
import Coffer.Brk
import Coffer.BrkPath
import Coffer.Elf
import Coffer.ElfSafety
import Coffer.ElfFaithful
import Coffer.Trap
import Coffer.Mmap
import Coffer.MmapFrames
import Coffer.MmapRegions
import Coffer.MmapSmall
import Coffer.MmapMega
import Coffer.Emodule
import Coffer.Md2
import Coffer.EmodTable
import Coffer.Attest.Vli
import Coffer.Attest.Field
import Coffer.Attest.Modular
import Coffer.Attest.Curve
import Coffer.Attest.Points
import Coffer.Attest.Ecdsa
import Coffer.Attest.Image
import Coffer.Dump
import Coffer.Heap.Bins
import Coffer.Heap.Heap
import Coffer.Heap.Search
import Coffer.Heap.Chunks
import Coffer.Heap.Expand
import Coffer.Heap.Free
import Coffer.Heap.Alloc
import Coffer.Heap.History
import Coffer.Heap.Memalign
import Coffer.Vfs.Ramfs
import Coffer.Vfs.RamfsFile
import Coffer.Vfs.RamfsBounds
import Coffer.Lib.Command
import Coffer.Lib.Owners
import Coffer.Vfs.Path
import Coffer.Vfs.State
import Coffer.Vfs.Lookup
import Coffer.Vfs.Files
import Coffer.Vfs.Syscalls
import Coffer.Vfs.Handlers
import Coffer.Vfs.Frame
import Coffer.Vfs.Descriptors
import Coffer.Vfs.RegularFile
import Coffer.Vfs.Position
import Coffer.Vfs.ReadOnly
import Coffer.Vfs.Console
import Coffer.Vfs.Directory
import Coffer.Vfs.OpenAt
import Coffer.Vfs.HostFetch
import Coffer.Vfs.OpenDepth
import Coffer.Vfs.Counts
import Coffer.Vfs.Tree
import Coffer.Vfs.Names
import Coffer.Vfs.Create
import Coffer.Vfs.FetchDirs
import Coffer.Vfs.Conv
import Coffer.Vfs.View
import Coffer.Vfs.Open
import Coffer.Vfs.Mkdir
import Coffer.Vfs.Unlink
import Coffer.Vfs.Table
import Coffer.Vfs.Calls
import Coffer.Vfs.Removed
import Coffer.Vfs.Accounting
import Coffer.Vfs.Fetch
import Coffer.Vfs.HostOpen
