import CoolPotOS.Machine
import CoolPotOS.Lib.Dyadic
import CoolPotOS.Lib.Dll
import CoolPotOS.Lib.Radix
import CoolPotOS.Lib.RbTree
import CoolPotOS.Lib.Runs
import CoolPotOS.Mem.Bitmap
import CoolPotOS.Mem.PageList
import CoolPotOS.Mem.Buddy
import CoolPotOS.Mem.BuddyZone
import CoolPotOS.Mem.BuddyCounts
import CoolPotOS.Mem.BuddySound
import CoolPotOS.Mem.BuddyTidy
import CoolPotOS.Mem.BuddyRun
import CoolPotOS.Mem.BuddyBoot
import CoolPotOS.Mem.FrameExact
import CoolPotOS.Mem.FrameCoalesce
import CoolPotOS.Mem.BuddyPool
import CoolPotOS.Mem.FramePool
import CoolPotOS.Mem.FrameDry
import CoolPotOS.Mem.PageRef
import CoolPotOS.Mem.PageRefRun
import CoolPotOS.Mem.Vma
import CoolPotOS.Mem.VmaList
import CoolPotOS.Mem.VmaAreas
import CoolPotOS.Mem.VmaUnmap
import CoolPotOS.Mem.MemSys
import CoolPotOS.Mem.VmaCalls
import CoolPotOS.Mem.VmaRun
import CoolPotOS.Mem.VmaAgree
import CoolPotOS.Mem.Page
import CoolPotOS.Mem.PageMap
import CoolPotOS.Mem.UserSpace
import CoolPotOS.Mem.UserCover
import CoolPotOS.Mem.UserCalls
import CoolPotOS.Mem.UserHalf
import CoolPotOS.Mem.UserStale
import CoolPotOS.Util.CowList
import CoolPotOS.Task.Thread
import CoolPotOS.Task.AddressSpace
import CoolPotOS.Task.Eevdf
import CoolPotOS.Task.EevdfQueue
import CoolPotOS.Task.EevdfRun
import CoolPotOS.Task.EevdfTick
import CoolPotOS.Task.EevdfWait
import CoolPotOS.Task.EevdfTime
import CoolPotOS.Util.Map
import CoolPotOS.Task.Rrs
import CoolPotOS.Task.Futex
import CoolPotOS.Task.FutexQueue
import CoolPotOS.Task.FutexRun
import CoolPotOS.Task.RrsQueue
import CoolPotOS.Task.Scheduler
import CoolPotOS.Task.ThreadExit
import CoolPotOS.Lib.Custody
import CoolPotOS.Task.Retire
import CoolPotOS.Task.RetireStages
import CoolPotOS.Task.RetireOnce
import CoolPotOS.Task.FutexWake
import CoolPotOS.Task.FutexTimeout
import CoolPotOS.Task.Ipc
import CoolPotOS.Lib.Bytes
import CoolPotOS.Task.Eventfd
import CoolPotOS.Fs.Tmpfs
import CoolPotOS.Driver.BlkDevice
import CoolPotOS.Fs.Pipefs
import CoolPotOS.Task.Epoll
import CoolPotOS.Fs.Path
import CoolPotOS.Fs.Vfs
import CoolPotOS.Fs.VfsLookup
import CoolPotOS.Fs.VfsTree
import CoolPotOS.Fs.VfsNames
import CoolPotOS.Fs.VfsLink
import CoolPotOS.Fs.Fds
import CoolPotOS.Fs.FdLifetime
import CoolPotOS.Lib.ByteStore
import CoolPotOS.Task.Signal
import CoolPotOS.Task.SignalMask
import CoolPotOS.Task.SignalReturn
import CoolPotOS.Lib.Ring
import CoolPotOS.Net.UnixSocket
import CoolPotOS.Net.UnixStream
import CoolPotOS.Lib.Machines
import CoolPotOS.Net.Netlink
import CoolPotOS.Net.NetlinkRing
import CoolPotOS.Net.NetlinkGroups
import CoolPotOS.Net.Nla
import CoolPotOS.Net.Rtnl
import CoolPotOS.Net.RtnlKeyed
import CoolPotOS.Fs.FdOffset
import CoolPotOS.Fs.FdShared
import CoolPotOS.Fs.FdCalls
import CoolPotOS.Fs.FdRefine
import CoolPotOS.Lib.ParentTree
import CoolPotOS.Fs.Mount
import CoolPotOS.Fs.MountTree
import CoolPotOS.Fs.MountMove
import CoolPotOS.Fs.Readv
import CoolPotOS.Fs.ReadvPipe
import CoolPotOS.Fs.ReadvAgree
import CoolPotOS.Mem.BuddyAligned
import CoolPotOS.Mem.VmaExact
import CoolPotOS.Mem.VmaProtect
import CoolPotOS.Task.EpollEdge
import CoolPotOS.Driver.BlkCalls
import CoolPotOS.Fs.Partition
import CoolPotOS.Mod.ElfLoad
import CoolPotOS.Fs.PipeFds
import CoolPotOS.Fs.TmpfsLink
import CoolPotOS.Lib.NamedTree
import CoolPotOS.Fs.Overlay
import CoolPotOS.Fs.OverlayView
import CoolPotOS.Fs.OverlayRun
import CoolPotOS.Net.UnixMessage
import CoolPotOS.Net.UnixBacklog
import CoolPotOS.Net.UnixHistory
import CoolPotOS.Net.UnixPeers
import CoolPotOS.Net.UnixAccept
import CoolPotOS.Net.UnixCalls
import CoolPotOS.Net.UnixConnect
import CoolPotOS.Task.RrsRun
import CoolPotOS.Task.IpcFree
import CoolPotOS.Task.EevdfWrap
import CoolPotOS.Task.EevdfPick
import CoolPotOS.Fs.PipeBroken
import CoolPotOS.Mem.VirtToPhys
import CoolPotOS.Mem.LazyQueue
import CoolPotOS.Lib.Acyclic
import CoolPotOS.Fs.VfsReturns
import CoolPotOS.Mem.BitmapFind
import CoolPotOS.Util.CowAtomic
import CoolPotOS.Util.MapRefine
import CoolPotOS.Util.IdAlloc
import CoolPotOS.Driver.Pty
import CoolPotOS.Fs.PathNormal
import CoolPotOS.Fs.CpioArchive
import CoolPotOS.Mem.Mremap
import CoolPotOS.Mem.MremapKeeps
import CoolPotOS.Mem.VmaFlags
import CoolPotOS.Mem.UserAccess
import CoolPotOS.Mem.UserProtect
import CoolPotOS.Mem.UserAgree
import CoolPotOS.Mem.UserCopies
import CoolPotOS.Lib.Blocks
import CoolPotOS.Lib.Intrusive
import CoolPotOS.Mem.Mpool
import CoolPotOS.Mem.MpoolBlocks
import CoolPotOS.Mem.MpoolAlloc
import CoolPotOS.Mem.MpoolChanges
import CoolPotOS.Mem.MpoolFree
import CoolPotOS.Mem.MpoolCalls
import CoolPotOS.Mem.MpoolRun
import CoolPotOS.Mem.MpoolContract
import CoolPotOS.Fs.Poll
import CoolPotOS.Net.UnixResize
import CoolPotOS.Task.UserStack
import CoolPotOS.Fs.Getdents
import CoolPotOS.Task.Shebang
import CoolPotOS.Fs.VfsFollow
import CoolPotOS.Task.Execve
import CoolPotOS.Fs.Sendfile
import CoolPotOS.Fs.Rename
import CoolPotOS.Task.Cmdline
import CoolPotOS.Task.EevdfScale
import CoolPotOS.Mod.Dlinker
import CoolPotOS.Mem.PageListBag
import CoolPotOS.Fs.OverlayFail
