import Pintos.Lib.Reach
import Pintos.Filesys.RwLock
import Pintos.Filesys.OpenInodes
import Pintos.Threads.Scheduler
import Pintos.Threads.Thread
import Pintos.Threads.ReadyQueues
import Pintos.Filesys.Cache
import Pintos.Lib.Simulation
import Pintos.Filesys.CacheRefinement
import Pintos.Filesys.CacheConcurrent
import Pintos.User.Malloc
import Pintos.User.MallocWalk
import Pintos.User.MallocCoalesce
import Pintos.User.MallocHeap
import Pintos.User.Realloc
import Pintos.Kernel.Bitmap
import Pintos.Lib.Runs
import Pintos.Threads.Palloc
import Pintos.Userprog.Bond
import Pintos.Filesys.Inode
import Pintos.Filesys.Directory
import Pintos.Filesys.File
import Pintos.Filesys.Filesys
import Pintos.Userprog.Syscall
import Pintos.Threads.Malloc
import Pintos.Lib.FreeList
import Pintos.Threads.MallocArenas
import Pintos.Threads.MallocFree
import Pintos.Threads.MallocSpec
import Pintos.Threads.Synch
import Pintos.Threads.SynchInv
import Pintos.Threads.SynchSpec
import Pintos.Lib.ArgMin
import Pintos.Threads.Cfs
import Pintos.Filesys.InodeConcurrent
import Pintos.Filesys.CacheProgress
import Pintos.Devices.Timer
import Pintos.Userprog.SetupArgs
import Pintos.Userprog.Pagedir
import Pintos.Vm.Mem
import Pintos.Userprog.UserMem
import Pintos.Lib.RingBuffer
import Pintos.Filesys.Pipe
import Pintos.Libc.Arithmetic
import Pintos.Lib.LongDivision
import Pintos.Threads.Balance
import Pintos.Devices.Partition
import Pintos.Lib.Fifo
import Pintos.Kernel.Queue
import Pintos.Libc.String
import Pintos.Lib.StableSort
import Pintos.Kernel.List
import Pintos.Lib.ArrayHeap
import Pintos.Libc.Stdlib
import Pintos.Libc.Stdio
import Pintos.Libc.Ustar
import Pintos.Lib.Buckets
import Pintos.Kernel.Hash
import Pintos.Kernel.HashRefinement
import Pintos.Libc.Random
import Pintos.Devices.Intq
import Pintos.Userprog.PagedirMap
import Pintos.Userprog.Load
import Pintos.Userprog.PagedirRefinement
