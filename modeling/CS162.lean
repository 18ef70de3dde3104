import CS162.Cache.Freshness
import CS162.Filesys.Growth
import CS162.Userprog.FileLock
import CS162.Userprog.Lifetime
import CS162.Userprog.Wait
import CS162.Devices.Intq
import CS162.Threads.Condition
import CS162.Threads.Scheduler
import CS162.Cache.Locking
import CS162.Kernel.List
import CS162.Threads.Malloc
import CS162.Userprog.Pagedir
import CS162.Kernel.BitmapArray
import CS162.Kernel.Hash
import CS162.Hw2.HttpServer
import CS162.Filesys.Remount
import CS162.Filesys.FailedCreation
import CS162.Filesys.Fsutil
import CS162.Cache.Lru
import CS162.Hw3.MmContract
import CS162.Userprog.Stack
import CS162.Lib.Stdlib
import CS162.Lib.Arithmetic
import CS162.Lib.String
import CS162.Threads.FixedPoint
import CS162.Devices.Rtc
import CS162.Hw2.Files
import CS162.Hw1.Tokenizer
