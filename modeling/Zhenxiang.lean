import Zhenxiang.Device.IdeProtocol
import Zhenxiang.Device.IoQueueWakeups
import Zhenxiang.Fs.SearchFile
import Zhenxiang.Fs.Fork
import Zhenxiang.Fs.Format
import Zhenxiang.Kernel.Bitmap
import Zhenxiang.Kernel.HeapSafety
import Zhenxiang.Paging.PagesCorrect
import Zhenxiang.Paging.PallocSafety
import Zhenxiang.Thread.Pid
import Zhenxiang.Thread.Switch
import Zhenxiang.Thread.SyncInvariant
import Zhenxiang.Userprog.SyscallSafety
import Zhenxiang.Paging.MemPool
import Zhenxiang.Device.Discovery
import Zhenxiang.Fs.Descriptors
import Zhenxiang.Fs.DirRead
import Zhenxiang.Fs.Release
import Zhenxiang.Fs.Names
import Zhenxiang.Paging.Exhaustion
import Zhenxiang.Paging.SpacesCorrect
import Zhenxiang.Userprog.Fork
import Zhenxiang.Userprog.ForkCopies
import Zhenxiang.Device.IdeTransfer
import Zhenxiang.Kernel.Screen
import Zhenxiang.Kernel.PutInt
import Zhenxiang.Device.KeyboardHeld
import Zhenxiang.Device.TimerSleep
import Zhenxiang.Fs.PathBytes
import Zhenxiang.Kernel.ListRefines
import Zhenxiang.Boot.MemDetect
import Zhenxiang.Device.ConsoleOutput
import Zhenxiang.Thread.RoundRobin
import Zhenxiang.Paging.HeapsReturned
import Zhenxiang.Paging.Isolation
import Zhenxiang.Fs.FileStore
