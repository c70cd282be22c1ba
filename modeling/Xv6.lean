import Xv6.Lib.System
import Xv6.Lib.Crash
import Xv6.Param
import Xv6.Disk.Block
import Xv6.Log.RecoveryProofs
import Xv6.Lib.Count
import Xv6.Log.Reservation
import Xv6.Lib.Wait
import Xv6.Pipe.Wakeup
import Xv6.Pipe.Fifo
import Xv6.Pipe.Read
import Xv6.Cache.OneDisk
import Xv6.Bio.Structure
import Xv6.Console.Lines
import Xv6.Lib.Lock
import Xv6.Proc.Publish
import Xv6.Proc.WaitExit
import Xv6.Proc.Kill
import Xv6.Sleep.SleepLock
import Xv6.Virtio.Driver
import Xv6.Fs.FileCalls
import Xv6.Fs.Reach
import Xv6.Fs.BadPointer
import Xv6.Fs.Paths
import Xv6.Fs.Shared
import Xv6.Fs.Bitmap
import Xv6.Vm.Grow
import Xv6.Vm.Strings
import Xv6.Mkfs.Image
import Xv6.Sh.Words
import Xv6.Grep.Lines
import Xv6.Xargs
import Xv6.Find
import Xv6.Memmove
import Xv6.Printf.Formats
import Xv6.Malloc.Core
import Xv6.Malloc.Runs
