import Pintos.Devices.Calibrate
import Pintos.Devices.Disk
import Pintos.Devices.Intq
import Pintos.Filesys.DirectoryMap
import Pintos.Filesys.InodeSync
import Pintos.Filesys.LockOrder
import Pintos.Filesys.Restart
import Pintos.Lib.Arithmetic
import Pintos.Lib.HashIterator
import Pintos.Lib.ListUnique
import Pintos.Lib.Search
import Pintos.Threads.Alarm
import Pintos.Threads.Realloc
import Pintos.Threads.Schedule
import Pintos.Threads.SynchList
import Pintos.Threads.TickWalk
import Pintos.Userprog.CommandLine
import Pintos.Userprog.Execute
import Pintos.Userprog.FailedOpen
import Pintos.Userprog.FileCalls
import Pintos.Userprog.LoadExit
import Pintos.Userprog.ReadWrite
import Pintos.Userprog.Termination
import Pintos.Userprog.Waitable
