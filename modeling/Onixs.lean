import Onixs.Fs.Bmap
import Onixs.Fs.InodeMap
import Onixs.Fs.File
import Onixs.Fs.MapBlock
import Onixs.Fs.ReadWrite
import Onixs.Fs.Super
import Onixs.Common.RefCount
import Onixs.Kernel.CopyOnWrite
import Onixs.Kernel.BufferRun
import Onixs.Kernel.InodeReferences
import Onixs.Fs.WalkPath
import Onixs.Kernel.LostUpdate
import Onixs.Kernel.ArenaRun
import Onixs.Fs.InodeLoaded
import Onixs.Fs.PipeRun
import Onixs.Kernel.Elevator
import Onixs.Kernel.MutexRun
import Onixs.Kernel.SchedSteps
import Onixs.Kernel.SchedLife
import Onixs.Kernel.SchedFamily
import Onixs.Kernel.SchedRun
import Onixs.Kernel.TaskExit
import Onixs.Kernel.OpenFileCounts
import Onixs.Fs.MountPoint
import Onixs.Fs.SuperTable
import Onixs.Fs.Truncate
import Onixs.Fs.InodeCache
import Onixs.Fs.MountTable
import Onixs.Fs.OpenMode
import Onixs.Fs.FullDevice
import Onixs.Fs.ReadSuper
import Onixs.Kernel.UmountRun
import Onixs.Kernel.Dup
import Onixs.Kernel.WriteOpen
import Onixs.Fs.EntryNames
import Onixs.Fs.Abspath
import Onixs.Fs.LookupBuffers
import Onixs.Fs.AddEntry
import Onixs.Fs.FailedOpen
import Onixs.Kernel.SchedTicks
import Onixs.Kernel.Preemption
import Onixs.Kernel.WakeupTime
import Onixs.Kernel.FreePages
import Onixs.Kernel.FaultRegions
import Onixs.Kernel.MmapRange
import Onixs.Kernel.KernelStore
import Onixs.Kernel.FreshPages
import Onixs.Kernel.LoadedDirectory
import Onixs.Kernel.Descriptors
import Onixs.Kernel.FileCalls
import Onixs.Kernel.Seek
import Onixs.Kernel.HoleRun
import Onixs.Kernel.BlockFiles
import Onixs.Kernel.PipeResources
import Onixs.Kernel.Ramdisk
import Onixs.Kernel.Time
import Onixs.Lib.Number
import Onixs.Lib.FormatScan
import Onixs.Kernel.Console
import Onixs.Kernel.Terminal
import Onixs.Lib.String
import Onixs.Kernel.Execve
import Onixs.Kernel.Arguments
import Onixs.Lib.Queue
import Onixs.Lib.BitmapScan
import Onixs.Kernel.Sessions
import Onixs.Kernel.Isolation
import Onixs.Kernel.SysTime
import Onixs.Kernel.Keyboard
import Onixs.Builtin.Readline
import Onixs.Builtin.CmdParse
import Onixs.Builtin.Pipeline
import Onixs.Kernel.MemoryMap
import Onixs.Kernel.LoadElf
import Onixs.Lib.ListRun
import Onixs.Fs.Remove
import Onixs.Fs.Removed
import Onixs.Fs.Unlink
import Onixs.Kernel.Fairness
import Onixs.Common.Contents
import Onixs.Fs.Contents
import Onixs.Kernel.ByteFiles
import Onixs.Kernel.ReadBack
import Onixs.Kernel.CharRead
