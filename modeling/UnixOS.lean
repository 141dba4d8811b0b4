import UnixOS.Net.TcpDelivery
import UnixOS.Net.RxBounds
import UnixOS.Fs.RamfsShared
import UnixOS.Ipc.PipeEnds
import UnixOS.Fs.MountArraysInv
import UnixOS.Fs.VfsHeapCalls
import UnixOS.Net.TcpSendBuffer
import UnixOS.Sched.RoundRobin
import UnixOS.Sched.SignalDelivery
import UnixOS.Mm.MemoryMap
import UnixOS.Syscall.KernelMemory
import UnixOS.Core.ProcessExec
import UnixOS.Core.ProcessStacks
import UnixOS.Apps.KeyInput
import UnixOS.Core.PrintkLog
import UnixOS.Drivers.Nvme
import UnixOS.Gui.TerminalGrid
import UnixOS.Sandbox.Sandbox
import UnixOS.Apps.FileHandles
import UnixOS.Media.ZipStream
import UnixOS.Media.ZipRoundTrip
import UnixOS.Libc.Malloc
import UnixOS.Drivers.StorageSplit
import UnixOS.Drivers.DiskImage
import UnixOS.Mm.KmallocDoubleFree
import UnixOS.X64.HeapRuns
import UnixOS.Mm.KmallocContent
import UnixOS.Fs.VfsDispatch
import UnixOS.Fs.SaveFile
import UnixOS.Fs.IsoWalk
import UnixOS.Fs.Ext4MountSafety
import UnixOS.Fs.Ext4DirInsert
import UnixOS.Fs.Ext4ReadBack
import UnixOS.Fs.IsoRead
import UnixOS.Net.ArpCache
import UnixOS.Net.PacketBytes
import UnixOS.X64.DesktopPaste
import UnixOS.Mm.VmmRangeCalls
import UnixOS.Mm.UserRangeCalls
import UnixOS.Loader.ElfLoads
import UnixOS.Media.Base64
import UnixOS.Media.ZipScan
import UnixOS.Media.ZipLayout
import UnixOS.Net.DnsQuery
import UnixOS.Drivers.VirtioNet
import UnixOS.Sched.TaskCreation
import UnixOS.Core.ProcessSweep
import UnixOS.Core.PrintkBounds
import UnixOS.Gui.Ipv4Text
import UnixOS.Apps.Login
import UnixOS.X64.TreePaths
import UnixOS.Libc.Scanf
import UnixOS.X64.OpenHandles
import UnixOS.Media.PathStore
