import Ezos.Mem.PmmRuns
import Ezos.Mem.PagingRuns
import Ezos.Mem.KmallocRuns
import Ezos.Exec.ElfAtomic
import Ezos.Lib.Run
import Ezos.Exfat.Volume
import Ezos.Exfat.FormatLayout
import Ezos.Exfat.FormatSound
import Ezos.Exfat.Names
import Ezos.Exfat.Dir
import Ezos.Exfat.FindEntry
import Ezos.Exfat.FatCache
import Ezos.Exfat.DirView
import Ezos.Exfat.Fsck
import Ezos.Lib.Unfold
import Ezos.Lib.Serial
import Ezos.Net.DnsCache
import Ezos.Lib.NetOrder
import Ezos.Lib.OnesComplement
import Ezos.Net.Dhcp
import Ezos.Net.DhcpRuns
import Ezos.Net.Tcp
import Ezos.Net.TcpTable
import Ezos.Net.TcpLife
import Ezos.Net.TcpHandshake
import Ezos.Net.TcpTimer
import Ezos.Net.TcpLedger
import Ezos.Net.TcpReceive
import Ezos.Net.TcpBlocks
import Ezos.Net.TcpRefine
import Ezos.Net.TcpBuffers
import Ezos.Net.Stack
import Ezos.Net.Staged
import Ezos.Net.SendVia
import Ezos.Net.Agreement
import Ezos.Exec.ElfImage
import Ezos.Mem.UserRange
import Ezos.Lib.Scan
import Ezos.Lib.Unicode
import Ezos.Text.Utf
import Ezos.Text.Decoding
import Ezos.Lib.EditDistance
import Ezos.Text.Levenshtein
import Ezos.Text.RoundTrip
import Ezos.Text.Checksums
import Ezos.Lib.Tally
import Ezos.Proc.Fd
import Ezos.Proc.PipeCounts
import Ezos.Proc.PipeLedger
import Ezos.Proc.PipeFifo
import Ezos.Proc.PipeRefs
import Ezos.Lib.Intrusive
import Ezos.Proc.Sched
import Ezos.Proc.SchedQueues
import Ezos.Html.Parse
import Ezos.Html.Scanners
import Ezos.Html.States
import Ezos.Html.Sound
import Ezos.Lib.Rows
import Ezos.Html.Deeds
import Ezos.Html.Links
import Ezos.Html.Wrap
import Ezos.Html.ReadAttr
import Ezos.Html.Webview
import Ezos.Fs.Absolute
import Ezos.Fs.Cwd
import Ezos.Fs.Routes
import Ezos.Fs.RoAbs
import Ezos.Exfat.FsckEnds
import Ezos.Fat.Agreement
import Ezos.Fs.WalksAgree
import Ezos.Fat.Mirror
import Ezos.Ext4.HashTree
import Ezos.Ext4.Counts
import Ezos.Fat.Unique
import Ezos.Fat.RoundTrip
import Ezos.Fat.DirWalk
import Ezos.Fat.FormatRoom
import Ezos.Fat.Entries
import Ezos.Fat.EntryRuns
import Ezos.Fat.MountSound
import Ezos.Ntfs.RmdirAtomic
import Ezos.Ntfs.RunCodec
import Ezos.Ntfs.UpdateSequence
import Ezos.F2fs.Switch
import Ezos.Erofs.ZFiles
import Ezos.F2fs.Alloc
import Ezos.F2fs.AllocRuns
import Ezos.F2fs.Format
import Ezos.F2fs.FormatLogs
import Ezos.F2fs.NodeTable
import Ezos.F2fs.NodePath
import Ezos.Mem.KmallocGuard
import Ezos.Mem.UefiMap
import Ezos.Proc.TimedSleep
import Ezos.Proc.Files
import Ezos.Proc.Posix
import Ezos.Net.RxRing
import Ezos.Disk.Nvme
import Ezos.Disk.Ahci
import Ezos.Net.DnsNames
import Ezos.Net.DnsReply
import Ezos.Net.DhcpOptions
import Ezos.Net.UdpRing
import Ezos.Net.HttpUrl
import Ezos.Net.HttpChunked
import Ezos.Lib.LongestSuffix
import Ezos.Log.Dmesg
import Ezos.Usb.MassStorage
import Ezos.Lib.Lz4
import Ezos.Erofs.Lz4
