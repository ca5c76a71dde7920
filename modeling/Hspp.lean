import Hspp.Lib.Access
import Hspp.Lib.CInt
import Hspp.Lib.Custody
import Hspp.Lib.Feed
import Hspp.Lib.Fifo
import Hspp.Lib.Loop
import Hspp.Lib.Memory
import Hspp.Lib.Checksum
import Hspp.Lib.Records
import Hspp.Lib.Rows
import Hspp.Lib.Text
import Hspp.Lib.Lines
import Hspp.Lib.Keyed
import Hspp.Lib.Rotation
import Hspp.Lib.CLex
import Hspp.Lib.Transition
import Hspp.Netlink
import Hspp.Socket
import Hspp.Request
import Hspp.RequestSafety
import Hspp.RequestDelivery
import Hspp.RequestTruncated
import Hspp.Rtattr
import Hspp.RtattrWalk
import Hspp.LinkInfo
import Hspp.LinkInfoBounds
import Hspp.LinkInfoVlan
import Hspp.VlanLeaks
import Hspp.LinkInfoConfined
import Hspp.Flags
import Hspp.FlagsText
import Hspp.Hexdump
import Hspp.Carrydump
import Hspp.CarrydumpReads
import Hspp.Types
import Hspp.RtaToStr
import Hspp.RtaToStrReads
import Hspp.Dump
import Hspp.DumpResidual
import Hspp.RtaToStrText
import Hspp.Monitor
import Hspp.MonitorPrint
import Hspp.MonitorLines
import Hspp.MonitorLog
import Hspp.MonitorErr
import Hspp.MonitorStable
import Hspp.YalinMain
import Hspp.Forwarder
import Hspp.ForwarderCustody
import Hspp.ForwarderOrder
import Hspp.ForwarderPool
import Hspp.ForwarderBlocking
import Hspp.ForwarderHostif
import Hspp.ForwarderRounds
import Hspp.PortAlloc
import Hspp.YakMain
import Hspp.Bpf
import Hspp.BpfRuns
import Hspp.BpfDump
import Hspp.Recvpkt
