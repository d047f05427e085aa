import AdhocNode.RxFrame
import AdhocNode.RxTypes
import AdhocNode.TxTiling
import AdhocNode.TxWalk
import AdhocNode.TxFrame
import AdhocNode.Link
import AdhocNode.TcpTable
import AdhocNode.TcpClose
import AdhocNode.TcpStream
import AdhocNode.HashMap
import AdhocNode.HashIsolation
import AdhocNode.HashOccupancy
import AdhocNode.HashClear
import AdhocNode.MultiReads
import AdhocNode.MultiRegions
import AdhocNode.MultiDatagram
import AdhocNode.CollectRange
import AdhocNode.CollectFile
import AdhocNode.MailDelivery
import AdhocNode.CutChar
import AdhocNode.ConfFile
import AdhocNode.SemPv
import AdhocNode.MsgTransfer
import AdhocNode.ListWalk
import AdhocNode.HlistWalk
import AdhocNode.RouteEnd
import AdhocNode.RxMerged
import AdhocNode.HashDrift
import AdhocNode.HashPrint
import AdhocNode.HashStrings
import AdhocNode.SocketLedger
import AdhocNode.LogRotate
import AdhocNode.MmapFile
import AdhocNode.MultiNet
import AdhocNode.SortArr
import AdhocNode.TcpClient
import AdhocNode.MyFgets
