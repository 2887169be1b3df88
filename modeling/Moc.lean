import Moc.Queue
import Moc.Client.Receive
import Moc.Client.Agree
import Moc.Client.Decode
import Moc.Client.Mainsync
import Moc.Client.Trigger
import Moc.Server.CacheExpiry
import Moc.Server.CachePresence
import Moc.Server.CacheCounter
import Moc.Server.CacheBounds
import Moc.Server.CacheKeys
import Moc.Server.CacheCommands
import Moc.Server.Accept
import Moc.Server.Echo
import Moc.Server.Entry
import Moc.Server.Busy
import Moc.Client.Eloop
import Moc.Client.Ids
import Moc.Client.Segments
import Moc.Client.Sending
import Moc.Client.Servers
import Moc.Client.Callbacks
import Moc.Server.Stop
import Moc.Server.Timers
import Moc.Server.BangBattle
import Moc.Server.Order
import Moc.Server.Sends
import Moc.Server.Delivery
import Moc.Server.SendLoops
import Moc.Server.Answer
import Moc.Server.Join
import Moc.Server.Drivers
import Moc.Server.BangQuit
import Moc.Server.TimerList
import Moc.Client.Transfer
import Moc.Server.RecvBuffers
import Moc.Client.Loading
import Moc.Clearsilver.NeHashWalk
import Moc.Lib.Crc
import Moc.Clearsilver.StrTables
import Moc.Server.UserTable
import Moc.Server.WorkerThread
import Moc.Client.CallbackTable
import Moc.Client.Pushes
import Moc.Client.Rpc
import Moc.Clearsilver.HdfLibrary
import Moc.Clearsilver.HdfPaths
import Moc.Clearsilver.HdfSafe
import Moc.Clearsilver.HdfEnds
import Moc.Clearsilver.HdfLibrary
