import Jump.Comm.IniParse.RoundTrip
import Jump.Comm.IniParse.Safety
import Jump.Comm.IniParse.Values
import Jump.Comm.Table.Rows
import Jump.GameServer.Lifetime
import Jump.GameServer.ProfilePool.Concurrent
import Jump.GameServer.Registration
import Jump.MemPool.Fixed.Reachable
import Jump.MemPool.Hash.Walk
import Jump.MemPool.LruHash.Contiguous
import Jump.MemPool.LruHash.Iterate
import Jump.MemPool.LruHash.Order
import Jump.MemPool.RBTree.Crash
import Jump.MemPool.RBTree.Serials
import Jump.MemPool.RBTree.Walk
import Jump.Skynet.Bson.RoundTrip
import Jump.Skynet.Crypt.Exchange
import Jump.Skynet.Crypt.Text
import Jump.Skynet.DataCenter.Waits
import Jump.Skynet.GateService.Reassembly
import Jump.Skynet.GateService.Requests
import Jump.Skynet.GateService.SlotSet
import Jump.Skynet.GlobalNames.Agreement
import Jump.Skynet.Handle.Concurrent
import Jump.Skynet.HarborLink.Bounds
import Jump.Skynet.HarborService.Handshake
import Jump.Skynet.HarborService.Routing
import Jump.Skynet.HarborService.SizeLimit
import Jump.Skynet.LuaSeri.RoundTrip
import Jump.Skynet.LuaSocket.Readline
import Jump.Skynet.Multicast.Publish
import Jump.Skynet.NetpackQueue.Delivery
import Jump.Skynet.Queue
import Jump.Skynet.RwLock
import Jump.Skynet.Server.Delivery
import Jump.Skynet.ShareData.Read
import Jump.Skynet.SocketServer.Pipe
import Jump.Skynet.SocketServer.StaleIds
import Jump.Skynet.SocketServer.TcpWrites
import Jump.Skynet.SocketServer.UserObjects
import Jump.Skynet.SocketServer.WriteBuffers
import Jump.Skynet.SocketServer.WriteEvents
import Jump.Skynet.Sproto.DecodeBounds
import Jump.Skynet.Sproto.DecodeStruct
import Jump.Skynet.Stm.Reading
import Jump.Skynet.TimerWheel.Clock
import Jump.Skynet.TimerWheel.Refine
import Jump.Zone.Routing
