import EasyReactor.Foundation.BinHeap
import EasyReactor.Foundation.Outcome
import EasyReactor.Buffer.Memory
import EasyReactor.Buffer.Sharing
import EasyReactor.Timer.Queue
import EasyReactor.Timer.Position
import EasyReactor.Timer.Order
import EasyReactor.Timer.Ledger
import EasyReactor.Timer.Notifier
import EasyReactor.Timer.Pioneer
import EasyReactor.Timer.Handle
import EasyReactor.Timer.Expiry
import EasyReactor.Loop.Timing
import EasyReactor.Loop.Cancelling
import EasyReactor.Loop.PendingTasks
import EasyReactor.Loop.ProcessEvs
import EasyReactor.Loop.Registrations
import EasyReactor.Thread.Queue
import EasyReactor.Thread.TaskPool
import EasyReactor.Acceptor.Range
import EasyReactor.Acceptor.Numbers
import EasyReactor.Acceptor.Room
import EasyReactor.Acceptor.Limit
import EasyReactor.Acceptor.Reserve
import EasyReactor.Server.Life
import EasyReactor.Server.Rollback
import EasyReactor.Client.Decoding
import EasyReactor.Client.Output
import EasyReactor.Client.Bounds
import EasyReactor.Client.Confined
import EasyReactor.Delivery.EndToEnd
import EasyReactor.Client.Sockets
import EasyReactor.Delivery.Admissible
import EasyReactor.System.Runs
import EasyReactor.Workers.Accounting
import EasyReactor.Udp.RoundTrip
import EasyReactor.Config.Rendering
import EasyReactor.Config.Lookup
import EasyReactor.Config.StringList
import EasyReactor.Timer.Hold
import EasyReactor.Loop.Delays
import EasyReactor.Timer.Recycling
import EasyReactor.Delivery.Capacity
import EasyReactor.Reactor.Conversation
import EasyReactor.Timer.CatchUp
import EasyReactor.Udp.Network
import EasyReactor.Buffer.Queues
import EasyReactor.Acceptor.RoundRobin
import EasyReactor.Reactor.Reconnects
import EasyReactor.Buffer.Growth
import EasyReactor.Client.Progress
import EasyReactor.Reactor.Draining
import EasyReactor.Reactor.Exchange
