import Ndsl.Lib.Bytes
import Ndsl.Proofs.Multiplexer.RoundTrip
import Ndsl.Proofs.TimeWheel.KeepsTime
import Ndsl.Proofs.TimeWheel.OneShot
import Ndsl.Proofs.Dtp.RecvTimers
import Ndsl.Proofs.Dtp.Copies
import Ndsl.Proofs.EventLoop.Quit
import Ndsl.Proofs.Dtp.Agree
import Ndsl.Proofs.Multiplexer.Routing
import Ndsl.Proofs.Multiplexer.Progress
import Ndsl.Proofs.Multiplexer.Bounds
import Ndsl.Proofs.TcpConnection.SendStream
import Ndsl.Proofs.TcpConnection.EdgeTrigger
import Ndsl.Proofs.TcpConnection.SendFile
import Ndsl.Proofs.TcpConnection.Receive
import Ndsl.Proofs.TcpConnection.Pair
import Ndsl.Proofs.Registry.Consistent
import Ndsl.Proofs.Dtp.FileSession
import Ndsl.Proofs.Dtp.DataSession
import Ndsl.Proofs.RecvData.InBlock
import Ndsl.Proofs.RecvData.Reassembles
import Ndsl.Proofs.Udp.Session
import Ndsl.Proofs.RecvFile.Paths
import Ndsl.Proofs.Transfers.Clients
import Ndsl.Proofs.Epoll.Dispatch
import Ndsl.Proofs.Dns.Completes
import Ndsl.Proofs.Dns.Inside
import Ndsl.Proofs.ELThreadpool.Selects
import Ndsl.Proofs.Semaphore.Wakes
import Ndsl.Proofs.WQThreadpool.Finishes
import Ndsl.Proofs.TcpAcceptor.OneShot
import Ndsl.Proofs.UnixAcceptor.OneShot
import Ndsl.Proofs.RdmaAcceptor.Pairs
import Ndsl.Lib.Matching
import Ndsl.Net.RdmaConnection
import Ndsl.Proofs.RdmaConnection.Matches
import Ndsl.Proofs.TimeWheel.Effects
import Ndsl.Proofs.TimeWheel.Cancels
import Ndsl.Proofs.TimeWheel.Periodic
import Ndsl.Proofs.Dns.Ids
import Ndsl.Proofs.Dtp.Checksum
import Ndsl.Proofs.Dtp.NoZero
import Ndsl.Proofs.TimeWheel.Moves
import Ndsl.Proofs.TimeWheel.Sums
import Ndsl.Proofs.RecvFile.Earlier
import Ndsl.Proofs.Dtp.Offers
import Ndsl.Proofs.Dtp.NoticeParam
import Ndsl.Proofs.Dtp.StoredOffers
import Ndsl.Proofs.Sending.Cases
import Ndsl.Proofs.Sending.FailedSend
import Ndsl.Proofs.Sending.Targets
import Ndsl.Proofs.Sending.UdpAnswers
import Ndsl.Proofs.Sending.Entries
import Ndsl.Proofs.Sending.Resend
import Ndsl.Proofs.ELThreadpool.Balances
import Ndsl.Proofs.ELThreadpool.Failures
import Ndsl.Proofs.RdmaConnection.Covers
import Ndsl.Proofs.Dns.Names
import Ndsl.Proofs.Dns.Refused
import Ndsl.Proofs.Dns.Drains
import Ndsl.Proofs.PipeAndFifo.SendStream
import Ndsl.Proofs.UnixConnection.Receive
import Ndsl.Proofs.Udp.Receive
import Ndsl.Proofs.Udp.Send
import Ndsl.Proofs.Dns.Table
import Ndsl.Proofs.WQThreadpool.Restarts
import Ndsl.Utils.TimeStamp
import Ndsl.Proofs.Log.Records
import Ndsl.Proofs.SocketAddressUn.Copies
import Ndsl.Proofs.TimeStamp.Order
import Ndsl.Proofs.Guid.Order
import Ndsl.Proofs.Dtp.Parse
import Ndsl.Proofs.Dtp.Delivers
import Ndsl.Proofs.Exchange.Data
import Ndsl.Proofs.Exchange.Datagram
import Ndsl.Proofs.Exchange.File
import Ndsl.Proofs.Exchange.Conversation
import Ndsl.Proofs.Fifo.Meets
import Ndsl.Proofs.RdmaClient.Lives
import Ndsl.Proofs.Dns.Resolves
