import IpAugenblick.Mbuf
import IpAugenblick.Stack.RefCount
import IpAugenblick.Stack.Frames
import IpAugenblick.Client.Conserve
import IpAugenblick.Client.Runs
import IpAugenblick.Client.Stream
import IpAugenblick.Client.Release
import IpAugenblick.Client.Lengths
import IpAugenblick.Rx.Slot
import IpAugenblick.Rx.Wakeup
import IpAugenblick.Rx.Fifo
import IpAugenblick.Rx.Delivery
import IpAugenblick.Rx.Typed
import IpAugenblick.Rx.Backpressure
import IpAugenblick.Service.Slots
import IpAugenblick.Lib.Custody
import IpAugenblick.Service.AppGlue
import IpAugenblick.Service.Loop
import IpAugenblick.Service.Sockets
import IpAugenblick.Service.References
import IpAugenblick.Service.Alive
import IpAugenblick.Service.Hands
import IpAugenblick.Service.Buffers
import IpAugenblick.Service.Connections
import IpAugenblick.Service.Accepted
import IpAugenblick.Tx.Kick
import IpAugenblick.Tx.Writable
import IpAugenblick.Tx.Burst
import IpAugenblick.Tx.Promise
import IpAugenblick.Service.Waiting
import IpAugenblick.Service.Ready
import IpAugenblick.Service.Registration
import IpAugenblick.Service.Arrays
import IpAugenblick.Service.Recycled
import IpAugenblick.Stack.Datagram
import IpAugenblick.Stack.Iovec
import IpAugenblick.Stack.Gather
import IpAugenblick.Stack.ExpandHead
import IpAugenblick.Stack.Progress
import IpAugenblick.Stack.Account
import IpAugenblick.Stack.Reassembly
import IpAugenblick.Glue.Balance
import IpAugenblick.Lib.TailQueue
import IpAugenblick.Select.Client
import IpAugenblick.Select.Fdsets
import IpAugenblick.Select.Cache
import IpAugenblick.Select.Level
import IpAugenblick.Client.Detach
import IpAugenblick.Porting.Updates
import IpAugenblick.Porting.Addresses
import IpAugenblick.Porting.Config
import IpAugenblick.Porting.Timers
import IpAugenblick.Stack.Checksum
import IpAugenblick.Stack.Random
import IpAugenblick.Ip.Fragment
import IpAugenblick.Ip.FragQueue
import IpAugenblick.Ip.Defrag
import IpAugenblick.Dpdk.RingAlone
import IpAugenblick.Stack.EndToEnd
import IpAugenblick.Route.Frontend
import IpAugenblick.Route.Aliases
