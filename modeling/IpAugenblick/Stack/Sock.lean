/-
# Kinds and states of sockets

The part of `struct socket` and `struct sock` that the service looks at when it
decides what to do with a socket.
-/

import Mathlib.Logic.Basic

namespace IpAugenblick

/-- The socket types that the service creates. -/
inductive SockType
  | stream
  | dgram
  | raw
  deriving DecidableEq, Repr

/-- `sk_state`. -/
inductive TcpState
  | established
  | synSent
  | synRecv
  | finWait1
  | finWait2
  | timeWait
  | close
  | closeWait
  | lastAck
  | listen
  | closing
  deriving DecidableEq, Repr

/-- `tcp_fin`: the state after a FIN was received. -/
def tcpFin : TcpState → TcpState
  | .synRecv => .closeWait
  | .established => .closeWait
  | .finWait1 => .closing
  | .finWait2 => .timeWait
  | st => st

end IpAugenblick
