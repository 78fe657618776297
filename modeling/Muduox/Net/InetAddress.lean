import Muduox.Lib.ByteOrder
import Muduox.Net.TcpServer

/-!
# `InetAddress` and the text of addresses

`muduox/net/tcp/InetAddress.h` and `InetAddress.cpp`, with the byte order and
the printing of `SocketOps.cpp`. A `sockaddr_in` keeps its port and its address
in network order: what a host reads in them as numbers depends on how its own
numbers lie in memory (`o`). `inet_pton` and `inet_ntop` are those of the C
library, on the four bytes in memory.
-/

namespace Muduox.Net

def AF_INET : Nat := 2

def INADDR_ANY : UInt32 := 0

def INADDR_LOOPBACK : UInt32 := 0x7f000001

/-- `sockaddr_in`, less its padding. -/
structure SockAddrIn where
  sin_family : Nat := 0
  sin_port : UInt16 := 0
  sin_addr : UInt32 := 0
  deriving DecidableEq

namespace sockets

variable (o : ByteOrder)

/-- `htonl`: a number that lies in memory high byte first. -/
def hostToNetwork32 (host : UInt32) : UInt32 :=
  UInt32.ofNat (o.value (ByteOrder.big.memory 4 host.toNat))

/-- `htons`. -/
def hostToNetwork16 (host : UInt16) : UInt16 :=
  UInt16.ofNat (o.value (ByteOrder.big.memory 2 host.toNat))

/-- `ntohs`. -/
def networkToHost16 (net : UInt16) : UInt16 :=
  UInt16.ofNat (ByteOrder.big.value (o.memory 2 net.toNat))

end sockets

/-- Numbers between dots. -/
def dotted (bs : List UInt8) : List Char :=
  List.intercalate ['.'] (bs.map fun b => Nat.toDigits 10 b.toNat)

/-- `inet_ntop(AF_INET, src, dst, size)`; it writes nothing when the text does
not fit. -/
def inet_ntop (src : List UInt8) (size : Nat) : Option (List Char) :=
  if (dotted src).length < size then some (dotted src) else none

/-- The variables of `inet_pton`: the octets before `*tp`, the one it is at,
how many have begun, and whether that one has. -/
structure Pton where
  tmp : List UInt8 := []
  tp : UInt8 := 0
  octets : Nat := 0
  saw_digit : Bool := false

/-- `inet_pton` on one character; a number takes no leading zero. -/
def Pton.step (s : Pton) (ch : Char) : Option Pton :=
  if ch.isDigit then
    let new := s.tp.toNat * 10 + (ch.toNat - 48)
    if s.saw_digit && s.tp == 0 then none
    else if 255 < new then none
    else if s.saw_digit then some { s with tp := UInt8.ofNat new }
    else if s.octets = 4 then none
    else some { s with tp := UInt8.ofNat new, octets := s.octets + 1, saw_digit := true }
  else if ch = '.' ∧ s.saw_digit then
    if s.octets = 4 then none
    else some { s with tmp := s.tmp ++ [s.tp], tp := 0, saw_digit := false }
  else none

/-- `inet_pton(AF_INET, src, dst)`: what it writes, unless it refuses `src`. -/
def inet_pton (src : List Char) : Option (List UInt8) :=
  (src.foldlM Pton.step {}).bind fun s =>
    if s.octets < 4 then none else some (s.tmp ++ [s.tp])

/-- `c_str()`, up to the character that ends it. -/
def cStr (s : List Char) : List Char := s.takeWhile (· != '\x00')

/-- `sockets::toIpPort`: what is in `buf` after it, all zero before. -/
def sockets.toIpPort (o : ByteOrder) (size : Nat) (ip : UInt32) (port : UInt16) : List Char :=
  let buf := (inet_ntop (o.memory 4 ip.toNat) size).getD []
  buf ++ snprintf (size - buf.length)
    (':' :: Nat.toDigits 10 (sockets.networkToHost16 o port).toNat)

structure InetAddress where
  addr_ : SockAddrIn
  deriving DecidableEq

namespace InetAddress

variable (o : ByteOrder)

/-- `InetAddress(uint16_t, bool)`. -/
def ofPort (port : UInt16) (loopbackOnly : Bool) : InetAddress :=
  ⟨{ sin_family := AF_INET
     sin_port := sockets.hostToNetwork16 o port
     sin_addr := if loopbackOnly then sockets.hostToNetwork32 o INADDR_LOOPBACK
       else sockets.hostToNetwork32 o INADDR_ANY }⟩

/-- `InetAddress(const std::string&, uint16_t)`, where nobody looks at what
`inet_pton` returns. -/
def ofText (ip : List Char) (port : UInt16) : InetAddress :=
  let addr : SockAddrIn :=
    { sin_family := AF_INET, sin_port := sockets.hostToNetwork16 o port }
  ⟨match inet_pton (cStr ip) with
    | some bs => { addr with sin_addr := UInt32.ofNat (o.value bs) }
    | none => addr⟩

variable (a : InetAddress)

def toIp : List Char := (inet_ntop (o.memory 4 a.addr_.sin_addr.toNat) 16).getD []

def toPort : UInt16 := sockets.networkToHost16 o a.addr_.sin_port

def toIpPort : List Char := sockets.toIpPort o 32 a.addr_.sin_addr a.addr_.sin_port

end InetAddress

end Muduox.Net
