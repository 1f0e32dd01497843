import CLIos.Lib.Custody
import CLIos.Lib.Machine

/-!
# Sockets

The socket library (components/NET/net_socket.c).  A handle is a userdata with a
descriptor and the kind of its metatable; both metatables have no `__gc`, so a
handle that is collected leaves its descriptor as it is.  The answers of the
system calls are part of the event: `none` for a call that fails, else the
descriptor it returns, which is none of the open ones.

`opened` lists the descriptors that the library has opened and not closed, and
`closed` the calls of `close(2)` that it has made, each with the handle it was for.
-/

namespace CLIos

open Resources Runs

/-- `lua_sock_t`, and whether a Lua value refers to it still. -/
structure Sock where
  fd : Int
  isUdp : Bool
  live : Bool
deriving DecidableEq

structure Sockets where
  handles : List Sock
  opened : List Int
  closed : List (Nat × Int)

inductive SockValue where
  | boolean (b : Bool)
  | integer (i : Int)
  | string (s : List UInt8)
  | sock (k : Nat)
deriving DecidableEq

/-- What a call returns, or the message of the error it raises. -/
abbrev SockAnswer := Except String SockValue

/-- How the calls end that `F_CONNECT` makes; `badArgument` is the message of a
`luaL_check` function. -/
structure ConnectTurn where
  badArgument : Option String
  resolved : Bool
  fd : Option Nat
  connected : Bool

structure ListenTurn where
  badArgument : Option String
  fd : Option Nat
  bound : Bool
  listening : Bool

/-- `received` is `none` if `recv` returns a negative number. -/
structure RecvTurn where
  badArgument : Option String
  allocated : Bool
  received : Option (List UInt8)

inductive SockEvent where
  | tcp
  | udp (fd : Option Nat)
  | connect (k : Nat) (t : ConnectTurn)
  | listen (k : Nat) (t : ListenTurn)
  | accept (k : Nat) (fd : Option Nat)
  | send (k : Nat) (badArgument : Option String) (w : Int)
  | recv (k : Nat) (t : RecvTurn)
  | close (k : Nat)
  | bind (k : Nat) (badArgument : Option String) (bound : Bool)
  | sendto (k : Nat) (badArgument : Option String) (w : Int)
  | recvfrom (k : Nat) (t : RecvTurn)
  | closeUdp (k : Nat)
  /-- the garbage collector frees the handle `k` -/
  | collect (k : Nat)

namespace Sockets

def typeName (isUdp : Bool) : String := if isUdp then "net.sock.udp" else "net.sock"

/-- `luaL_checkudata` -/
def checkSock (s : Sockets) (k : Nat) (isUdp : Bool)
    (body : Sock → Option (Sockets × SockAnswer)) : Option (Sockets × SockAnswer) :=
  s.handles[k]?.bind fun h =>
  if h.live = false then none
  else if h.isUdp = isUdp then body h
  else some (s, .error (typeName isUdp ++ " expected"))

/-- A system call that returns a new descriptor, or -1. -/
def sysOpen (s : Sockets) : Option Nat → Option (Sockets × Int)
  | none => some (s, -1)
  | some fd =>
    if (fd : Int) ∈ s.opened then none else some ({ s with opened := fd :: s.opened }, fd)

/-- `close(fd)` in a method of the handle `k` -/
def sysClose (s : Sockets) (k : Nat) (fd : Int) : Sockets :=
  { s with opened := s.opened.filter fun fd' => fd' ≠ fd, closed := s.closed ++ [(k, fd)] }

def setFd (s : Sockets) (k : Nat) (h : Sock) (fd : Int) : Sockets :=
  { s with handles := s.handles.set k { h with fd := fd } }

/-! ## TCP methods -/

def fConnect (s : Sockets) (k : Nat) (t : ConnectTurn) : Option (Sockets × SockAnswer) :=
  s.checkSock k false fun h =>
  match t.badArgument with
  | some msg => some (s, .error msg)
  | none =>
    if t.resolved = false then some (s, .error "getaddrinfo failed")
    else
      (s.sysOpen t.fd).bind fun (s, fd) =>
      let s := s.setFd k h fd
      if fd < 0 then some (s, .error "socket failed")
      else if t.connected = false then some (s, .error "connect failed")
      else some (s, .ok (.boolean true))

/-- `bind` of the descriptor -1 fails. -/
def fListen (s : Sockets) (k : Nat) (t : ListenTurn) : Option (Sockets × SockAnswer) :=
  s.checkSock k false fun h =>
  match t.badArgument with
  | some msg => some (s, .error msg)
  | none =>
    (s.sysOpen t.fd).bind fun (s, fd) =>
    let s := s.setFd k h fd
    if fd < 0 ∨ t.bound = false ∨ t.listening = false then some (s, .error "bind/listen failed")
    else some (s, .ok (.boolean true))

/-- A new handle. -/
def newSock (s : Sockets) (h : Sock) : Sockets × SockAnswer :=
  ({ s with handles := s.handles ++ [h] }, .ok (.sock s.handles.length))

def fAccept (s : Sockets) (k : Nat) (fd : Option Nat) : Option (Sockets × SockAnswer) :=
  s.checkSock k false fun h =>
  if fd.isSome ∧ h.fd ∉ s.opened then none
  else
    (s.sysOpen fd).bind fun (s, c) =>
    if c < 0 then some (s, .error "accept failed")
    else some (s.newSock ⟨c, false, true⟩)

def transfer (s : Sockets) (k : Nat) (isUdp : Bool) (badArgument : Option String) (w : Int) :
    Option (Sockets × SockAnswer) :=
  s.checkSock k isUdp fun _ =>
  match badArgument with
  | some msg => some (s, .error msg)
  | none => some (s, .ok (.integer w))

def receive (s : Sockets) (k : Nat) (isUdp : Bool) (t : RecvTurn) : Option (Sockets × SockAnswer) :=
  s.checkSock k isUdp fun _ =>
  match t.badArgument with
  | some msg => some (s, .error msg)
  | none =>
    if t.allocated = false then some (s, .error "out of memory")
    else some (s, .ok (.string (t.received.getD [])))

def closeSock (s : Sockets) (k : Nat) (isUdp : Bool) : Option (Sockets × SockAnswer) :=
  s.checkSock k isUdp fun h =>
  if 0 ≤ h.fd then some ((s.sysClose k h.fd).setFd k h (-1), .ok (.boolean true))
  else some (s, .ok (.boolean true))

def fSend (s : Sockets) (k : Nat) := s.transfer k false

def fRecv (s : Sockets) (k : Nat) := s.receive k false

def fClose (s : Sockets) (k : Nat) := s.closeSock k false

/-! ## UDP methods -/

def fBind (s : Sockets) (k : Nat) (badArgument : Option String) (bound : Bool) :
    Option (Sockets × SockAnswer) :=
  s.checkSock k true fun _ =>
  match badArgument with
  | some msg => some (s, .error msg)
  | none =>
    if bound = false then some (s, .error "bind failed") else some (s, .ok (.boolean true))

def fSendto (s : Sockets) (k : Nat) := s.transfer k true

def fRecvfrom (s : Sockets) (k : Nat) := s.receive k true

def fCloseUdp (s : Sockets) (k : Nat) := s.closeSock k true

/-! ## Constructors -/

def lSockTcp (s : Sockets) : Sockets × SockAnswer := s.newSock ⟨-1, false, true⟩

def lSockUdp (s : Sockets) (fd : Option Nat) : Option (Sockets × SockAnswer) :=
  (s.sysOpen fd).map fun (s, fd) => s.newSock ⟨fd, true, true⟩

def collect (s : Sockets) (k : Nat) : Option Sockets :=
  s.handles[k]?.bind fun h =>
  if h.live = false then none
  else some { s with handles := s.handles.set k { h with live := false } }

def call (s : Sockets) : SockEvent → Option (Sockets × SockAnswer)
  | .tcp => some s.lSockTcp
  | .udp fd => s.lSockUdp fd
  | .connect k t => s.fConnect k t
  | .listen k t => s.fListen k t
  | .accept k fd => s.fAccept k fd
  | .send k badArgument w => s.fSend k badArgument w
  | .recv k t => s.fRecv k t
  | .close k => s.fClose k
  | .bind k badArgument bound => s.fBind k badArgument bound
  | .sendto k badArgument w => s.fSendto k badArgument w
  | .recvfrom k t => s.fRecvfrom k t
  | .closeUdp k => s.fCloseUdp k
  | .collect _ => none

def step (s : Sockets) : SockEvent → Option Sockets
  | .collect k => s.collect k
  | e => (s.call e).map Prod.fst

end Sockets

def sockets : Machine Sockets SockEvent where
  init := ⟨[], [], []⟩
  step := Sockets.step

end CLIos
