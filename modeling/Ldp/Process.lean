import Ldp.Endpoint

/-!
# A process: set-up, sockets and exits

What the constructors of `Chatter` do before their loop, with the calls of the operating
system that can fail, and the threads afterwards, with the calls of `sendto` and `recvfrom`
that can. What the operating system answers is a parameter (`Os`). The constructors do not
look at what `createAndBindSocket` returns, and start the threads in any case.
-/

namespace Ldp

open Framework

/-- `struct addrinfo`. -/
structure AddrInfo where
  family : Nat
  socktype : Nat
  protocol : Nat
  addr : Sockaddr
  deriving DecidableEq, Repr

/-- What `socket` and `bind` do with an address: no socket, a socket that is not bound, or one
that is. -/
inductive Attempt
  | noSocket
  | noBind (fd : Int)
  | bound (fd : Int)
  deriving DecidableEq, Repr

/-- The answers of the operating system. -/
structure Os where
  /-- The addresses of a node (of this one for `NULL`) and a service, or an error code. -/
  getaddrinfo : Option String → String → Except Int (List AddrInfo)
  gaiStrerror : Int → String
  /-- What the loop of `createAndBindSocket` meets at an address, by its place in the list. -/
  attempt : Nat → AddrInfo → Attempt

/-- An `LDP` object with its socket, and the process it is in. -/
structure Process where
  ldp : Endpoint
  chateeIP : String
  chateePort : String
  myPort : String
  sockfd : Int
  /-- The sockets that are open. -/
  opened : List Int
  /-- How many `addrinfo`s are allocated. -/
  addrInfos : Nat
  /-- The lines written to `stderr`; those of `perror` without the text of the error. -/
  stderr : List String
  exited : Bool

namespace Process

/-! ## Set-up -/

/-- The loop of `createAndBindSocket` from address `n` on: the address at which it ends, if any. -/
def bindLoop (os : Os) : Nat → List AddrInfo → Process → Option AddrInfo × Process
  | _, [], s => (none, s)
  | n, p :: rest, s =>
    match os.attempt n p with
    | .noSocket => bindLoop os (n + 1) rest { s with sockfd := -1, stderr := s.stderr ++ ["chatter: socket"] }
    | .noBind fd =>
      bindLoop os (n + 1) rest { s with
        sockfd := fd
        opened := (s.opened ++ [fd]).erase fd
        stderr := s.stderr ++ ["chatter: bind"] }
    | .bound fd => (some p, { s with sockfd := fd, opened := s.opened ++ [fd] })

/-- `computeChateeAddrInfo`, and what it returns. -/
def computeChateeAddrInfo (os : Os) (s : Process) : Process × Int :=
  if s.ldp.isClient then
    match os.getaddrinfo (some s.chateeIP) s.chateePort with
    | .error rv => ({ s with stderr := s.stderr ++ ["getaddrinfo: " ++ os.gaiStrerror rv] }, 1)
    | .ok [] => ({ s with stderr := s.stderr ++ ["talker: failed to getaddrinfo chatee address"] }, 2)
    | .ok (p :: _) => ({ s with ldp := { s.ldp with chateeSockaddr := p.addr } }, 0)
  else (s, 0)

/-- `createAndBindSocket`, and what it returns. If `getaddrinfo` fails, the loop goes through a
list that was never set. -/
def createAndBindSocket (os : Os) (s : Process) : Option (Process × Int) :=
  match os.getaddrinfo none s.myPort with
  | .error _ => none
  | .ok myAddrInfo =>
    match bindLoop os 0 myAddrInfo s with
    | (none, s) =>
      some ({ s with
        addrInfos := s.addrInfos + myAddrInfo.length
        stderr := s.stderr ++ ["talker: failed to bind socket"] }, 2)
    | (some _, s) =>
      let s := if s.ldp.isClient then (computeChateeAddrInfo os s).1 else s
      some ({ s with ldp := s.ldp.initializeThreadMhreadEtcMtc }, 0)

/-- The constructors of `LDP`. -/
def construct (isClient : Bool) (memory : Sockaddr) (callers : Nat) (chateeIP chateePort myPort : String)
    (sockfd : Int) : Process where
  ldp := .construct isClient memory callers
  chateeIP
  chateePort
  myPort
  sockfd
  opened := []
  addrInfos := 0
  stderr := []
  exited := false

/-- The constructors of `Chatter` up to their loop; what `createAndBindSocket` returns is
dropped. -/
def chatter (os : Os) (isClient : Bool) (memory : Sockaddr) (callers : Nat)
    (chateeIP chateePort myPort : String) (sockfd : Int) : Option Process := do
  let (s, _) ← createAndBindSocket os (construct isClient memory callers chateeIP chateePort myPort sockfd)
  some { s with ldp := s.ldp.listen }

/-! ## Steps -/

/-- A step of the endpoint, or a call of `recvfrom` or, in thread `k` of `ldpPacketSender`, of
`sendto` that fails. -/
inductive Event
  | ldp (e : Endpoint.Event)
  | recvfromFails
  | sendtoFails (k : Nat)

/-- The step gets or sends a datagram. -/
def usesSocket (s : Process) : Endpoint.Event → Bool
  | .arrive .. => true
  | .sender k _ => s.ldp.senders[k]? = some .locked
  | _ => false

/-- One step, if the process has not exited. A call that succeeds needs an open socket; one
that fails ends in `exit(1)`. -/
def step (host : ByteOrder) (s : Process) (e : Event) : Option Process :=
  if s.exited then none
  else
    match e with
    | .ldp e =>
      if s.usesSocket e ∧ s.sockfd ∉ s.opened then none
      else do
        let ldp ← s.ldp.step host e
        some { s with ldp }
    | .recvfromFails =>
      if s.ldp.receiver = .listening ∧ s.ldp.isListening then
        some { s with stderr := s.stderr ++ ["recvfrom"], exited := true }
      else none
    | .sendtoFails k =>
      if s.ldp.senders[k]? = some .locked ∧ s.ldp.senderWindow ≠ [] then
        some { s with stderr := s.stderr ++ ["talker: sendto"], exited := true }
      else none

end Process
end Ldp
