import Ldp.Process
import Ldp.Proof.Quiescence

/-!
# Set-up and exits

Whatever the operating system answers, the set-up of a process ends with the first address that
can be bound, with its socket open and no other, and with the endpoint that `Endpoint.chatter`
sets up; or with no socket and half of the threads of `ldpPacketSender` (`set_up`). In the first
case what is reachable in the process is what is reachable in the endpoint; in the second, it
never sends, receives or delivers anything (`process_run`).
-/

namespace Ldp.Process

open Framework Framework.BoundedBuffer

variable {os : Os} {s s' : Process} {addrs : List AddrInfo}

/-! ## The loop over the addresses -/

/-- The line that a failed attempt writes. -/
def errorOf : Attempt → String
  | .noSocket => "chatter: socket"
  | _ => "chatter: bind"

def errors (os : Os) (n : Nat) (addrs : List AddrInfo) : List String :=
  (addrs.zipIdx n).map fun x => errorOf (os.attempt x.2 x.1)

/-- None of the addresses, the first of which is at place `n`, can be bound. -/
def NoneBound (os : Os) (n : Nat) (addrs : List AddrInfo) : Prop :=
  ∀ x ∈ addrs.zipIdx n, ∀ fd, os.attempt x.2 x.1 ≠ .bound fd

/-- An address that cannot be bound leaves no socket open, and a line on `stderr`. -/
theorem bindLoop_fail {n : Nat} {q : AddrInfo} {rest : List AddrInfo}
    (hq : ∀ fd, os.attempt n q ≠ .bound fd) (hs : s.opened = []) :
    ∃ fd, bindLoop os n (q :: rest) s = bindLoop os (n + 1) rest
      { s with sockfd := fd, stderr := s.stderr ++ [errorOf (os.attempt n q)] } := by
  cases ha : os.attempt n q with
  | noSocket => exact ⟨-1, by simp only [bindLoop, ha, errorOf]⟩
  | noBind fd => exact ⟨fd, by simp [bindLoop, ha, hs, errorOf]⟩
  | bound fd => exact absurd ha (hq fd)

theorem noneBound_cons {n : Nat} {q : AddrInfo} {rest : List AddrInfo} :
    NoneBound os n (q :: rest) ↔ (∀ fd, os.attempt n q ≠ .bound fd) ∧ NoneBound os (n + 1) rest := by
  simp only [NoneBound, List.zipIdx_cons, List.forall_mem_cons]

theorem errors_cons (os : Os) (n : Nat) (q : AddrInfo) (rest : List AddrInfo) :
    errors os n (q :: rest) = errorOf (os.attempt n q) :: errors os (n + 1) rest := by
  simp only [errors, List.zipIdx_cons, List.map_cons]

/-- The loop ends at the first address that can be bound. -/
theorem bindLoop_bound {n : Nat} {before after : List AddrInfo} {p : AddrInfo} {fd : Int}
    (hnone : NoneBound os n before) (hp : os.attempt (n + before.length) p = .bound fd)
    (hs : s.opened = []) :
    bindLoop os n (before ++ p :: after) s =
      (some p, { s with sockfd := fd, opened := [fd], stderr := s.stderr ++ errors os n before }) := by
  induction before generalizing n s with
  | nil =>
    have hp' : os.attempt n p = .bound fd := hp
    simp [bindLoop, hp', hs, errors]
  | cons q before ih =>
    obtain ⟨hq, hbefore⟩ := noneBound_cons.mp hnone
    obtain ⟨fd', hfail⟩ := bindLoop_fail hq hs
    rw [List.length_cons, Nat.add_comm before.length, ← Nat.add_assoc] at hp
    rw [List.cons_append, hfail, ih hbefore hp (by exact hs), errors_cons]
    simp only [List.append_assoc, List.singleton_append]

/-- Without such an address, the loop ends with no socket open. -/
theorem bindLoop_none {n : Nat} (hnone : NoneBound os n addrs) (hs : s.opened = []) :
    ∃ fd, bindLoop os n addrs s =
      (none, { s with sockfd := fd, stderr := s.stderr ++ errors os n addrs }) := by
  induction addrs generalizing n s with
  | nil => exact ⟨s.sockfd, by simp [bindLoop, errors]⟩
  | cons q addrs ih =>
    obtain ⟨hq, hrest⟩ := noneBound_cons.mp hnone
    obtain ⟨fd', hfail⟩ := bindLoop_fail hq hs
    obtain ⟨fd, hloop⟩ := ih (s := { s with
      sockfd := fd', stderr := s.stderr ++ [errorOf (os.attempt n q)] }) hrest hs
    refine ⟨fd, ?_⟩
    rw [hfail, hloop, errors_cons]
    simp only [List.append_assoc, List.singleton_append]

/-- An address can be bound, and those before it cannot. -/
structure FirstBound (os : Os) (n : Nat) (addrs before : List AddrInfo) (fd : Int) : Prop where
  earlier : NoneBound os n before
  bound : ∃ p after, addrs = before ++ p :: after ∧ os.attempt (n + before.length) p = .bound fd

theorem exists_firstBound {n : Nat} (h : ¬ NoneBound os n addrs) :
    ∃ before fd, FirstBound os n addrs before fd := by
  induction addrs generalizing n with
  | nil => exact absurd (by simp [NoneBound]) h
  | cons q addrs ih =>
    by_cases hq : ∀ fd, os.attempt n q ≠ .bound fd
    · obtain ⟨before, fd, hbefore, p, after, rfl, hp⟩ := ih fun hrest => h (noneBound_cons.mpr ⟨hq, hrest⟩)
      refine ⟨q :: before, fd, noneBound_cons.mpr ⟨hq, hbefore⟩, p, after, rfl, ?_⟩
      rwa [List.length_cons, Nat.add_comm before.length, ← Nat.add_assoc]
    · obtain ⟨fd, hfd⟩ := not_forall.mp hq
      exact ⟨[], fd, by simp [NoneBound], q, addrs, rfl, not_not.mp hfd⟩

/-! ## The set-up -/

/-- The address that a client resolves, if it does. -/
def resolved (os : Os) (chateeIP chateePort : String) (memory : Sockaddr) : Sockaddr :=
  match os.getaddrinfo (some chateeIP) chateePort with
  | .ok (p :: _) => p.addr
  | _ => memory

/-- What a client whose peer is not resolved writes. -/
def resolveErrors (os : Os) (chateeIP chateePort : String) : List String :=
  match os.getaddrinfo (some chateeIP) chateePort with
  | .ok (_ :: _) => []
  | .ok [] => ["talker: failed to getaddrinfo chatee address"]
  | .error rv => ["getaddrinfo: " ++ os.gaiStrerror rv]

theorem computeChateeAddrInfo_eq (hs : s.ldp.isClient = true) :
    (computeChateeAddrInfo os s).1 = { s with
      ldp := { s.ldp with chateeSockaddr := resolved os s.chateeIP s.chateePort s.ldp.chateeSockaddr }
      stderr := s.stderr ++ resolveErrors os s.chateeIP s.chateePort } := by
  cases hg : os.getaddrinfo (some s.chateeIP) s.chateePort with
  | error rv => simp only [computeChateeAddrInfo, if_pos hs, resolved, resolveErrors, hg]
  | ok chatee =>
    cases chatee with
    | nil => simp only [computeChateeAddrInfo, if_pos hs, resolved, resolveErrors, hg]
    | cons p rest =>
      simp only [computeChateeAddrInfo, if_pos hs, resolved, resolveErrors, hg, List.append_nil]

variable {isClient : Bool} {memory : Sockaddr} {callers : Nat} {chateeIP chateePort myPort : String}
  {fd₀ : Int}

/-- A process whose set-up has bound a socket, after attempts at the addresses `before`. -/
structure Bound (os : Os) (isClient : Bool) (memory : Sockaddr) (callers : Nat)
    (chateeIP chateePort : String) (before : List AddrInfo) (s : Process) : Prop where
  ldp : s.ldp = .chatter isClient memory (resolved os chateeIP chateePort memory) callers
  opened : s.opened = [s.sockfd]
  addrInfos : s.addrInfos = 0
  stderr : s.stderr = errors os 0 before ++ if isClient then resolveErrors os chateeIP chateePort else []
  exited : s.exited = false

/-- A process whose set-up has not bound a socket: the threads are initialised once, and the
address of the peer is what the memory held. -/
structure Unbound (os : Os) (isClient : Bool) (memory : Sockaddr) (callers : Nat)
    (addrs : List AddrInfo) (s : Process) : Prop where
  ldp : s.ldp = (Endpoint.construct isClient memory callers).listen
  opened : s.opened = []
  addrInfos : s.addrInfos = addrs.length
  stderr : s.stderr = errors os 0 addrs ++ ["talker: failed to bind socket"]
  exited : s.exited = false

theorem chatter_bound {before : List AddrInfo} {fd : Int} (h : os.getaddrinfo none myPort = .ok addrs)
    (hb : FirstBound os 0 addrs before fd) :
    ∃ s, chatter os isClient memory callers chateeIP chateePort myPort fd₀ = some s ∧ s.sockfd = fd ∧
      Bound os isClient memory callers chateeIP chateePort before s := by
  obtain ⟨hearlier, p, after, rfl, hp⟩ := hb
  have hloop : bindLoop os 0 (before ++ p :: after)
      (construct isClient memory callers chateeIP chateePort myPort fd₀) = _ := bindLoop_bound hearlier hp rfl
  have hport : (construct isClient memory callers chateeIP chateePort myPort fd₀).myPort = myPort := rfl
  simp only [chatter, createAndBindSocket, hport, h, hloop]
  cases isClient with
  | false => exact ⟨_, rfl, rfl, rfl, rfl, rfl, (List.append_nil _).symm, rfl⟩
  | true =>
    rw [if_pos (by rfl), computeChateeAddrInfo_eq (by rfl)]
    exact ⟨_, rfl, rfl, rfl, rfl, rfl, rfl, rfl⟩

theorem chatter_unbound (h : os.getaddrinfo none myPort = .ok addrs) (hnone : NoneBound os 0 addrs) :
    ∃ s, chatter os isClient memory callers chateeIP chateePort myPort fd₀ = some s ∧
      Unbound os isClient memory callers addrs s := by
  obtain ⟨fd, hloop⟩ := bindLoop_none
    (s := construct isClient memory callers chateeIP chateePort myPort fd₀) hnone rfl
  have hport : (construct isClient memory callers chateeIP chateePort myPort fd₀).myPort = myPort := rfl
  simp only [chatter, createAndBindSocket, hport, h, hloop]
  exact ⟨_, rfl, rfl, rfl, Nat.zero_add _, rfl, rfl⟩

theorem chatter_cases (h : os.getaddrinfo none myPort = .ok addrs) :
    (NoneBound os 0 addrs ∧ ∃ s, chatter os isClient memory callers chateeIP chateePort myPort fd₀ = some s ∧
        Unbound os isClient memory callers addrs s) ∨
      ∃ before fd, FirstBound os 0 addrs before fd ∧
        ∃ s, chatter os isClient memory callers chateeIP chateePort myPort fd₀ = some s ∧ s.sockfd = fd ∧
          Bound os isClient memory callers chateeIP chateePort before s := by
  by_cases hnone : NoneBound os 0 addrs
  · exact .inl ⟨hnone, chatter_unbound h hnone⟩
  · obtain ⟨before, fd, hb⟩ := exists_firstBound hnone
    exact .inr ⟨before, fd, hb, chatter_bound h hb⟩

theorem chatter_undefined {rv : Int} (h : os.getaddrinfo none myPort = .error rv) :
    chatter os isClient memory callers chateeIP chateePort myPort fd₀ = none := by
  have hport : (construct isClient memory callers chateeIP chateePort myPort fd₀).myPort = myPort := rfl
  simp only [chatter, createAndBindSocket, hport, h]
  rfl

/-- The set-up of a process, whatever the operating system answers. If the own address cannot be
looked up, it is undefined. Otherwise the first address that can be bound is, if there is one: its
socket is the only one open, each failed attempt has left a line, and the endpoint is that of
`Endpoint.chatter`, with the address of the peer if a client has resolved it. If there is none, no
socket is open and the endpoint is initialised once. -/
theorem set_up :
    (chatter os isClient memory callers chateeIP chateePort myPort fd₀ = none ↔
        ∃ rv, os.getaddrinfo none myPort = .error rv) ∧
      ∀ addrs, os.getaddrinfo none myPort = .ok addrs →
        (NoneBound os 0 addrs ∧ ∃ s, chatter os isClient memory callers chateeIP chateePort myPort fd₀ = some s ∧
            Unbound os isClient memory callers addrs s) ∨
          ∃ before fd, FirstBound os 0 addrs before fd ∧
            ∃ s, chatter os isClient memory callers chateeIP chateePort myPort fd₀ = some s ∧ s.sockfd = fd ∧
              Bound os isClient memory callers chateeIP chateePort before s := by
  refine ⟨⟨fun hn => ?_, fun ⟨rv, hrv⟩ => chatter_undefined hrv⟩, fun addrs h => chatter_cases h⟩
  cases hg : os.getaddrinfo none myPort with
  | error rv => exact ⟨rv, rfl⟩
  | ok addrs =>
    rcases chatter_cases hg with ⟨-, s, hs, -⟩ | ⟨-, -, -, s, hs, -⟩ <;>
      exact absurd (hn.symm.trans hs) (Option.some_ne_none s).symm

/-- An operating system on which port 5200 is taken and the second address of port 5201 is free. -/
def exampleOs : Os where
  getaddrinfo
    | none, "5200" => .ok [⟨2, 2, 17, garbageAddress⟩]
    | none, "5201" => .ok [⟨2, 2, 17, garbageAddress⟩, ⟨2, 2, 17, strangerAddress⟩]
    | some _, "5200" => .ok [⟨2, 2, 17, peerAddress⟩]
    | _, _ => .error (-2)
  gaiStrerror _ := "Name or service not known"
  attempt
    | 0, _ => .noBind 3
    | _, _ => .bound 3

/-- A client on port 5201, the first address of which is taken. -/
theorem set_up_second_address :
    ∃ s, chatter exampleOs true garbageAddress 1 "127.0.0.1" "5200" "5201" 0 = some s ∧
      s.opened = [s.sockfd] ∧ s.exited = false ∧ s.sockfd = 3 ∧ s.stderr = ["chatter: bind"] ∧
      s.ldp.chateeSockaddr = peerAddress := by
  have h : ∃ s, chatter exampleOs true garbageAddress 1 "127.0.0.1" "5200" "5201" 0 = some s ∧ s.sockfd = 3 ∧
      s.stderr = ["chatter: bind"] ∧ s.ldp.chateeSockaddr = peerAddress := ⟨_, rfl, rfl, rfl, rfl⟩
  obtain ⟨s, hs, hfd, herr, haddress⟩ := h
  rcases (@set_up exampleOs true garbageAddress 1 "127.0.0.1" "5200" "5201" 0).2 _ rfl with
    ⟨hnone, -⟩ | ⟨before, fd, -, u, hu, -, hb⟩
  · exact absurd rfl (hnone (⟨2, 2, 17, strangerAddress⟩, 1) (by decide) 3)
  · obtain rfl := Option.some.inj (hs.symm.trans hu)
    exact ⟨s, hs, hb.opened, hb.exited, hfd, herr, haddress⟩

/-! ## Runs -/

variable {host : ByteOrder} {evs : List Event}

/-- What happens to the endpoint in a step: a step of its own, or nothing. -/
theorem step_ldp {e : Event} (h : step host s e = some s') :
    s'.opened = s.opened ∧ s'.sockfd = s.sockfd ∧ (s'.ldp = s.ldp ∨
      ∃ ev, e = .ldp ev ∧ s.ldp.step host ev = some s'.ldp ∧
        (s.usesSocket ev = true → s.sockfd ∈ s.opened)) := by
  simp only [step] at h
  split at h
  · simp only [reduceCtorEq] at h
  · cases e with
    | ldp ev =>
      simp only at h
      split at h
      · simp only [reduceCtorEq] at h
      · rename_i huses
        obtain ⟨t, ht, h⟩ := Option.bind_eq_some_iff.mp h
        obtain rfl := Option.some.inj h
        exact ⟨rfl, rfl, .inr ⟨ev, rfl, ht, fun hu => not_not.mp fun hn => huses ⟨hu, hn⟩⟩⟩
    | recvfromFails =>
      simp only at h
      split at h
      · obtain rfl := Option.some.inj h
        exact ⟨rfl, rfl, .inl rfl⟩
      · simp only [reduceCtorEq] at h
    | sendtoFails k =>
      simp only at h
      split at h
      · obtain rfl := Option.some.inj h
        exact ⟨rfl, rfl, .inl rfl⟩
      · simp only [reduceCtorEq] at h

/-- With the socket open, the process can do what the endpoint can. -/
theorem run_ldp {t : Endpoint} {own : List Endpoint.Event} (hopen : s.sockfd ∈ s.opened)
    (hexit : s.exited = false) (h : run (Endpoint.step host) s.ldp own = some t) :
    run (step host) s (own.map .ldp) = some { s with ldp := t } := by
  induction own generalizing s with
  | nil =>
    obtain rfl := Option.some.inj h
    rfl
  | cons e own ih =>
    obtain ⟨u, hu, ht⟩ := run_cons_eq_some.mp h
    refine run_cons_eq_some.mpr ⟨{ s with ldp := u }, ?_, ih (s := { s with ldp := u }) hopen hexit ht⟩
    simp only [step, hexit, Bool.false_eq_true, ↓reduceIte, hopen, not_true, and_false, hu,
      Option.bind_eq_bind, Option.bind_some]

/-- What a process without a socket keeps to. -/
structure Silent (s : Process) : Prop where
  opened : s.opened = []
  window : Inv WINDOW_CONTAINER_MAX_SIZE s.ldp.window
  queue : Inv MAX_REC_MESSAGE_Q_SIZE s.ldp.queue
  passes : s.ldp.Passes
  listening : s.ldp.isListening = true
  receiver : s.ldp.receiver = .listening
  sent : s.ldp.sent = []
  received : s.ldp.received = []

/-- The receiver leaves `recvfrom` with a datagram only. -/
theorem step_receiver {s s' : Endpoint} {e : Endpoint.Event} (h : s.step host e = some s')
    (he : e.isArrive = false) (hr : s.receiver = .listening) : s'.receiver = .listening := by
  cases e with
  | call k message =>
    obtain ⟨pc, -, h⟩ := Option.bind_eq_some_iff.mp h
    obtain ⟨-, rfl⟩ := Endpoint.call_eq h
    exact hr
  | send k memory =>
    obtain ⟨pc, -, h⟩ := Option.bind_eq_some_iff.mp h
    obtain ⟨_, _, _, _, _, _, rfl⟩ := Endpoint.send_eq h
    exact hr
  | sender k stack =>
    obtain ⟨pc, -, h⟩ := Option.bind_eq_some_iff.mp h
    obtain ⟨_, _, _, _, _, _, rfl, -⟩ := Endpoint.ldpPacketSender_eq h
    exact hr
  | arrive source datagram buf => exact absurd he.symm Bool.false_ne_true
  | receiver => simp only [Endpoint.step, hr, Endpoint.ldpPacketReceiver, reduceCtorEq] at h
  | consumer =>
    obtain ⟨_, _, _, _, _, _, _, rfl⟩ := Endpoint.messageConsumer_eq h
    exact hr

theorem Silent.step {e : Event} (hi : s.Silent) (h : step host s e = some s') : s'.Silent := by
  obtain ⟨hopened, -, hldp | ⟨ev, -, hstep, huses⟩⟩ := step_ldp h
  · exact ⟨hopened.trans hi.opened, hldp ▸ hi.window, hldp ▸ hi.queue, hldp ▸ hi.passes, hldp ▸ hi.listening,
      hldp ▸ hi.receiver, hldp ▸ hi.sent, hldp ▸ hi.received⟩
  · -- without a socket, nothing arrives and nobody sends
    rw [hi.opened] at huses
    have hquiet : s.usesSocket ev = false := Bool.eq_false_iff.mpr fun hu => List.not_mem_nil (huses hu)
    have harrive : ev.isArrive = false := by
      cases ev <;> first | rfl | exact absurd hquiet.symm Bool.false_ne_true
    refine ⟨hopened.trans hi.opened, ?_, ?_, Endpoint.step_passes hi.passes hstep,
      (Endpoint.step_isListening hstep).trans hi.listening, step_receiver hstep harrive hi.receiver, ?_,
      (Endpoint.step_received hstep harrive).1.trans hi.received⟩
    · rcases Endpoint.window_step hstep with hw | ⟨_, hw⟩
      · exact hw ▸ hi.window
      · exact hi.window.step hw
    · rcases Endpoint.queue_step hstep with hq | ⟨_, hq⟩
      · exact hq ▸ hi.queue
      · exact hi.queue.step hq
    · rcases Endpoint.step_sent hstep with hs | ⟨k, stack, packet, rfl, hk, -⟩
      · exact hs.trans hi.sent
      · simp only [usesSocket, hk, decide_true] at hquiet
        exact absurd hquiet.symm Bool.false_ne_true

/-- Nothing has been delivered, and no more is pushed than the window holds. -/
theorem Silent.delivered (hi : s.Silent) :
    s.ldp.delivered = [] ∧ s.ldp.pushed.length ≤ WINDOW_CONTAINER_MAX_SIZE := by
  constructor
  · have hqueued := hi.passes.queued
    have haccepted : s.ldp.accepted = [] := by rw [Endpoint.accepted, hi.received]; rfl
    rw [haccepted, List.append_eq_nil_iff] at hqueued
    have horder : s.ldp.dequeued ++ s.ldp.receivedMessageQueue = s.ldp.queued := hi.queue.order
    rw [hqueued.1, List.append_eq_nil_iff] at horder
    have hdequeued := hi.passes.dequeued
    rw [horder.1, List.append_eq_nil_iff] at hdequeued
    exact hdequeued.1
  · have horder := congrArg List.length hi.window.order
    have hle := hi.window.length_le
    simp only [Endpoint.window, hi.sent, List.map_nil, List.nil_append, List.length_map] at horder hle
    omega

theorem Silent.can_exit (hi : s.Silent) (host : ByteOrder) (hexit : s.exited = false) :
    ∃ s', Process.step host s .recvfromFails = some s' ∧ s'.exited = true := by
  refine ⟨{ s with stderr := s.stderr ++ ["recvfrom"], exited := true }, ?_, rfl⟩
  simp only [Process.step, hexit, hi.receiver, hi.listening, Bool.false_eq_true, ↓reduceIte, and_self]

theorem Unbound.silent (h : Unbound os isClient memory callers addrs s) : s.Silent := by
  have hw : s.ldp.window =
      ⟨[], WINDOW_CONTAINER_MAX_SIZE, 0, none, .replicate callers .ready, .replicate 1 .ready, [], []⟩ := by
    rw [h.ldp]
    simp [Endpoint.window, Endpoint.listen, Endpoint.construct, Endpoint.initializeThreadMhreadEtcMtc,
      Endpoint.raw, SendPc.phase, SenderPc.phase]
  have hq : s.ldp.queue =
      ⟨[], MAX_REC_MESSAGE_Q_SIZE, 0, none, .replicate 1 .ready, .replicate 1 .ready, [], []⟩ := by
    rw [h.ldp]
    rfl
  refine ⟨h.opened, hw ▸ .init _ _ _, hq ▸ .init _ _ _, ?_, ?_, ?_, ?_, ?_⟩ <;> rw [h.ldp]
  · exact ⟨rfl, rfl⟩
  all_goals rfl

/-- A process whose set-up has bound a socket does with its endpoint what an endpoint of
`Endpoint.chatter` can do, and all of it. One whose set-up has not never sends, receives or
delivers anything; no more packets are pushed than the window holds; and, until it has exited,
the failure of `recvfrom` can end it. -/
theorem process_run {s₀ : Process}
    (h₀ : chatter os isClient memory callers chateeIP chateePort myPort fd₀ = some s₀) :
    (s₀.opened ≠ [] → ∀ t, (∃ evs s, run (step host) s₀ evs = some s ∧ s.ldp = t) ↔
      ∃ evs, run (Endpoint.step host)
        (.chatter isClient memory (resolved os chateeIP chateePort memory) callers) evs = some t) ∧
    (s₀.opened = [] → ∀ evs s, run (step host) s₀ evs = some s →
      s.ldp.sent = [] ∧ s.ldp.received = [] ∧ s.ldp.delivered = [] ∧
        s.ldp.pushed.length ≤ WINDOW_CONTAINER_MAX_SIZE ∧
        (s.exited = false → ∃ s', step host s .recvfromFails = some s' ∧ s'.exited = true)) := by
  cases hg : os.getaddrinfo none myPort with
  | error rv => exact absurd (h₀.symm.trans (chatter_undefined hg)) (Option.some_ne_none s₀)
  | ok addrs =>
    rcases chatter_cases hg with ⟨-, s, hs, hu⟩ | ⟨before, fd, -, s, hs, -, hb⟩ <;>
      obtain rfl := Option.some.inj (h₀.symm.trans hs)
    · refine ⟨fun hne => absurd hu.opened hne, fun _ evs s h => ?_⟩
      have hi : s.Silent := run_induction (fun hi hs => hi.step hs) hu.silent h
      exact ⟨hi.sent, hi.received, hi.delivered.1, hi.delivered.2, hi.can_exit host⟩
    · refine ⟨fun _ t => ⟨?_, fun ⟨evs, h⟩ => ?_⟩, fun hnil => absurd (hb.opened.symm.trans hnil) (by simp)⟩
      · rintro ⟨evs, s, h, rfl⟩
        rw [← hb.ldp]
        refine run_map Process.ldp (fun hs => ?_) h
        obtain ⟨-, -, hl | ⟨ev, -, hl, -⟩⟩ := step_ldp hs
        · exact .inl hl
        · exact .inr ⟨ev, hl⟩
      · rw [← hb.ldp] at h
        exact ⟨_, _, run_ldp (by simp [hb.opened]) hb.exited h, rfl⟩

/-- On port 5200, the process is silent. -/
theorem process_run_taken :
    ∃ s₀ s, chatter exampleOs false garbageAddress 1 "" "" "5200" 0 = some s₀ ∧
      s₀.stderr = ["chatter: bind", "talker: failed to bind socket"] ∧
      run (step .little) s₀ [.ldp (.call 0 [104, 105]), .recvfromFails] = some s ∧ s.exited = true ∧
      s.ldp.sent = [] ∧ s.ldp.pushed.length ≤ 1024 := by
  have h : ∃ s₀ s, chatter exampleOs false garbageAddress 1 "" "" "5200" 0 = some s₀ ∧
      run (step .little) s₀ [.ldp (.call 0 [104, 105]), .recvfromFails] = some s ∧ s₀.opened = [] ∧
      s₀.stderr = ["chatter: bind", "talker: failed to bind socket"] ∧ s.exited = true :=
    ⟨_, _, rfl, rfl, rfl, rfl, rfl⟩
  obtain ⟨s₀, s, h₀, hrun, hopen, herr, hexit⟩ := h
  obtain ⟨hsent, -, -, hpushed, -⟩ := (process_run h₀).2 hopen _ s hrun
  exact ⟨s₀, s, h₀, herr, hrun, hexit, hsent, hpushed⟩

end Ldp.Process
