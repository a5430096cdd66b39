import Mathlib.Tactic.Common
import Netpoll.Lib.Transition
import Netpoll.Poll.OperatorCache

/-! The life of one registered connection: `locker`, `onEvent` and the reactor
callbacks, as goroutines that interleave one atomic access at a time.  Goroutine
0 is the poller's event handler, 1 is `server.onAccept`, 2 runs the queued
`onHup`; from 3 on there are tasks started by `onProcess` and callers of
`Close`, `Detach`, `SetOnRequest` and `Flush`, any number of each. -/

namespace Netpoll.Connection

open Netpoll.Lib.Threads
open Netpoll.Poll (OpState)

inductive Who
  | none | user | poller
  deriving DecidableEq, Repr

inductive ConnState
  | none | connected | disconnected
  deriving DecidableEq, Repr

inductive Key
  | unlocked | locked | stopped
  deriving DecidableEq, Repr

/-- The handlers installed by `onPrepare` that nothing replaces later. -/
structure Handlers where
  onConnect : Bool
  onDisconnect : Bool
  deriving DecidableEq, Repr

/-- Where a goroutine stands: the access it makes next.  The argument `req` is
the local variable `onRequest` of a task, `poll` tells whether `onRequest` was
called by `inputAck` or by `SetOnRequest`. -/
inductive Pc
  | idle
  -- defaultPoll.handler
  | inputs (n : Nat) | inputAck (n : Nat) | outputs | outputAck | appendHup | done
  -- connection.onRequest up to the lock of onProcess, and SetOnRequest
  | reqLoad (poll : Bool) | reqState (poll : Bool) | reqLock (poll : Bool) | setLen
  -- server.onAccept and connection.onConnect
  | acceptActive | connLoad | connNone | connLock | connReq | connProcess (req : Bool)
  -- connection.onHup and connection.onDisconnect
  | hupClose | discLoad | discSet | discRunFree | discState | discLock | discCas | discRun
  | discUnlock | hupCallback
  -- connection.onClose
  | closeBy | force
  -- connection.closeCallback, its last callback being the finalizer
  | ccLock (needDetach : Bool) | ccDetach (needDetach : Bool) | ccLoad | ccRun
  | finStop | finFree | finFd | finBuffer
  -- the task of connection.onProcess
  | task (conn req : Bool) | onConnect (req : Bool) | connActive (req : Bool)
  | connHelp (req : Bool) | connDisc (req : Bool) | connUnlock (active req : Bool)
  | start (req : Bool) | first (req : Bool) | loop (req : Bool)
  | test (closedBy : Who) (req : Bool) | more (req : Bool) | unlock (req : Bool)
  | recheck (req : Bool) | relock (req : Bool) | relen (req : Bool) | restart (req : Bool)
  -- its deferred panic handler
  | panicUnlock | panicActive
  -- connection.Flush and connection.Write
  | flushActive | flushLock | flushRun | flushUnlock
  deriving DecidableEq, Repr

structure Conn where
  closing : Who
  /-- the goroutine that holds the lock, for the proofs: the code stores 1 -/
  connecting : Option Nat
  processing : Option Nat
  flushing : Key
  state : ConnState
  onRequest : Bool
  length : Nat
  operator : OpState
  detached : Nat
  detaching : Bool
  fdOpen : Bool
  hung : Bool
  hupStarted : Bool
  accepted : Bool
  connected : Bool
  disconnects : Nat
  traversals : Nat
  frees : Nat

abbrev System := State Conn Pc

inductive Label
  | readable (n : Nat)
  | writable
  | hup
  | onhups
  | accept
  | close (k : Nat)
  | detach (k : Nat)
  | setOnRequest (k : Nat)
  | flush (k : Nat)
  | consume (m : Nat)
  | panic (k : Nat)
  /-- goroutine `k` makes its next access; a task it starts becomes goroutine `j` -/
  | run (k j : Nat)
  deriving DecidableEq, Repr

def Conn.isActive (c : Conn) : Bool := c.closing == .none

def Conn.polled (c : Conn) : Bool := c.frees == 0

def Pc.return (poll : Bool) : Pc := if poll then .done else .idle

def next (h : Handlers) (c : Conn) (k j : Nat) : Pc → Option (Move Conn Pc)
  | .idle => none
  | .inputs n => some ⟨c, .inputAck n, none⟩
  | .inputAck n =>
    -- bookAck returns the new length, and a first chunk starts onRequest
    some ⟨{ c with length := c.length + n },
      if 0 < n ∧ c.length + n = n then .reqLoad true else .done, none⟩
  | .outputs => some ⟨c, .outputAck, none⟩
  | .outputAck => some ⟨c, .done, none⟩
  | .appendHup => some ⟨{ c with detached := c.detached + 1, hung := true }, .done, none⟩
  | .done => some ⟨{ c with operator := .inuse }, .idle, none⟩
  | .reqLoad poll => some ⟨c, if c.onRequest then .reqState poll else .return poll, none⟩
  | .reqState poll =>
    some ⟨c, if c.state = .none ∧ h.onConnect then .return poll else .reqLock poll, none⟩
  | .reqLock poll =>
    if c.processing.isSome then some ⟨c, .return poll, none⟩
    else some ⟨{ c with processing := some j }, .return poll, some (.task false true)⟩
  | .setLen => some ⟨c, if 0 < c.length then .reqLoad false else .idle, none⟩
  | .acceptActive => some ⟨c, if c.isActive then .connLoad else .idle, none⟩
  | .connLoad => some ⟨c, if h.onConnect then .connLock else .connNone, none⟩
  | .connNone => some ⟨if c.state = .none then { c with state := .connected } else c, .idle, none⟩
  | .connLock =>
    if c.connecting.isSome then some ⟨c, .idle, none⟩
    else some ⟨{ c with connecting := some k }, .connReq, none⟩
  | .connReq => some ⟨c, .connProcess c.onRequest, none⟩
  | .connProcess req =>
    if c.processing.isSome then some ⟨c, .idle, none⟩
    else some ⟨{ c with processing := some j, connecting := some j }, .idle, some (.task true req)⟩
  | .hupClose =>
    if c.closing = .none then some ⟨{ c with closing := .poller }, .discLoad, none⟩
    else some ⟨c, .idle, none⟩
  | .discLoad =>
    some ⟨c, if h.onDisconnect then if h.onConnect then .discState else .discSet
      else .hupCallback, none⟩
  | .discSet =>
    some ⟨{ c with state := .disconnected, disconnects := c.disconnects + 1 }, .discRunFree, none⟩
  | .discRunFree => some ⟨c, .hupCallback, none⟩
  | .discState => some ⟨c, if c.state = .none then .hupCallback else .discLock, none⟩
  | .discLock =>
    if c.connecting.isSome then some ⟨c, .hupCallback, none⟩
    else some ⟨{ c with connecting := some k }, .discCas, none⟩
  | .discCas =>
    if c.state = .connected then
      some ⟨{ c with state := .disconnected, disconnects := c.disconnects + 1 }, .discRun, none⟩
    else some ⟨c, .discUnlock, none⟩
  | .discRun => some ⟨c, .discUnlock, none⟩
  | .discUnlock => some ⟨{ c with connecting := none }, .hupCallback, none⟩
  | .hupCallback => some ⟨c, if h.onConnect ∨ c.onRequest then .ccLock false else .idle, none⟩
  | .closeBy =>
    if c.closing = .none then some ⟨{ c with closing := .user }, .ccLock true, none⟩
    else some ⟨c, .force, none⟩
  | .force => some ⟨{ c with closing := .user }, .ccLock false, none⟩
  | .ccLock needDetach =>
    if c.processing.isSome then some ⟨c, .idle, none⟩
    else some ⟨{ c with processing := some k }, .ccDetach needDetach, none⟩
  | .ccDetach needDetach =>
    some ⟨if needDetach ∧ c.polled then { c with detached := c.detached + 1 } else c,
      .ccLoad, none⟩
  | .ccLoad => some ⟨{ c with traversals := c.traversals + 1 }, .ccRun, none⟩
  | .ccRun => some ⟨c, .finStop, none⟩
  | .finStop =>
    if c.flushing = .locked then none else some ⟨{ c with flushing := .stopped }, .finFree, none⟩
  | .finFree =>
    -- unused() spins while the poller is between do() and done()
    if c.operator = .doing then none
    else some ⟨{ c with operator := .unused, frees := c.frees + 1 }, .finFd, none⟩
  | .finFd => some ⟨{ c with fdOpen := c.fdOpen && c.detaching }, .finBuffer, none⟩
  | .finBuffer =>
    -- closeBuffer keeps unread data only when no handler will come for it
    some ⟨{ c with length := if c.length = 0 ∨ h.onConnect ∨ c.onRequest then 0 else c.length },
      .idle, none⟩
  | .task conn req =>
    if conn ∧ c.state = .none then some ⟨{ c with state := .connected }, .onConnect req, none⟩
    else some ⟨c, .start req, none⟩
  | .onConnect req => some ⟨{ c with connected := true }, .connActive req, none⟩
  | .connActive req => some ⟨c, if c.isActive then .connUnlock true req else .connHelp req, none⟩
  | .connHelp req =>
    if c.state = .connected then
      if h.onDisconnect then
        some ⟨{ c with state := .disconnected, disconnects := c.disconnects + 1 },
          .connDisc req, none⟩
      else some ⟨{ c with state := .disconnected }, .connUnlock false req, none⟩
    else some ⟨c, .connUnlock false req, none⟩
  | .connDisc req => some ⟨c, .connUnlock false req, none⟩
  | .connUnlock _ req => some ⟨{ c with connecting := none }, .start req, none⟩
  | .start req => some ⟨c, if req ∧ 0 < c.length then .first req else .loop req, none⟩
  | .first req => some ⟨c, .loop req, none⟩
  | .loop req => some ⟨c, .test c.closing req, none⟩
  | .test closedBy req =>
    if closedBy = .user ∨ req = false ∨ c.length = 0 then
      if closedBy = .none then some ⟨c, .unlock req, none⟩
      else some ⟨c, .ccDetach (closedBy == .user), none⟩
    else some ⟨c, .more req, none⟩
  | .more req => some ⟨c, .loop req, none⟩
  | .unlock req => some ⟨{ c with processing := none }, .recheck req, none⟩
  | .recheck req => some ⟨c, if c.closing = .none then .relen req else .relock req, none⟩
  | .relock req =>
    if c.processing.isSome then some ⟨c, .relen req, none⟩
    else some ⟨{ c with processing := some k }, .ccDetach false, none⟩
  | .relen req => some ⟨c, if req ∧ 0 < c.length then .restart req else .idle, none⟩
  | .restart req =>
    if c.processing.isSome then some ⟨c, .idle, none⟩
    else some ⟨{ c with processing := some k }, .start req, none⟩
  | .panicUnlock => some ⟨{ c with processing := none }, .panicActive, none⟩
  | .panicActive => some ⟨c, if c.isActive then .closeBy else .ccDetach false, none⟩
  | .flushActive => some ⟨c, if c.isActive then .flushLock else .idle, none⟩
  | .flushLock =>
    if c.flushing = .unlocked then some ⟨{ c with flushing := .locked }, .flushRun, none⟩
    else some ⟨c, .idle, none⟩
  | .flushRun => some ⟨c, .flushUnlock, none⟩
  | .flushUnlock => some ⟨{ c with flushing := .unlocked }, .idle, none⟩

theorem next_task {h : Handlers} {c : Conn} {k j : Nat} {p t : Pc} {m : Move Conn Pc}
    (hn : next h c k j p = some m) (ht : m.task = some t) : ∃ conn req, t = .task conn req := by
  cases p
  all_goals
    simp only [next, Pc.return] at hn
    (try split_ifs at hn) <;> cases hn
  all_goals cases ht
  all_goals exact ⟨_, _, rfl⟩

def poll (s : System) (p : Pc) : Option System :=
  if s.pc 0 = .idle ∧ s.shared.hung = false ∧ s.shared.operator = .inuse then
    some (s.enter { s.shared with operator := .doing } 0 p)
  else none

def call (s : System) (c : Conn) (k : Nat) (p : Pc) : Option System :=
  if 3 ≤ k ∧ s.pc k = .idle then some (s.enter c k p) else none

def step (h : Handlers) (s : System) : Label → Option System
  | .readable n => poll s (.inputs n)
  | .writable => poll s .outputs
  | .hup => poll s .appendHup
  | .onhups =>
    if s.shared.hung ∧ s.shared.hupStarted = false ∧ s.pc 2 = .idle then
      some (s.enter { s.shared with hupStarted := true } 2 .hupClose)
    else none
  | .accept =>
    if s.shared.accepted = false ∧ s.pc 1 = .idle then
      some (s.enter { s.shared with accepted := true } 1 .acceptActive)
    else none
  | .close k => call s s.shared k .closeBy
  | .detach k => call s { s.shared with detaching := true } k .closeBy
  | .setOnRequest k => call s { s.shared with onRequest := true } k .setLen
  | .flush k => call s s.shared k .flushActive
  | .consume m =>
    if m ≤ s.shared.length then
      some { s with shared.length := s.shared.length - m }
    else none
  | .panic k =>
    match s.pc k with
    | .onConnect _ | .first _ | .more _ => some (s.enter s.shared k .panicUnlock)
    | _ => none
  | .run k j => s.run .idle 3 (next h) k j

def init (onRequest : Bool) : System where
  shared :=
    { closing := .none, connecting := none, processing := none, flushing := .unlocked,
      state := .none, onRequest := onRequest, length := 0, operator := .inuse, detached := 0,
      detaching := false, fdOpen := true, hung := false, hupStarted := false, accepted := false,
      connected := false, disconnects := 0, traversals := 0, frees := 0 }
  pc := fun _ => .idle

end Netpoll.Connection
