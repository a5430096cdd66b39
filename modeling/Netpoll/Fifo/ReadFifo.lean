import Netpoll.Lib.Transition
import Netpoll.Input.WaitRead

/-! A `readFifo` between `init` and its finalizer, as goroutines that interleave
one atomic access at a time.  Goroutine 0 is the poller's event handler, 1 runs
`init` and what its caller does next, 2 runs the queued `onHup`, 3 reads the FIFO
outside the callback; from 4 on there are tasks started by `onProcess` and
callers of `Close` and `Detach`, any number of each. -/

namespace Netpoll.ReadFifo

open Netpoll.Lib.Threads Netpoll.Input
open Netpoll.Connection (Who)
open Netpoll.Poll (OpState)

/-- Who initialises the FIFO: `AttachReadFifo`, which then starts the handler, or
`fifoConnection.init`, which then installs its transfer callback. -/
inductive Attach
  | readFifo | connection
  deriving DecidableEq, Repr

inductive Site
  | outside | first | more
  deriving DecidableEq, Repr

/-- Where a goroutine stands: the access it makes next.  The argument `cb` tells
whether the task has loaded a callback. -/
inductive Pc
  | idle
  -- defaultPoll.handler and readFifo.inputAck, `l` being what bookAck returned
  | inputs (n : Nat) | inputAck (n : Nat) | ackLock (l : Nat) | ackWait (l : Nat) | ackTrigger
  | appendHup | done
  -- the end of readFifo.init and its two callers
  | register (caller : Attach) (ok : Bool) | procLock | setOnFifoRead | attached
  -- readFifo.onHup and readFifo.onClose
  | hupClose | hupTrigger | hupLoad | closeBy | closeTrigger | force
  -- readFifo.closeCallback, its last callback being the finalizer
  | ccLock (needDetach : Bool) | ccDetach (needDetach : Bool) | ccLoad | ccRun
  | finFree | finFd | finBuffer
  -- the task of readFifo.onProcess
  | load | start (cb : Bool) | first | loop (cb : Bool) | test (closedBy : Who) (cb : Bool) | more
  | unlock (cb : Bool) | recheck (cb : Bool) | relock (cb : Bool) | relen (cb : Bool) | restart
  -- its deferred panic handler
  | panicUnlock
  | wait (w : WaitPc) (site : Site)
  deriving DecidableEq, Repr

structure Fifo where
  inbox : Inbox
  processing : Option Nat
  onFifoRead : Bool
  operator : OpState
  registered : Bool
  detached : Nat
  detaching : Bool
  fdOpen : Bool
  hung : Bool
  hupStarted : Bool
  attachStarted : Bool
  attachDone : Bool
  traversals : Nat
  frees : Nat

abbrev System := State Fifo Pc

inductive Label
  | attach (caller : Attach) (ok : Bool)
  | readable (n : Nat)
  | hup
  | onhups
  | close (k : Nat)
  | detach (k : Nat)
  | waitRead (k n : Nat)
  | consume (k m : Nat)
  | panic (k : Nat)
  | run (k j : Nat)
  deriving DecidableEq, Repr

def Attach.pc : Attach → Pc
  | .readFifo => .procLock
  | .connection => .setOnFifoRead

def Site.pc : Site → Pc
  | .outside => .idle
  | .first => .first
  | .more => .more

def Site.after (site : Site) : Option WaitPc → Pc
  | some w => .wait w site
  | none => site.pc

def Fifo.polled (f : Fifo) : Bool := f.frees == 0

def Fifo.trigger (f : Fifo) (err : Option ReadErr) : Fifo :=
  { f with inbox.readTrigger := triggerRead f.inbox.readTrigger err }

def next (f : Fifo) (k j : Nat) : Pc → Option (Move Fifo Pc)
  | .idle => none
  | .inputs n => some ⟨f, .inputAck n, none⟩
  | .inputAck n =>
    -- bookAck returns the new length, and a first chunk starts onProcess
    let l := f.inbox.length + n
    some ⟨{ f with inbox.length := l },
      if n = 0 then .done else if l = n then .ackLock l else .ackWait l, none⟩
  | .ackLock l =>
    if f.processing.isSome then some ⟨f, .ackWait l, none⟩
    else some ⟨{ f with processing := some j }, .done, some .load⟩
  | .ackWait l => some ⟨f, if f.inbox.waitReadSize ≤ l then .ackTrigger else .done, none⟩
  | .ackTrigger => some ⟨f.trigger none, .done, none⟩
  | .appendHup => some ⟨{ f with detached := f.detached + 1, hung := true }, .done, none⟩
  | .done => some ⟨{ f with operator := .inuse }, .idle, none⟩
  | .register caller ok =>
    if ok then
      some ⟨{ f with registered := true, operator := .inuse }, caller.pc, none⟩
    else some ⟨f, .closeBy, none⟩
  | .procLock =>
    if f.processing.isSome then some ⟨f, .attached, none⟩
    else some ⟨{ f with processing := some j }, .attached, some .load⟩
  | .setOnFifoRead => some ⟨{ f with onFifoRead := true }, .attached, none⟩
  | .attached => some ⟨{ f with attachDone := true }, .idle, none⟩
  | .hupClose =>
    if f.inbox.closing = .none then
      some ⟨{ f with inbox.closing := .poller }, .hupTrigger, none⟩
    else some ⟨f, .idle, none⟩
  | .hupTrigger => some ⟨f.trigger (some (.eof "peer close")), .hupLoad, none⟩
  | .hupLoad => some ⟨f, if f.onFifoRead then .ccLock false else .idle, none⟩
  | .closeBy =>
    if f.inbox.closing = .none then
      some ⟨{ f with inbox.closing := .user }, .closeTrigger, none⟩
    else some ⟨f, .force, none⟩
  | .closeTrigger => some ⟨f.trigger (some (.connClosed "self close")), .ccLock true, none⟩
  | .force => some ⟨{ f with inbox.closing := .user }, .ccLock false, none⟩
  | .ccLock needDetach =>
    if f.processing.isSome then some ⟨f, .idle, none⟩
    else some ⟨{ f with processing := some k }, .ccDetach needDetach, none⟩
  | .ccDetach needDetach =>
    some ⟨if needDetach ∧ f.polled then { f with detached := f.detached + 1 } else f,
      .ccLoad, none⟩
  | .ccLoad => some ⟨{ f with traversals := f.traversals + 1 }, .ccRun, none⟩
  | .ccRun => some ⟨f, .finFree, none⟩
  | .finFree =>
    -- unused() spins while the poller is between do() and done()
    if f.operator = .doing then none
    else some ⟨{ f with operator := .unused, frees := f.frees + 1 }, .finFd, none⟩
  | .finFd => some ⟨{ f with fdOpen := f.fdOpen && f.detaching }, .finBuffer, none⟩
  | .finBuffer =>
    -- closeBuffer keeps unread data only when no callback will come for it
    some ⟨{ f with
      inbox.length := if f.inbox.length = 0 ∨ f.onFifoRead then 0 else f.inbox.length }, .idle,
        none⟩
  | .load => some ⟨f, .start f.onFifoRead, none⟩
  | .start cb => some ⟨f, if cb ∧ 0 < f.inbox.length then .first else .loop cb, none⟩
  | .first => some ⟨f, .loop true, none⟩
  | .loop cb => some ⟨f, .test f.inbox.closing cb, none⟩
  | .test closedBy cb =>
    if closedBy = .user ∨ cb = false ∨ f.inbox.length = 0 then
      if closedBy = .none then some ⟨f, .unlock cb, none⟩
      else some ⟨f, .ccDetach (closedBy == .user), none⟩
    else some ⟨f, .more, none⟩
  | .more => some ⟨f, .loop true, none⟩
  | .unlock cb => some ⟨{ f with processing := none }, .recheck cb, none⟩
  | .recheck cb => some ⟨f, if f.inbox.closing = .none then .relen cb else .relock cb, none⟩
  | .relock cb =>
    if f.processing.isSome then some ⟨f, .relen cb, none⟩
    else some ⟨{ f with processing := some k }, .ccDetach false, none⟩
  | .relen cb => some ⟨f, if cb ∧ 0 < f.inbox.length then .restart else .idle, none⟩
  | .restart =>
    if f.processing.isSome then some ⟨f, .idle, none⟩
    else some ⟨{ f with processing := some k }, .load, none⟩
  | .panicUnlock => some ⟨{ f with processing := none }, .closeBy, none⟩
  | .wait w site =>
    (Input.waitRead f.inbox w).map fun r => ⟨{ f with inbox := r.1 }, site.after r.2, none⟩

def poll (s : System) (p : Pc) : Option System :=
  if s.pc 0 = .idle ∧ s.shared.registered ∧ s.shared.hung = false ∧
      s.shared.operator = .inuse then
    some (s.enter { s.shared with operator := .doing } 0 p)
  else none

def call (s : System) (f : Fifo) (k : Nat) (p : Pc) : Option System :=
  if 4 ≤ k ∧ s.pc k = .idle then some (s.enter f k p) else none

def site (s : System) (k : Nat) : Option Site :=
  match s.pc k with
  | .first => some .first
  | .more => some .more
  | .idle => if k = 3 then some .outside else none
  | _ => none

def step (s : System) : Label → Option System
  | .attach caller ok =>
    if s.shared.attachStarted = false ∧ s.pc 1 = .idle then
      some (s.enter { s.shared with attachStarted := true } 1 (.register caller ok))
    else none
  | .readable n => poll s (.inputs n)
  | .hup => poll s .appendHup
  | .onhups =>
    if s.shared.hung ∧ s.shared.hupStarted = false ∧ s.pc 2 = .idle then
      some (s.enter { s.shared with hupStarted := true } 2 .hupClose)
    else none
  | .close k => call s s.shared k .closeBy
  | .detach k => call s { s.shared with detaching := true } k .closeBy
  | .waitRead k n => (site s k).map fun r => s.enter s.shared k (.wait (.entry n) r)
  | .consume k m =>
    if (site s k).isSome ∧ m ≤ s.shared.inbox.length then
      some { s with shared.inbox.length := s.shared.inbox.length - m }
    else none
  | .panic k =>
    match s.pc k with
    | .first | .more => some (s.enter s.shared k .panicUnlock)
    | _ => none
  | .run k j => s.run .idle 4 next k j

def init (onFifoRead : Bool) : System where
  shared :=
    { inbox := ⟨0, 0, none, .none⟩, processing := none, onFifoRead := onFifoRead,
      operator := .unused, registered := false, detached := 0, detaching := false,
      fdOpen := true, hung := false, hupStarted := false, attachStarted := false,
      attachDone := false, traversals := 0, frees := 0 }
  pc := fun _ => .idle

end Netpoll.ReadFifo
