import Mathlib.Algebra.BigOperators.Group.List.Basic
import Netpoll.Lib.Transition
import Netpoll.Poll.Handler

/-! A `writeFifo`: the poller's callbacks on its output buffer, and the goroutine
that flushes and waits for them.  The buffer is known by the readable length of
every node from `read` to `flush`; the fd is in the poller's interest set or not. -/

namespace Netpoll.WriteFifo

open Netpoll.Poll.Handler (Errno SysRes Operator iovecs)

inductive CtlErr
  | eexist | enoent
  deriving DecidableEq, Repr

inductive FlushErr
  | sys (e : Errno) | ctl (e : CtlErr) | writeTimeout
  deriving DecidableEq, Repr

structure Fifo where
  nodes : List Nat
  detached : Nat
  registered : Bool
  writeTrigger : Option (Option FlushErr)
  deriving DecidableEq, Repr

inductive PollEvent
  | writable | detach
  deriving DecidableEq, Repr

def barriercap : Nat := 32

def isEmpty (nodes : List Nat) : Bool := nodes.sum == 0

/-- The chunks for the vector: the nodes that have something to read, and the one
that is written next if there is room for it. -/
def getBytes (cap : Nat) (nodes : List Nat) : List Nat :=
  let front := (nodes.dropLast.filter (0 < ·)).take cap
  if front.length < cap then front ++ [nodes.getLastD 0] else front

def skip : Nat → List Nat → List Nat
  | _, [] => []
  | n, l :: nodes => if n ≤ l then (l - n) :: nodes else skip (n - l) nodes

namespace Fifo

def control (f : Fifo) : PollEvent → Fifo × Option CtlErr
  | .writable =>
    if f.registered then (f, some .eexist) else ({ f with registered := true }, none)
  | .detach =>
    let f := { f with detached := f.detached + 1 }
    if 1 < f.detached then (f, none)
    else if f.registered then ({ f with registered := false }, none) else (f, some .enoent)

def triggerWrite (f : Fifo) (err : Option FlushErr) : Fifo :=
  if f.writeTrigger.isSome then f else { f with writeTrigger := some err }

def detachWrite (f : Fifo) : Fifo := (f.control .detach).1.triggerWrite none

def outputs (f : Fifo) : List Nat × Fifo :=
  if isEmpty f.nodes then ([], f.detachWrite) else (getBytes barriercap f.nodes, f)

def outputAck (n : Int) (f : Fifo) : Fifo :=
  let f := if 0 < n then { f with nodes := skip n.toNat f.nodes } else f
  if isEmpty f.nodes then f.detachWrite else f

def operator : Operator Fifo where
  onRead := none
  inputs := none
  inputAck := fun _ f => f
  onWrite := none
  outputs := some outputs
  outputAck := outputAck

def offered (f : Fifo) : Nat := (iovecs 0 (getBytes barriercap f.nodes)).sum

end Fifo

inductive WriterPc
  | idle | flush | register | waitFlush | expired | returned (err : Option FlushErr)
  deriving DecidableEq, Repr

inductive PollerPc
  | idle | outputs | send | detach | trigger
  deriving DecidableEq, Repr

structure System where
  fifo : Fifo
  writer : WriterPc
  poller : PollerPc
  registrations : Nat
  deriving DecidableEq, Repr

inductive Label
  /-- `Write` or `Flush` begins; the new bytes fill the last node by `more` and
  then nodes of their own -/
  | write (more : Nat) (nodes : List Nat)
  | writer (r : SysRes)
  | timeout
  | event
  | poller (n : Nat)
  deriving DecidableEq, Repr

def extend (nodes : List Nat) (more : Nat) (added : List Nat) : List Nat :=
  nodes.dropLast ++ (nodes.getLastD 0 + more) :: added

def writerStep (s : System) (r : SysRes) : Option System :=
  match s.writer with
  | .idle => none
  | .flush =>
    if isEmpty s.fifo.nodes then some { s with writer := .returned none }
    else
      match r with
      | .fail (.other e) => some { s with writer := .returned (some (.sys (.other e))) }
      | .fail .eintr => some { s with writer := .returned (some (.sys .eintr)) }
      | .fail .eagain => some { s with writer := .register }
      | .ok n =>
        let nodes := skip (min n s.fifo.offered) s.fifo.nodes
        some { s with fifo.nodes := nodes,
                      writer := if isEmpty nodes then .returned none else .register }
  | .register =>
    let (f, err) := s.fifo.control .writable
    some { s with fifo := f, registrations := s.registrations + 1,
                  writer := if err.isSome then .returned (err.map .ctl) else .waitFlush }
  | .waitFlush =>
    s.fifo.writeTrigger.map fun err =>
      { s with fifo.writeTrigger := none, writer := .returned err }
  | .expired =>
    some { s with fifo := (s.fifo.control .detach).1, writer := .returned (some .writeTimeout) }
  | .returned _ => some { s with writer := .idle }

def pollerStep (s : System) (n : Nat) : Option System :=
  match s.poller with
  | .idle => none
  | .outputs => some { s with poller := if isEmpty s.fifo.nodes then .detach else .send }
  | .send =>
    let nodes := skip (min n s.fifo.offered) s.fifo.nodes
    some { s with fifo.nodes := nodes, poller := if isEmpty nodes then .detach else .idle }
  | .detach => some { s with fifo := (s.fifo.control .detach).1, poller := .trigger }
  | .trigger => some { s with fifo := s.fifo.triggerWrite none, poller := .idle }

def step (s : System) : Label → Option System
  | .write more nodes =>
    if s.writer = .idle then
      some { s with fifo.nodes := extend s.fifo.nodes more nodes, writer := .flush }
    else none
  | .writer r => writerStep s r
  | .timeout =>
    if s.writer = .waitFlush then
      some (match s.fifo.writeTrigger with
        | some err => { s with fifo.writeTrigger := none, writer := .returned err }
        | none => { s with writer := .expired })
    else none
  | .event =>
    if s.fifo.registered ∧ s.poller = .idle then some { s with poller := .outputs } else none
  | .poller n => pollerStep s n

def init : System := ⟨⟨[0], 0, false, none⟩, .idle, .idle, 0⟩

end Netpoll.WriteFifo
