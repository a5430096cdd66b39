import Netpoll.Input.WaitRead
import Netpoll.Connection.LifecycleLaws

/-! `connection.waitRead` beside the life of the connection.  The steps of
`Netpoll.Connection` stay as they are; what they leave out is added around them:
the end of `inputAck`, the errors that a close sends, and one reader. -/

namespace Netpoll.WaitRead

open Netpoll.Lib.Transition Netpoll.Input
open Netpoll.Connection (Conn Handlers Pc)

/-- Where the reader runs: in the handler of a task, or in a goroutine of its own
when there is no `OnRequest`. -/
inductive Place
  | handler (k : Nat) | outside
  deriving DecidableEq, Repr

inductive AckPc
  | idle | request (l : Nat) | check (l : Nat) | trigger
  deriving DecidableEq, Repr

structure System where
  conn : Connection.System
  waitReadSize : Nat
  readTrigger : Option (Option ReadErr)
  ack : AckPc
  closer : Nat → Option ReadErr
  reader : Option (Place × WaitPc)

def System.inbox (s : System) : Inbox :=
  ⟨s.conn.shared.length, s.waitReadSize, s.readTrigger, s.conn.shared.closing⟩

inductive Label
  | conn (a : Connection.Label)
  | ack
  | send (k : Nat)
  | waitRead (p : Place) (n : Nat)
  | read
  deriving DecidableEq, Repr

def needTrigger (h : Handlers) (c : Conn) : Pc → Option Bool
  | .reqLoad true => if c.onRequest then none else some true
  | .reqState true => if c.state = .none ∧ h.onConnect then some false else none
  | .reqLock true => some c.processing.isSome
  | _ => none

def ackNext (h : Handlers) (c : Conn) (ack : AckPc) : Pc → AckPc
  | .inputAck n =>
    if n = 0 then .idle
    else if c.length + n = n then .request (c.length + n) else .check (c.length + n)
  | p =>
    match ack, needTrigger h c p with
    | .request l, some true => .check l
    | .request _, some false => .idle
    | ack, _ => ack

def System.ackAfter (h : Handlers) (s : System) : Connection.Label → AckPc
  | .run 0 _ => ackNext h s.conn.shared s.ack (s.conn.pc 0)
  | _ => s.ack

def closeErr : Pc → Option ReadErr
  | .hupClose => some (.eof "peer close")
  | .closeBy => some (.connClosed "self close")
  | _ => none

def System.closerAfter (s : System) : Connection.Label → Nat → Option ReadErr
  | .run k _ =>
    if s.conn.shared.closing = .none ∧ (closeErr (s.conn.pc k)).isSome then
      Function.update s.closer k (closeErr (s.conn.pc k))
    else s.closer
  | _ => s.closer

def System.waitsIn (s : System) (k : Nat) : Bool :=
  match s.reader with
  | some (.handler i, _) => i == k
  | _ => false

def AckPc.pending : AckPc → Bool
  | .check _ | .trigger => true
  | _ => false

def System.mayStep (s : System) : Connection.Label → Bool
  | .run k _ => (k != 0 || !s.ack.pending) && (s.closer k).isNone && !s.waitsIn k
  | .panic k => !s.waitsIn k
  | .consume _ => s.reader.isNone
  | _ => true

def System.mayRead (s : System) : Place → Bool
  | .handler k => (s.conn.pc k).handling
  | .outside => !s.conn.shared.onRequest

def step (h : Handlers) (s : System) : Label → Option System
  | .conn a =>
    if s.mayStep a then
      (Connection.step h s.conn a).map fun t =>
        { s with conn := t, ack := s.ackAfter h a, closer := s.closerAfter a }
    else none
  | .ack =>
    match s.ack with
    | .check l => some { s with ack := if s.waitReadSize ≤ l then .trigger else .idle }
    | .trigger => some { s with readTrigger := triggerRead s.readTrigger none, ack := .idle }
    | _ => none
  | .send k =>
    (s.closer k).map fun e =>
      { s with readTrigger := triggerRead s.readTrigger (some e),
               closer := Function.update s.closer k none }
  | .waitRead p n =>
    if s.reader = none ∧ s.mayRead p then some { s with reader := some (p, .entry n) } else none
  | .read =>
    match s.reader with
    | none => none
    | some (p, w) =>
      (Input.waitRead s.inbox w).map fun r =>
        { s with waitReadSize := r.1.waitReadSize, readTrigger := r.1.readTrigger,
                 reader := r.2.map (p, ·) }

def init (onRequest : Bool) : System where
  conn := Connection.init onRequest
  waitReadSize := 0
  readTrigger := none
  ack := .idle
  closer := fun _ => none
  reader := none

end Netpoll.WaitRead
