import Netpoll.Lib.Transition
import Netpoll.Connection.Lifecycle

/-! A `fifoConnection` under the calls of its user, one after the other, and the
events of its poller in between.  The two halves keep their own keychain, so each
can be blank, live or shut whatever the other is.  In the functions of the code
`none` is a nil dereference. -/

namespace Netpoll.FifoConnection

open Netpoll.Connection (Who Key)
open Netpoll.Lib.Transition

inductive Side
  | reader | writer
  deriving DecidableEq, Repr

inductive PollEvent
  | readable | writable | detach
  deriving DecidableEq, Repr

structure FDOperator where
  poll : Bool
  detached : Nat
  deriving DecidableEq, Repr

namespace FDOperator

def alloc : FDOperator := ⟨true, 0⟩

def control (op : FDOperator) : PollEvent → Option FDOperator
  | .detach =>
    let op := { op with detached := op.detached + 1 }
    if 1 < op.detached then some op else if op.poll then some op else none
  | _ => if op.poll then some op else none

def free (op : FDOperator) : Option FDOperator :=
  if op.poll then some ⟨false, 0⟩ else none

end FDOperator

structure Buffer where
  length : Nat
  nodes : Bool
  deriving DecidableEq, Repr

def Buffer.closed : Buffer := ⟨0, false⟩

/-- A `readFifo` or a `writeFifo`; the zero value is the one `&writeFifo{}` has. -/
structure Fifo where
  fd : Nat := 0
  operator : Option FDOperator := none
  buffer : Option Buffer := none
  barrier : Bool := false
  trigger : Bool := false
  closing : Who := .none
  processing : Key := .unlocked
  flushing : Key := .unlocked
  detaching : Bool := false
  closeCallbacks : Nat := 0
  onFifoRead : Bool := false
  hung : Bool := false
  deriving DecidableEq, Repr

inductive Errno
  | enxio | other
  deriving DecidableEq, Repr

inductive Open
  | ok (fd : Nat) | err (e : Errno)
  deriving DecidableEq, Repr

/-- How far `flush` gets: nothing to write, all of it written at once, or a short
write that is registered, woken or timed out, and detached. -/
inductive Flush
  | empty | whole | short
  deriving DecidableEq, Repr

namespace Fifo

def control (f : Fifo) (e : PollEvent) : Option Fifo := do
  let op ← f.operator
  let op ← op.control e
  return { f with operator := some op }

def release (f : Fifo) (fds : List Nat) : Option (Fifo × List Nat) := do
  let op ← f.operator
  let op ← op.free
  return ({ f with operator := some op },
    if !f.detaching && decide (2 < f.fd) then fds.erase f.fd else fds)

def readFinalizer (f : Fifo) (fds : List Nat) : Option (Fifo × List Nat) := do
  let (f, fds) ← f.release fds
  let b ← f.buffer
  -- closeBuffer keeps unread data only when no callback will come for it
  return (if b.length = 0 ∨ f.onFifoRead then { f with buffer := some .closed } else f, fds)

def writeFinalizer (f : Fifo) (fds : List Nat) : Option (Fifo × List Nat) := do
  let (f, fds) ← { f with flushing := .stopped }.release fds
  let _ ← f.buffer
  return ({ f with buffer := some .closed }, fds)

def finalizer : Side → Fifo → List Nat → Option (Fifo × List Nat)
  | .reader => readFinalizer
  | .writer => writeFinalizer

def traverse (side : Side) : Nat → Fifo → List Nat → Option (Fifo × List Nat)
  | 0, f, fds => some (f, fds)
  | n + 1, f, fds => do
    let (f, fds) ← f.finalizer side fds
    traverse side n f fds

def closeCallback (side : Side) (needDetach : Bool) (f : Fifo) (fds : List Nat) :
    Option (Fifo × List Nat) :=
  if f.processing ≠ .unlocked then some (f, fds)
  else do
    let f := { f with processing := .locked }
    let f ← if needDetach then do
        let op ← f.operator
        if op.poll then f.control .detach else some f
      else some f
    f.traverse side f.closeCallbacks fds

def onClose (side : Side) (f : Fifo) (fds : List Nat) : Option (Fifo × List Nat) :=
  -- a send on a nil trigger takes the default case of its select
  if f.closing = .none then { f with closing := .user }.closeCallback side true fds
  else { f with closing := .user }.closeCallback side false fds

def onHup (side : Side) (f : Fifo) (fds : List Nat) : Option (Fifo × List Nat) :=
  if f.closing ≠ .none then some (f, fds)
  else
    let f := { f with closing := .poller }
    if side = .reader ∧ f.onFifoRead = false then some (f, fds)
    else f.closeCallback side false fds

def appendHup (f : Fifo) : Option Fifo := do
  let f ← f.control .detach
  return { f with hung := true }

def opened (f : Fifo) (side : Side) (fd : Nat) : Fifo :=
  { f with
    fd, operator := some .alloc, buffer := some ⟨0, true⟩, barrier := side = .writer,
    trigger := true
    closeCallbacks := f.closeCallbacks + 1 }

def readInit (o : Open) (registered : Bool) (fds : List Nat) :
    Option ((Fifo × List Nat) × Bool) :=
  match o with
  | .err _ => some (({}, fds), false)
  | .ok fd => do
    let f ← (opened {} .reader fd).control .readable
    if registered then return ((f, fd :: fds), true)
    else return (← f.onClose .reader (fd :: fds), false)

def writeInit (f : Fifo) (fds : List Nat) : Open → (Fifo × List Nat) × Option Errno
  | .err e => ((f, fds), some e)
  | .ok fd => ((f.opened .writer fd, fd :: fds), none)

def read (l : Nat) (f : Fifo) : Option (Option Fifo) :=
  if l = 0 then some (some f)
  else do
    let b ← f.buffer
    if b.length = 0 then
      if f.closing ≠ .none then some (some f) else if f.trigger then some none else none
    else if b.nodes then some (some { f with
      buffer := some { b with length := b.length - min l b.length } })
    else none

def write (r : Flush) (f : Fifo) : Option Fifo :=
  if f.flushing ≠ .unlocked then some f
  else do
    let b ← f.buffer
    if !b.nodes then none
    else match r with
      | .empty => some f
      | .whole => if f.barrier then some f else none
      | .short => if f.barrier && f.trigger then (← f.control .writable).control .detach else none

end Fifo

structure Conn where
  reader : Option Fifo := none
  writer : Option Fifo := none
  writerReady : Bool := false
  attached : Bool := false
  fds : List Nat := []
  closed : Bool := false
  panicked : Bool := false
  deriving DecidableEq, Repr

namespace Conn

def isWriterReady (c : Conn) : Bool := c.writer.isSome && c.writerReady

def half (c : Conn) : Side → Option Fifo
  | .reader => c.reader
  | .writer => c.writer

def setHalf (c : Conn) (f : Fifo) : Side → Conn
  | .reader => { c with reader := some f }
  | .writer => { c with writer := some f }

def init (c : Conn) (r : Open) (registered : Bool) (w : Open) : Option Conn := do
  let ((f, fds), ok) ← Fifo.readInit r registered c.fds
  let c := { c with reader := some f, fds }
  if !ok then return c
  else
    let c := { c with reader := some { f with onFifoRead := true } }
    match Fifo.writeInit {} c.fds w with
    | ((g, fds), none) =>
      return { c with writer := some g, fds, writerReady := true, attached := true }
    | ((g, fds), some e) => return { c with writer := some g, fds, attached := e = .enxio }

def tryInitWriter (c : Conn) (o : Open) : Option (Conn × Option Errno) :=
  if c.isWriterReady then some (c, none)
  else do
    let f ← c.writer
    match f.writeInit c.fds o with
    | ((f, fds), none) => return ({ c with writer := some f, fds, writerReady := true }, none)
    | ((f, fds), some e) => return ({ c with writer := some f, fds }, some e)

def write (c : Conn) (o : Open) (r : Flush) : Option Conn := do
  let (c, err) ← c.tryInitWriter o
  if err.isSome then return c
  else
    let f ← c.writer
    let f ← f.write r
    return { c with writer := some f }

def closeHalf (c : Conn) (side : Side) : Option Conn :=
  match c.half side with
  | none => some c
  | some f => do
    let (f, fds) ← f.onClose side c.fds
    return { c.setHalf f side with fds }

def close (c : Conn) : Option Conn := do
  let c ← c.closeHalf .reader
  let c ← c.closeHalf .writer
  return { c with closed := true }

end Conn

inductive Label
  | init (r : Open) (registered : Bool) (w : Open)
  | tryInitWriter (o : Open)
  | write (o : Open) (r : Flush)
  | read (l : Nat)
  | close
  | deliver (n : Nat)
  | appendHup (side : Side)
  | onHup (side : Side)
  deriving DecidableEq, Repr

def Open.fds : Open → List Nat
  | .ok fd => [fd]
  | .err _ => []

def Open.fresh (o : Open) (fds : List Nat) : Bool := o.fds.all (· ∉ fds)

/-- An operation that can be made now; the inner `none` is a nil dereference. -/
def act (c : Conn) : Label → Option (Option Conn)
  | .init r registered w =>
    if !c.attached && c.reader.isNone && r.fresh c.fds && w.fresh (r.fds ++ c.fds) then
      some (c.init r registered w)
    else none
  | .tryInitWriter o =>
    if c.attached && o.fresh c.fds then some ((c.tryInitWriter o).map (·.1)) else none
  | .write o r => if c.attached && o.fresh c.fds then some (c.write o r) else none
  | .read l =>
    if !c.attached then none
    else match c.reader with
      | none => some (some c)
      | some f => match f.read l with
        | none => some none
        | some none => none
        | some (some f) => some (some { c with reader := some f })
  | .close => if c.attached then some c.close else none
  | .deliver n => do
    let f ← c.reader
    let op ← f.operator
    let b ← f.buffer
    if c.attached && op.poll && b.nodes then
      some (some { c with
        reader := some { f with buffer := some { b with length := b.length + n } } })
    else none
  | .appendHup side => do
    let f ← c.half side
    let op ← f.operator
    if c.attached && op.poll && !f.hung then some (f.appendHup.map (c.setHalf · side)) else none
  | .onHup side => do
    let f ← c.half side
    if c.attached && f.hung then
      some (({ f with hung := false }.onHup side c.fds).map fun (f, fds) =>
        { c.setHalf f side with fds })
    else none

def step (c : Conn) (a : Label) : Option Conn :=
  if c.panicked then none
  else (act c a).map fun
    | none => { c with panicked := true }
    | some c' => c'

end Netpoll.FifoConnection
