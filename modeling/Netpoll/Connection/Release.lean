import Netpoll.Poll.OperatorReuse

/-! `connection.Release` next to the finalizer of its connection and to the
operator cache.  Connection `k` is the one that goroutine `k` of the cache
allocates an operator for; it keeps the pointer to that operator after
`operator.Free`. -/

namespace Netpoll.Release

open Netpoll.Lib.Threads Netpoll.Lib.Transition
open Netpoll.Poll (Cache Turn Exclusive Growing Placed)

def pagesize : Nat := 8192
def mallocMax : Nat := 8192 * 1024

structure Node where
  buf : Nat
  off : Nat

def Node.len (n : Node) : Nat := n.buf - n.off

/-- The input `LinkBuffer`.  Nodes are numbered along the chain, `none` is nil. -/
structure InputBuffer where
  length : Nat
  head : Option Nat
  read : Option Nat
  flush : Option Nat
  write : Option Nat
  last : Nat
  nodes : Nat → Node

namespace InputBuffer

def init : InputBuffer := ⟨0, some 0, some 0, some 0, some 0, 0, fun _ => ⟨0, 0⟩⟩

def next (b : InputBuffer) (p : Nat) : Option Nat := if p < b.last then some (p + 1) else none

def link (b : InputBuffer) : InputBuffer :=
  { b with
    write := some (b.last + 1)
    last := b.last + 1
    nodes := Function.update b.nodes (b.last + 1) ⟨0, 0⟩ }

def bookAck (b : InputBuffer) (p n : Nat) : InputBuffer :=
  { b with
    nodes := Function.update b.nodes p { b.nodes p with buf := (b.nodes p).buf + n }
    flush := some p
    length := b.length + n }

def input (b : InputBuffer) (n : Nat) (full : Bool) : Option InputBuffer :=
  match b.write with
  | none => none
  | some p => some (if full then b.link.bookAck (b.last + 1) n else b.bookAck p n)

def consume (b : InputBuffer) (n : Nat) : Option InputBuffer :=
  match b.read with
  | none => none
  | some p =>
    if n ≤ (b.nodes p).len ∧ n ≤ b.length then
      some { b with
        nodes := Function.update b.nodes p { b.nodes p with off := (b.nodes p).off + n }
        length := b.length - n }
    else none

end InputBuffer

inductive Sweep
  | read | head
  deriving DecidableEq, Repr

def InputBuffer.sweep (b : InputBuffer) : Sweep → Option (InputBuffer × Option Sweep)
  | .read =>
    if b.read = b.flush then some (b, some .head)
    else
      match b.read with
      | none => none
      | some p =>
        if (b.nodes p).len = 0 then some ({ b with read := b.next p }, some .read)
        else some (b, some .head)
  | .head =>
    if b.head = b.read then some (b, none)
    else
      match b.head with
      | none => none
      | some p => some ({ b with head := b.next p }, some .head)

inductive RelPc
  | idle
  | len | acquire
  -- calcMaxSize
  | calc | sum (node : Option Nat) (sum : Nat)
  | bound (sum : Nat) | relen | resetTail | done
  | bufferRelease | sweep (w : Sweep)
  | panicked
  deriving DecidableEq, Repr

inductive FinPc
  | before
  | test
  | bufferClose | length | sweep (w : Sweep) | nilHead | nilRead | nilFlush | nilWrite
  | closed
  | kept
  | panicked
  deriving DecidableEq, Repr

structure Conn where
  operator : Option Nat
  handlers : Bool
  maxSize : Nat
  input : InputBuffer
  release : RelPc
  closing : FinPc

structure World where
  poll : Poll.System
  conns : Nat → Conn
  owner : Nat → Nat

inductive Label
  | poll (a : Poll.Label)
  | input (n : Nat) (full : Bool)
  | consume (r n : Nat)
  | advance (r : Nat)
  | release (r : Nat)
  | run (r : Nat)
  | close (r : Nat)
  deriving DecidableEq, Repr

def Conn.run (c : Cache) (x : Conn) : Option (Cache × Conn) :=
  match x.release with
  | .idle | .panicked => none
  | .len => some (c, { x with release := if x.input.length = 0 then .acquire else .bufferRelease })
  | .acquire =>
    match x.operator with
    | none => none
    | some op =>
      if (c.ops op).state = .inuse then
        some (c.set op fun o => { o with state := .doing }, { x with release := .calc })
      else some (c, { x with release := .bufferRelease })
  | .calc => some (c, { x with release := .sum x.input.head 0 })
  | .sum node sum =>
    if node = x.input.read then
      match x.input.read with
      | none => some (c, { x with release := .panicked })
      | some p => some (c, { x with release := .bound (sum + (x.input.nodes p).buf) })
    else
      match node with
      | none => some (c, { x with release := .panicked })
      | some p =>
        some (c, { x with release := .sum (x.input.next p) (sum + (x.input.nodes p).buf) })
  | .bound sum =>
    let size := if sum > mallocMax then mallocMax else sum
    some (c, { x with maxSize := if size > x.maxSize then size else x.maxSize, release := .relen })
  | .relen => some (c, { x with release := if x.input.length = 0 then .resetTail else .done })
  | .resetTail =>
    if x.maxSize ≤ pagesize then some (c, { x with release := .done })
    else
      match x.input.write with
      | none => some (c, { x with release := .panicked })
      | some _ =>
        let b := x.input.link
        some (c, { x with input := { b with flush := b.write }, release := .done })
  | .done =>
    match x.operator with
    | none => none
    | some op =>
      some (c.set op fun o => { o with state := .inuse }, { x with release := .bufferRelease })
  | .bufferRelease => some (c, { x with release := .sweep .read })
  | .sweep w =>
    match x.input.sweep w with
    | none => some (c, { x with release := .panicked })
    | some (b, none) => some (c, { x with input := b, release := .idle })
    | some (b, some w) => some (c, { x with input := b, release := .sweep w })

def Conn.close (x : Conn) : Option Conn :=
  match x.closing with
  | .before => some { x with closing := .test }
  | .test =>
    some { x with closing := if x.input.length = 0 ∨ x.handlers then .bufferClose else .kept }
  | .bufferClose => some { x with closing := .length }
  | .length => some { x with input := { x.input with length := 0 }, closing := .sweep .read }
  | .sweep w =>
    match x.input.sweep w with
    | none => some { x with closing := .panicked }
    | some (b, none) => some { x with input := b, closing := .nilHead }
    | some (b, some w) => some { x with input := b, closing := .sweep w }
  | .nilHead => some { x with input := { x.input with head := none }, closing := .nilRead }
  | .nilRead => some { x with input := { x.input with read := none }, closing := .nilFlush }
  | .nilFlush => some { x with input := { x.input with flush := none }, closing := .nilWrite }
  | .nilWrite => some { x with input := { x.input with write := none }, closing := .closed }
  | .closed | .kept | .panicked => none

def Conn.inputAck (x : Conn) (n : Nat) (full : Bool) : Option Conn :=
  (x.input.input n full).map fun b =>
    let size := if x.maxSize < b.length then b.length else x.maxSize
    { x with
      input := b
      maxSize := if n = 0 then x.maxSize else if size > mallocMax then mallocMax else size }

def World.track (w : World) (k : Nat) (s : Poll.System) : World :=
  match w.poll.pc k, s.pc k with
  | .allocPop, .allocUnlock op =>
    { poll := s
      conns := Function.update w.conns k { w.conns k with operator := some op }
      owner := Function.update w.owner op k }
  | _, _ => { w with poll := s }

def World.setConn (w : World) (r : Nat) (x : Conn) : World :=
  { w with conns := Function.update w.conns r x }

def step (opSize : Nat) (w : World) : Label → Option World
  | .poll a =>
    -- a connection allocates once
    if a = .alloc a.goroutine ∧ (w.conns a.goroutine).operator ≠ none then none
    else (Poll.step opSize w.poll a).map (w.track a.goroutine)
  | .input n full =>
    match w.poll.pc 0 with
    | .doing e _ =>
      ((w.conns (w.owner e.op)).inputAck n full).map (w.setConn (w.owner e.op))
    | _ => none
  | .consume r n =>
    if (w.conns r).release = .idle then
      ((w.conns r).input.consume n).map fun b => w.setConn r { w.conns r with input := b }
    else none
  | .advance r =>
    let x := w.conns r
    match x.release, x.input.read with
    | .idle, some p =>
      if x.input.read ≠ x.input.flush ∧ (x.input.nodes p).len = 0 then
        some (w.setConn r { x with input := { x.input with read := x.input.next p } })
      else none
    | _, _ => none
  | .release r =>
    let x := w.conns r
    if x.release = .idle ∧ x.operator ≠ none then some (w.setConn r { x with release := .len })
    else none
  | .run r =>
    ((w.conns r).run w.poll.shared).map fun (c, x) =>
      { w.setConn r x with poll := ⟨c, w.poll.pc⟩ }
  | .close r =>
    -- goroutine `r` has returned from `operator.Free()`
    if w.poll.pc r = .idle ∧ (w.conns r).operator ≠ none then (w.conns r).close.map (w.setConn r)
    else none

def init (handlers : Nat → Bool) (bufferSize : Nat) : World where
  poll := Poll.init
  conns := fun k => ⟨none, handlers k, bufferSize, .init, .idle, .before⟩
  owner := fun _ => 0

def RelPc.holding : RelPc → Bool
  | .calc | .sum .. | .bound _ | .relen | .resetTail | .done => true
  | _ => false

def RelPc.sweeping : RelPc → Bool
  | .sweep _ => true
  | _ => false

def FinPc.inside : FinPc → Bool
  | .length | .sweep _ | .nilHead | .nilRead | .nilFlush | .nilWrite => true
  | _ => false

def Conn.holds (x : Conn) (i : Nat) : Prop := x.operator = some i ∧ x.release.holding = true

/-- No operator is handed out while a `Release` of its last connection runs, none
is called later, and `inputBuffer.Release` and `inputBuffer.Close` of one
connection do not overlap. -/
def Label.orderly (w : World) : Label → Bool
  | .poll (.run k) =>
    match w.poll.pc k, w.poll.shared.first with
    | .allocPop, some op => (w.conns (w.owner op)).release = .idle
    | _, _ => true
  | .release r =>
    match (w.conns r).operator with
    | some op => w.owner op = r
    | none => true
  | .run r => (w.conns r).release = .bufferRelease → (w.conns r).closing.inside = false
  | .close r => (w.conns r).closing = .bufferClose → (w.conns r).release.sweeping = false
  | _ => true

end Netpoll.Release
