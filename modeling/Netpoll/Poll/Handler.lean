import Mathlib.Algebra.Ring.Nat
import Netpoll.Lib.Transition

/-! `defaultPoll.handler` on the events of one file: `ioread`, `readall`, `iosend`
and the vectored system calls under them, over any operator.  Chunks are known by
their lengths; the kernel is an oracle. -/

namespace Netpoll.Poll.Handler

inductive Errno
  | eagain | eintr | other (code : Nat)
  deriving DecidableEq, Repr

inductive SysRes
  | ok (n : Nat) | fail (e : Errno)
  deriving DecidableEq, Repr

/-- What the kernel answers to the system calls on the file, in their order. -/
structure Kernel where
  reads : Nat → SysRes
  writes : Nat → SysRes
  noError : Nat → Bool

structure Operator (σ : Type*) where
  onRead : Option (σ → σ)
  inputs : Option (σ → List Nat × σ)
  inputAck : Int → σ → σ
  onWrite : Option (σ → σ)
  outputs : Option (σ → List Nat × σ)
  outputAck : Int → σ → σ

structure Fd (σ : Type*) where
  state : σ
  reads : Nat
  writes : Nat
  errors : Nat

structure Event where
  read : Bool
  write : Bool
  hup : Bool
  error : Bool
  deriving DecidableEq, Repr

inductive Cause
  | read | hup | error | write
  deriving DecidableEq, Repr

inductive IoErr
  | eof | errno (e : Errno)
  deriving DecidableEq, Repr

def maxInt32 : Nat := 2 ^ 31 - 1

/-- The lengths in the vector: empty chunks are left out, and the last one is cut
at 2 GB in all. -/
def iovecs : Nat → List Nat → List Nat
  | _, [] => []
  | total, l :: bs =>
    if l = 0 then iovecs total bs
    else if total + l < maxInt32 then l :: iovecs (total + l) bs
    else [maxInt32 - total]

def resetIovecs (bs : List Nat) : List Nat := bs.map fun _ => 0

section

variable {σ : Type*} (k : Kernel) (o : Operator σ)

def readv (s : Fd σ) (bs : List Nat) : (Int × Option Errno) × List Nat × Fd σ :=
  if iovecs 0 bs = [] then ((0, none), bs, s)
  else
    match k.reads s.reads with
    | .ok n => ((n, none), resetIovecs bs, { s with reads := s.reads + 1 })
    | .fail e => ((-1, some e), resetIovecs bs, { s with reads := s.reads + 1 })

def ioread (s : Fd σ) (bs : List Nat) : (Int × Option IoErr) × List Nat × Fd σ :=
  match readv k s bs with
  | ((n, none), bs, s) => ((n, if n = 0 then some .eof else none), bs, s)
  | ((_, some .eagain), bs, s) | ((_, some .eintr), bs, s) => ((0, none), bs, s)
  | ((n, some e), bs, s) => ((n, some (.errno e)), bs, s)

def writev (s : Fd σ) (bs : List Nat) : (Int × Option Errno) × Fd σ :=
  if iovecs 0 bs = [] then ((0, none), s)
  else
    match k.writes s.writes with
    | .ok n => (((min n (iovecs 0 bs).sum : Nat), none), { s with writes := s.writes + 1 })
    | .fail e => ((-1, some e), { s with writes := s.writes + 1 })

def iosend (s : Fd σ) (bs : List Nat) : (Int × Option IoErr) × Fd σ :=
  match writev k s bs with
  | ((_, some .eagain), s) => ((0, none), s)
  | ((n, e), s) => ((n, e.map .errno), s)

/-- The loop of `readall` from its label `TryRead` on: `bs` is the vector it has,
which the system call clears; `none` when the fuel runs out. -/
def tryRead (inputs : σ → List Nat × σ) :
    Nat → List Nat → Fd σ → Int → Option (Fd σ × Int × Option IoErr)
  | 0, _, _, _ => none
  | fuel + 1, bs, s, total =>
    let ((n, err), rest, s) := ioread k s bs
    let s := { s with state := o.inputAck n s.state }
    let total := total + n
    if err.isSome then some (s, total, err)
    else if n = 0 then tryRead inputs fuel rest s total
    else
      let (bs, t) := inputs s.state
      if bs = [] then some ({ s with state := t }, total, none)
      else tryRead inputs fuel bs { s with state := t } total

def readall (inputs : σ → List Nat × σ) (fuel : Nat) (s : Fd σ) :
    Option (Fd σ × Int × Option IoErr) :=
  let (bs, t) := inputs s.state
  if bs = [] then some ({ s with state := t }, 0, none)
  else tryRead k o inputs fuel bs { s with state := t } 0

def handleRead (s : Fd σ) : Fd σ × Int × Bool :=
  match o.onRead, o.inputs with
  | some onRead, _ => ({ s with state := onRead s.state }, 0, false)
  | none, some inputs =>
    let (bs, t) := inputs s.state
    let s := { s with state := t }
    if bs = [] then (s, 0, false)
    else
      let ((n, err), _, s) := ioread k s bs
      ({ s with state := o.inputAck n s.state }, n, err.isSome)
  | none, none => (s, 0, false)

def handleWrite (s : Fd σ) : Fd σ × Option Cause :=
  match o.onWrite, o.outputs with
  | some onWrite, _ => ({ s with state := onWrite s.state }, none)
  | none, some outputs =>
    let (bs, t) := outputs s.state
    let s := { s with state := t }
    if bs = [] then (s, none)
    else
      let ((n, err), s) := iosend k s bs
      ({ s with state := o.outputAck n s.state }, if err.isSome then some .write else none)
  | none, none => (s, none)

def handleLeft (fuel : Nat) (ev : Event) (s : Fd σ) (total : Int) : Option (Fd σ × Int) :=
  match ev.hup && ev.read, o.inputs with
  | true, some inputs => (readall k o inputs fuel s).map fun r => (r.1, total + r.2.1)
  | _, _ => some (s, total)

/-- One event, between `do()` and `done()`; with a cause when it ended in
`appendHup`. -/
def handle (fuel : Nat) (ev : Event) (s : Fd σ) : Option (Fd σ × Option Cause) :=
  let (s, total, failed) := if ev.read then handleRead k o s else (s, 0, false)
  if failed then some (s, some .read)
  else
    (handleLeft k o fuel ev s total).map fun (s, total) =>
      if ev.hup ∧ total = 0 then (s, some .hup)
      else if ev.error then
        ({ s with errors := s.errors + 1 }, if k.noError s.errors then none else some .error)
      else if ev.write then handleWrite k o s
      else (s, none)

end

end Netpoll.Poll.Handler
