import Netpoll.Lib.Threads

/-! The poller's operator cache: `FDOperator`, `operatorCache` and the loop of
`defaultPoll.Wait`, next to any number of goroutines that each `Alloc` an
operator, register it, detach it and `Free` it.  Goroutine 0 is the poller.  An
operator is named by its position in the order of creation. -/

namespace Netpoll.Poll

open Netpoll.Lib.Threads

inductive OpState
  | unused | inuse | doing
  deriving DecidableEq, Repr

structure FDOperator where
  fd : Nat
  poll : Bool
  detached : Nat
  next : Option Nat
  state : OpState
  index : Nat

/-- An entry of the batch that `EpollWait` returns: the operator the kernel hands
back, and the file whose event it is. -/
structure Event where
  op : Nat
  file : Nat
  deriving DecidableEq, Repr

structure Cache where
  ops : Nat → FDOperator
  first : Option Nat
  cache : List Nat
  locked : Option Nat
  freelocked : Option Nat
  freelist : List Nat
  interest : Nat → Option Nat
  files : Nat

inductive Pc
  | idle
  -- operatorCache.alloc, defaultPoll.Alloc and the owner's `op.FD = fd`
  | allocLock | allocTest | allocGrow (left index : Nat) | allocPop | allocUnlock (op : Nat)
  | allocPoll (op : Nat) | setFd (op : Nat) | held (op : Nat)
  -- Control(PollReadable)
  | regCtl (op : Nat) | regInuse (fd op : Nat) | regAdd (fd op : Nat) | registered (op : Nat)
  -- Control(PollDetach)
  | detAdd (op : Nat) | detCtl (op : Nat) | detDel (fd op : Nat) | detached (op : Nat)
  -- operatorCache.freeable
  | freeUnused (op : Nat) | freeReset (op : Nat) | freeLock (op : Nat) | freeAppend (op : Nat)
  | freeUnlock
  -- defaultPoll.Wait and defaultPoll.handler
  | wait | handle (events : List Event) | doing (e : Event) (events : List Event)
  | hupAdd (e : Event) (events : List Event) | hupCtl (e : Event) (events : List Event)
  | hupDel (fd : Nat) (e : Event) (events : List Event) | done (e : Event) (events : List Event)
  -- operatorCache.free
  | pollFreelock | pollTest | pollLock | pollMove (rest : List Nat) | pollClear | pollUnlock
  | pollFreeunlock
  deriving DecidableEq, Repr

abbrev System := State Cache Pc

inductive Label
  | alloc (k : Nat)
  | register (k : Nat)
  | detach (k : Nat)
  | free (k : Nat)
  | wait (files : List Nat)
  | hup
  | run (k : Nat)
  deriving DecidableEq, Repr

def Label.goroutine : Label → Nat
  | .alloc k | .register k | .detach k | .free k | .run k => k
  | .wait _ | .hup => 0

def Cache.set (c : Cache) (op : Nat) (f : FDOperator → FDOperator) : Cache :=
  { c with ops := Function.update c.ops op (f (c.ops op)) }

@[simp] theorem Cache.set_ops_self (c : Cache) (op : Nat) (f : FDOperator → FDOperator) :
    (c.set op f).ops op = f (c.ops op) := by simp [Cache.set]

@[simp] theorem Cache.set_ops_of_ne (c : Cache) {i op : Nat} (f : FDOperator → FDOperator)
    (h : i ≠ op) : (c.set op f).ops i = c.ops i := by simp [Cache.set, h]

@[simp] theorem Cache.set_interest (c : Cache) (op : Nat) (f : FDOperator → FDOperator) :
    (c.set op f).interest = c.interest := rfl

def block4k : Nat := 4096

def growth (opSize : Nat) : Nat :=
  let n := block4k / opSize
  if n = 0 then 1 else n

def FDOperator.reset (op : FDOperator) : FDOperator :=
  { op with fd := 0, poll := false, detached := 0 }

/-- The next access of goroutine `k`; a spin loop that does not get through makes
none. -/
def next (opSize : Nat) (c : Cache) (k : Nat) : Pc → Option (Cache × Pc)
  | .idle => none
  | .allocLock => if c.locked.isSome then none else some ({ c with locked := some k }, .allocTest)
  | .allocTest =>
    if c.first = none then some (c, .allocGrow (growth opSize) c.cache.length)
    else some (c, .allocPop)
  | .allocGrow left index =>
    match left with
    | 0 => some (c, .allocPop)
    | left + 1 =>
      -- pd := &FDOperator{index: index}; pd.next = c.first; c.first = pd
      some ({ c with
        ops := Function.update c.ops c.cache.length ⟨0, false, 0, c.first, .unused, index⟩
        cache := c.cache ++ [c.cache.length]
        first := some c.cache.length }, .allocGrow left (index + 1))
  | .allocPop =>
    match c.first with
    | none => none
    | some op => some ({ c with first := (c.ops op).next }, .allocUnlock op)
  | .allocUnlock op => some ({ c with locked := none }, .allocPoll op)
  | .allocPoll op => some (c.set op fun o => { o with poll := true }, .setFd op)
  | .setFd op =>
    let file := c.files + 1
    some (Cache.set { c with files := file } op fun o => { o with fd := file }, .held op)
  | .held _ => none
  | .regCtl op => some (c, .regInuse (c.ops op).fd op)
  | .regInuse fd op =>
    match (c.ops op).state with
    | .unused => some (c.set op fun o => { o with state := .inuse }, .regAdd fd op)
    | .inuse => some (c, .regAdd fd op)
    | .doing => none
  | .regAdd fd op =>
    some ({ c with interest := Function.update c.interest fd (some op) }, .registered op)
  | .registered _ => none
  | .detAdd op =>
    some (c.set op fun o => { o with detached := o.detached + 1 },
      if 1 < (c.ops op).detached + 1 then .detached op else .detCtl op)
  | .detCtl op => some (c, .detDel (c.ops op).fd op)
  | .detDel fd op =>
    some ({ c with interest := Function.update c.interest fd none }, .detached op)
  | .detached _ => none
  | .freeUnused op =>
    match (c.ops op).state with
    | .inuse => some (c.set op fun o => { o with state := .unused }, .freeReset op)
    | .unused => some (c, .freeReset op)
    | .doing => none
  | .freeReset op => some (c.set op FDOperator.reset, .freeLock op)
  | .freeLock op =>
    if c.freelocked.isSome then none else some ({ c with freelocked := some k }, .freeAppend op)
  | .freeAppend op => some ({ c with freelist := c.freelist ++ [(c.ops op).index] }, .freeUnlock)
  | .freeUnlock => some ({ c with freelocked := none }, .idle)
  | .wait => none
  | .handle events =>
    match events with
    | [] => some (c, .pollFreelock)
    | e :: events =>
      if (c.ops e.op).state = .inuse then
        some (c.set e.op fun o => { o with state := .doing }, .doing e events)
      else some (c, .handle events)
  | .doing e events => some (c, .done e events)
  | .hupAdd e events =>
    some (c.set e.op fun o => { o with detached := o.detached + 1 },
      if 1 < (c.ops e.op).detached + 1 then .done e events else .hupCtl e events)
  | .hupCtl e events => some (c, .hupDel (c.ops e.op).fd e events)
  | .hupDel fd e events =>
    some ({ c with interest := Function.update c.interest fd none }, .done e events)
  | .done e events => some (c.set e.op fun o => { o with state := .inuse }, .handle events)
  | .pollFreelock =>
    if c.freelocked.isSome then none else some ({ c with freelocked := some k }, .pollTest)
  | .pollTest => some (c, if c.freelist.length = 0 then .pollFreeunlock else .pollLock)
  | .pollLock =>
    if c.locked.isSome then none
    else some ({ c with locked := some k }, .pollMove c.freelist)
  | .pollMove rest =>
    match rest with
    | [] => some (c, .pollClear)
    | idx :: rest =>
      match c.cache[idx]? with
      | none => none
      | some op =>
        some ({ c.set op fun o => { o with next := c.first } with first := some op },
          .pollMove rest)
  | .pollClear => some ({ c with freelist := [] }, .pollUnlock)
  | .pollUnlock => some ({ c with locked := none }, .pollFreeunlock)
  | .pollFreeunlock => some ({ c with freelocked := none }, .wait)

def Cache.events (c : Cache) (files : List Nat) : List Event :=
  files.filterMap fun file => (c.interest file).map (⟨·, file⟩)

def step (opSize : Nat) (s : System) : Label → Option System
  | .alloc k => if k ≠ 0 ∧ s.pc k = .idle then some (s.enter s.shared k .allocLock) else none
  | .register k =>
    match s.pc k with
    | .held op => some (s.enter s.shared k (.regCtl op))
    | _ => none
  | .detach k =>
    match s.pc k with
    | .registered op => some (s.enter s.shared k (.detAdd op))
    | _ => none
  | .free k =>
    match s.pc k with
    | .held op | .detached op => some (s.enter s.shared k (.freeUnused op))
    | _ => none
  | .wait files =>
    if s.pc 0 = .wait ∧ s.shared.events files ≠ [] then
      some (s.enter s.shared 0 (.handle (s.shared.events files)))
    else none
  | .hup =>
    match s.pc 0 with
    | .doing e events => some (s.enter s.shared 0 (.hupAdd e events))
    | _ => none
  | .run k => s.move (next opSize) k

def init : System where
  shared :=
    { ops := fun _ => ⟨0, false, 0, none, .unused, 0⟩, first := none, cache := [], locked := none,
      freelocked := none, freelist := [], interest := fun _ => none, files := 0 }
  pc := fun k => if k = 0 then .wait else .idle

end Netpoll.Poll
