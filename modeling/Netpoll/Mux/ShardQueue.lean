import Mathlib.Algebra.Ring.Int.Defs
import Mathlib.Algebra.Ring.Nat
import Netpoll.Lib.Transition
import Netpoll.Lib.Threads
import Netpoll.Lib.Slices

/-! `mux.ShardQueue`: callers of `Add` and `Close` and the tasks that `foreach`
starts, as goroutines that interleave one access at a time.  The counters are
`int32` words that wrap around; a getter is a value of an arbitrary type, and
calls of getters and flushes of the connection are kept in a log. -/

namespace Netpoll.Mux

open Netpoll.Lib.Threads Netpoll.Lib.Slices

inductive QueueState
  | active | closing | closed
  deriving DecidableEq, Repr

inductive Event (G : Type*)
  | invoke (shard : Nat) (g : G) | flush
  deriving DecidableEq, Repr

def addInt32 (x d : Int) : Int := (x + d).bmod (2 ^ 32)

structure Queue (G : Type*) where
  size : Nat
  idx : Int
  heap : Heap G
  getters : Nat → Slice
  swap : Slice
  /-- the goroutine that holds the lock of a shard, for the proofs: the code stores 1 -/
  locks : Nat → Option Nat
  trigger : Int
  state : QueueState
  runNum : Int
  w : Nat
  r : Nat
  list : Nat → Nat
  listLock : Option Nat
  accepted : Nat → List G
  log : List (Event G)
  adds : Nat

/-- Where a goroutine stands: the access it makes next.  The arguments `n` and `m`
are the worker's local variables `triggerNum` and `negNum`. -/
inductive Pc (G : Type*)
  | idle
  -- Add
  | addState (gts : List G) | addIdx (gts : List G) | addLock (shard : Nat) (gts : List G)
  | addLen (shard : Nat) (gts : List G) | addAppend (shard : Nat) (trigger : Bool) (gts : List G)
  | addUnlock (shard : Nat) (trigger : Bool)
  -- an index that is out of range panics
  | outOfRange
  -- triggering
  | listLock (shard : Nat) | listWrite (shard : Nat) | listUnlock | trigger
  -- foreach up to RunTask
  | foreach
  -- the task of foreach
  | load | read (n m : Int) | swapLock (shard : Nat) (n m : Int) | swap (shard : Nat) (n m : Int)
  | swapUnlock (shard : Nat) (n m : Int) | deal (shard : Nat) (gts : Slice) (i : Nat) (n m : Int)
  | sub (m : Int) | flush | stop | recheck | closed
  -- Close
  | closeCas | closeLoop | closeTrigger | closeStore | closeReturned (ok : Bool)
  deriving DecidableEq, Repr

variable {G : Type*}

abbrev System (G : Type*) := State (Queue G) (Pc G)

inductive Label (G : Type*)
  | add (k : Nat) (gts : List G)
  | close (k : Nat)
  | run (k j : Nat)
  deriving DecidableEq, Repr

/-- The getters of a shard that a log calls, in order. -/
def called (log : List (Event G)) (shard : Nat) : List G :=
  log.filterMap fun
    | .invoke i g => if i = shard then some g else none
    | .flush => none

namespace Queue

def invoked (q : Queue G) (shard : Nat) : List G := called q.log shard

/-- The shard of an `Add` whose increment gave `idx`: Go's remainder. -/
def shard (q : Queue G) (idx : Int) : Int := idx.tmod q.size

end Queue

def loop (n m : Int) : Pc G := if 0 < n then .read n m else .flush

def next (grow : Nat → Nat → Nat) (q : Queue G) (k _j : Nat) : Pc G → Option (Move (Queue G) (Pc G))
  | .idle | .outOfRange => none
  | .addState gts => some ⟨q, if q.state = .active then .addIdx gts else .idle, none⟩
  | .addIdx gts =>
    let idx := addInt32 q.idx 1
    some ⟨{ q with idx },
      if q.shard idx < 0 then .outOfRange else .addLock (q.shard idx).toNat gts, none⟩
  | .addLock i gts =>
    if (q.locks i).isSome then none
    else some ⟨{ q with locks := Function.update q.locks i (some k) }, .addLen i gts, none⟩
  | .addLen i gts => some ⟨q, .addAppend i ((q.getters i).len == 0) gts, none⟩
  | .addAppend i trigger gts =>
    let (heap, s) := q.heap.append grow (q.getters i) gts
    some ⟨{ q with
        heap, getters := Function.update q.getters i s
        accepted := Function.update q.accepted i (q.accepted i ++ gts) },
      .addUnlock i trigger, none⟩
  | .addUnlock i trigger =>
    some ⟨{ q with locks := Function.update q.locks i none },
      if trigger then .listLock i else .idle, none⟩
  | .listLock i =>
    if q.listLock.isSome then none else some ⟨{ q with listLock := some k }, .listWrite i, none⟩
  | .listWrite i =>
    let w := (q.w + 1) % q.size
    some ⟨{ q with w, list := Function.update q.list w i }, .listUnlock, none⟩
  | .listUnlock => some ⟨{ q with listLock := none }, .trigger, none⟩
  | .trigger =>
    let trigger := addInt32 q.trigger 1
    some ⟨{ q with trigger }, if 1 < trigger then .idle else .foreach, none⟩
  | .foreach =>
    let runNum := addInt32 q.runNum 1
    some ⟨{ q with runNum }, .idle, if 1 < runNum then none else some .load⟩
  | .load => some ⟨q, loop q.trigger 0, none⟩
  | .read n m =>
    let r := (q.r + 1) % q.size
    some ⟨{ q with r }, .swapLock (q.list r) n m, none⟩
  | .swapLock i n m =>
    if (q.locks i).isSome then none
    else some ⟨{ q with locks := Function.update q.locks i (some k) }, .swap i n m, none⟩
  | .swap i n m =>
    -- the shard goes on with the array of the last batch
    some ⟨{ q with getters := Function.update q.getters i q.swap.reset, swap := q.getters i },
      .swapUnlock i n m, none⟩
  | .swapUnlock i n m =>
    some ⟨{ q with locks := Function.update q.locks i none }, .deal i q.swap 0 n m, none⟩
  | .deal i gts t n m =>
    match (q.heap.view gts)[t]? with
    | some g => some ⟨{ q with log := q.log ++ [.invoke i g] }, .deal i gts (t + 1) n m, none⟩
    | none =>
      let m := addInt32 m (-1)
      some ⟨q, if addInt32 n m = 0 then .sub m else loop n m, none⟩
  | .sub m =>
    let trigger := addInt32 q.trigger m
    some ⟨{ q with trigger }, loop trigger 0, none⟩
  | .flush => some ⟨{ q with log := q.log ++ [.flush] }, .stop, none⟩
  | .stop => some ⟨{ q with runNum := 0 }, .recheck, none⟩
  | .recheck => some ⟨q, if 0 < q.trigger then .foreach else .closed, none⟩
  | .closed =>
    some ⟨if q.state = .closing then { q with state := .closed } else q, .idle, none⟩
  | .closeCas =>
    if q.state = .active then some ⟨{ q with state := .closing }, .closeLoop, none⟩
    else some ⟨q, .closeReturned false, none⟩
  | .closeLoop => some ⟨q, if q.state = .closed then .closeReturned true else .closeTrigger, none⟩
  | .closeTrigger => some ⟨q, if q.trigger = 0 then .closeStore else .closeLoop, none⟩
  | .closeStore => some ⟨{ q with state := .closed }, .closeReturned true, none⟩
  | .closeReturned _ => some ⟨q, .idle, none⟩

def step [DecidableEq G] (grow : Nat → Nat → Nat) (s : System G) : Label G → Option (System G)
  | .add k gts =>
    if s.pc k = .idle then
      some (s.enter { s.shared with adds := s.shared.adds + 1 } k (.addState gts))
    else none
  | .close k => if s.pc k = .idle then some (s.enter s.shared k .closeCas) else none
  | .run k j => s.run .idle 0 (next grow) k j

def newShardQueue (size : Nat) : Queue G where
  size := size
  idx := 0
  heap := ⟨fun _ => [], fun _ => 64, size + 1⟩
  getters := fun i => ⟨i, 0⟩
  swap := ⟨size, 0⟩
  locks := fun _ => none
  trigger := 0
  state := .active
  runNum := 0
  w := 0
  r := 0
  list := fun _ => 0
  listLock := none
  accepted := fun _ => []
  log := []
  adds := 0

def init (size : Nat) : System G := ⟨newShardQueue size, fun _ => .idle⟩

end Netpoll.Mux
