import Netpoll.Lib.Memory
import Mathlib.Logic.Function.Basic

/-! Memory and nodes of `LinkBuffer`: byte slices over blocks, `malloc` and `free`
over mcache, `linkBufferNode` and its pool.  A function is `none` where the Go
code would panic (a nil pointer, a slice bound) or would give mcache a block
that it has already, or a part of one. -/

namespace Netpoll.Nocopy

open Netpoll.Lib.Memory

def block1k : Nat := 1024
def block4k : Nat := 4096
def pagesize : Nat := 8192
def mallocMax : Nat := 8192 * 1024
def minReuseBytes : Nat := 64
def binaryInplaceThreshold : Nat := block4k

structure Config where
  linkBufferCap : Nat
  alwaysNoCopyRead : Bool

/-- A Go slice: `len` bytes from position `off` of a block, with room for `cap`. -/
structure Slice where
  blk : Nat
  off : Nat
  len : Nat
  cap : Nat
  deriving DecidableEq, Repr

protected def Slice.nil : Slice := ⟨0, 0, 0, 0⟩

def Slice.upto (s : Slice) (j : Nat) : Option Slice :=
  if j ≤ s.cap then some { s with len := j } else none

def Slice.cut (s : Slice) (i j : Nat) : Option Slice :=
  if i ≤ j ∧ j ≤ s.cap then some ⟨s.blk, s.off + i, j - i, j - i⟩ else none

def Slice.after (s : Slice) (i : Nat) : Option Slice :=
  if i ≤ s.len then some ⟨s.blk, s.off + i, s.len - i, s.cap - i⟩ else none

/-- Who has a block: mcache, a caller of `mcache.Malloc`, the garbage collector, or a user of the
buffers who lends it to them. -/
inductive Owner
  | mcache | user | gc | lent
  deriving DecidableEq, Repr

@[ext] structure Node where
  buf : Slice := .nil
  off : Nat := 0
  malloc : Nat := 0
  refer : Int := 1
  readonly : Bool := false
  nocopyRead : Bool := false
  origin : Option Nat := none
  next : Option Nat := none
  deriving DecidableEq, Repr

def Node.len (node : Node) : Nat := node.buf.len - node.off

def Node.reusable (node : Node) : Bool := !node.readonly && !node.nocopyRead

def Node.renewed (node : Node) : Node :=
  { node with off := 0, malloc := 0, refer := 1, readonly := false, nocopyRead := false }

def Node.unref (node : Node) : Node := { node with refer := node.refer - 1 }

def Node.cleared (node : Node) : Node := { node with buf := .nil, origin := none, next := none }

structure Heap where
  nodes : Nat → Node
  fresh : Nat
  linkedPool : List Nat
  mem : Nat → Nat → UInt8
  owner : Nat → Owner
  top : Nat
  freed : List Nat
  /-- what `linkedPool.Get` and `mcache.Malloc` will pick -/
  picks : Nat → Nat

namespace Heap

def pick (h : Heap) : Nat × Heap := (h.picks 0, { h with picks := fun i => h.picks (i + 1) })

def set (h : Heap) (i : Nat) (node : Node) : Heap :=
  { h with nodes := Function.update h.nodes i node }

def link (h : Heap) (i : Nat) (next : Option Nat) : Heap :=
  h.set i { h.nodes i with next := next }

def mark (h : Heap) (i : Nat) : Heap :=
  h.set i { h.nodes i with nocopyRead := true }

def bytes (h : Heap) (s : Slice) : List UInt8 := load h.mem s.blk s.off s.len

def copy (h : Heap) (dst : Slice) (bs : List UInt8) : Heap :=
  { h with mem := store h.mem dst.blk dst.off (bs.take dst.len) }

def take (h : Heap) (blk : Nat) (o : Owner) : Heap :=
  { h with owner := Function.update h.owner blk o, top := max h.top (blk + 1) }

def dirtmake (h : Heap) (size capacity : Nat) : Slice × Heap :=
  (⟨h.top, 0, size, capacity⟩, h.take h.top .gc)

/-- `mcache.Malloc(size, capacity)`: any block that is not out, dirty, with a
capacity of at least `capacity` -/
def mcacheMalloc (h : Heap) (size capacity : Nat) : Slice × Heap :=
  let (c, h) := h.pick
  let (extra, h) := h.pick
  let blk := if h.owner c = .mcache then c else h.top
  (⟨blk, 0, size, capacity + extra⟩, h.take blk .user)

def malloc (h : Heap) (size capacity : Nat) : Slice × Heap :=
  if capacity > mallocMax then h.dirtmake size capacity else h.mcacheMalloc size capacity

def free (h : Heap) (buf : Slice) : Option Heap :=
  -- mcache takes nothing back without a capacity
  if buf.cap = 0 then some h
  else
    let h := { h with freed := buf.blk :: h.freed }
    if buf.cap > mallocMax then some h
    else if h.owner buf.blk ≠ .mcache ∧ buf.off = 0 then
      some { h with owner := Function.update h.owner buf.blk .mcache }
    else none

def append (h : Heap) (p : Slice) (bs : List UInt8) : Slice × Heap :=
  let len := p.len + bs.length
  if len ≤ p.cap then
    ({ p with len := len }, { h with mem := store h.mem p.blk (p.off + p.len) bs })
  else
    let (q, h') := h.dirtmake len len
    (q, h'.copy q (h.bytes p ++ bs))

def freeAll : Heap → List Slice → Option Heap
  | h, [] => some h
  | h, s :: ss => (h.free s).bind (freeAll · ss)

def poolGet (h : Heap) : Nat × Heap :=
  let (c, h) := h.pick
  match h.linkedPool[c]? with
  | some i => (i, { h with linkedPool := h.linkedPool.eraseIdx c })
  | none => (h.fresh, { h.set h.fresh {} with fresh := h.fresh + 1 })

def newLinkBufferNode (h : Heap) (cfg : Config) (size : Int) : Nat × Heap :=
  let (i, h) := h.poolGet
  let node := (h.nodes i).renewed
  if size ≤ 0 then
    (i, h.set i { node with readonly := true })
  else
    let (buf, h) := h.malloc 0 (max size.toNat cfg.linkBufferCap)
    (i, h.set i { node with buf := buf })

def nodeNext (h : Heap) (i n : Nat) : Option (Slice × Heap) := do
  let node := h.nodes i
  let p ← node.buf.cut node.off (node.off + n)
  return (p, h.set i { node with off := node.off + n })

def nodePeek (h : Heap) (i n : Nat) : Option Slice :=
  let node := h.nodes i
  node.buf.cut node.off (node.off + n)

def nodeMalloc (h : Heap) (i n : Nat) : Option (Slice × Heap) := do
  let node := h.nodes i
  let p ← node.buf.cut node.malloc (node.malloc + n)
  return (p, h.set i { node with malloc := node.malloc + n })

def nodeRefer (h : Heap) (cfg : Config) (i n : Nat) : Option (Nat × Heap) := do
  let (j, h) := h.newLinkBufferNode cfg 0
  let (buf, h) ← h.nodeNext i n
  let origin := (h.nodes i).origin.getD i
  let h := h.set j { h.nodes j with buf := buf, origin := some origin }
  let root := h.nodes origin
  return (j, h.set origin { root with refer := root.refer + 1 })

def put (h : Heap) (i : Nat) (node : Node) : Heap :=
  { h.set i node with linkedPool := i :: h.linkedPool }

def drop (h : Heap) (i : Nat) : Option Heap :=
  let node := (h.nodes i).unref
  let h := h.set i node
  if node.refer = 0 then
    (if node.reusable then h.free node.buf else some h).map (·.put i node.cleared)
  else some h

/-- `node.Release()`.  The argument bounds the depth of the chain of origins. -/
def nodeRelease : Nat → Heap → Nat → Option Heap
  | 0, _, _ => none
  | depth + 1, h, i =>
    match (h.nodes i).origin with
    | none => h.drop i
    | some r => (nodeRelease depth h r).bind (·.drop i)

def release (h : Heap) (i : Nat) : Option Heap := nodeRelease (h.fresh + 1) h i

def releaseTo : Nat → Heap → Option Nat → Option Nat → Option Heap
  | 0, _, _, _ => none
  | fuel + 1, h, stop, head =>
    if head = stop then some h else do
      let i ← head
      let h' ← h.release i
      releaseTo fuel h' stop (h.nodes i).next

end Heap

end Netpoll.Nocopy
