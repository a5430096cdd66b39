import Netpoll.Nocopy.Heap

/-! `UnsafeLinkBuffer`.  Pointers to nodes are positions in the heap, `nil` is
`none`.  Each loop gets the number of nodes made so far as a bound on its steps:
a chain cannot be longer. -/

namespace Netpoll.Nocopy

structure LinkBuffer where
  length : Int := 0
  mallocSize : Int := 0
  head : Option Nat := none
  read : Option Nat := none
  flush : Option Nat := none
  write : Option Nat := none
  caches : List Slice := []
  cachePeek : Option Slice := none
  deriving DecidableEq, Repr

def newLinkBuffer (h : Heap) (cfg : Config) (size : Int) : LinkBuffer × Heap :=
  let (i, h) := h.newLinkBufferNode cfg size
  ({ head := some i, read := some i, flush := some i, write := some i }, h)

namespace LinkBuffer

abbrev Result (α : Type) := Except String α × LinkBuffer × Heap

def recalLen (b : LinkBuffer) (delta : Int) : LinkBuffer :=
  { b with
    length := b.length + delta
    cachePeek :=
      if delta < 0 then b.cachePeek.map fun p => { p with len := 0 } else b.cachePeek }

def skipEmpty (h : Heap) (flush : Option Nat) : Nat → Option Nat → Option (Option Nat)
  | 0, _ => none
  | fuel + 1, read => do
    let i ← read
    if (h.nodes i).len = 0 ∧ read ≠ flush then skipEmpty h flush fuel (h.nodes i).next
    else return read

def isSingleNode (b : LinkBuffer) (h : Heap) (readN : Nat) : Option (Bool × LinkBuffer) :=
  if readN = 0 then some (true, b) else do
    let read ← skipEmpty h b.flush (h.fresh + 1) b.read
    let i ← read
    return (decide (readN ≤ (h.nodes i).len), { b with read := read })

def single (b : LinkBuffer) (h : Heap) (readN : Nat) : Bool := (b.isSingleNode h readN).any (·.1)

def growth (cfg : Config) (n : Nat) : Nat → LinkBuffer → Heap → Option (LinkBuffer × Heap)
  | 0, _, _ => none
  | fuel + 1, b, h => do
    let i ← b.write
    let node := h.nodes i
    if node.readonly ∨ node.buf.cap - node.malloc < n then
      match node.next with
      | none =>
        let (j, h) := h.newLinkBufferNode cfg n
        return ({ b with write := some j }, h.link i (some j))
      | some j => growth cfg n fuel { b with write := some j } h
    else return (b, h)

def addTail (b : LinkBuffer) (h : Heap) (cfg : Config) (size : Int) :
    Option (Nat × LinkBuffer × Heap) := do
  let i ← b.write
  let (j, h) := h.newLinkBufferNode cfg size
  return (j, { b with write := some j }, h.link i (some j))

/-- Copy `ack` bytes from the nodes at `read` on into `dst`: the loop that `Next`
and `readBinary` share. -/
def gather : Nat → Heap → Option Nat → Slice → Nat → Option (Option Nat × Heap)
  | 0, _, _, _, _ => none
  | fuel + 1, h, read, dst, ack =>
    if ack = 0 then some (read, h) else do
      let i ← read
      let l := (h.nodes i).len
      if ack ≤ l then
        let (q, h) ← h.nodeNext i ack
        return (read, h.copy dst (h.bytes q))
      else if 0 < l then
        let (q, h) ← h.nodeNext i l
        let dst' ← dst.after l
        gather fuel (h.copy dst (h.bytes q)) (h.nodes i).next dst' (ack - l)
      else gather fuel h (h.nodes i).next dst ack

def takeNext (b : LinkBuffer) (h : Heap) (n : Nat) : Option (Slice × LinkBuffer × Heap) := do
  let b := b.recalLen (-n)
  let (single, b) ← b.isSingleNode h n
  if single then
    let i ← b.read
    let (p, h) ← h.nodeNext i n
    return (p, b, h)
  else if block1k < n ∧ n ≤ mallocMax then
    let (p, h) := h.malloc n n
    let (read, h) ← gather (h.fresh + 1) h b.read p n
    return (p, { b with read := read, caches := b.caches ++ [p] }, h)
  else
    let (p, h) := h.dirtmake n n
    let (read, h) ← gather (h.fresh + 1) h b.read p n
    return (p, { b with read := read }, h)

def next (b : LinkBuffer) (h : Heap) (n : Int) : Option (Result Slice) :=
  if n ≤ 0 then some (.ok .nil, b, h)
  else if b.length < n then some (.error s!"link buffer next[{n}] not enough", b, h)
  else (b.takeNext h n.toNat).map fun (p, b, h) => (.ok p, b, h)

def peekLoop (n : Nat) : Nat → Heap → Nat → Option Nat → Slice → Option (Slice × Heap)
  | 0, _, _, _, _ => none
  | fuel + 1, h, scanned, node, p =>
    if n ≤ p.len then some (p, h) else do
      let i ← node
      let l := (h.nodes i).len
      if scanned + l ≤ p.len then peekLoop n fuel h (scanned + l) (h.nodes i).next p
      else
        let start := p.len - scanned
        let copyn := min (n - p.len) (l - start)
        let q ← h.nodePeek i l
        let q ← q.cut start (start + copyn)
        let (p, h) := h.append p (h.bytes q)
        peekLoop n fuel h (scanned + l) (h.nodes i).next p

def peekCache (b : LinkBuffer) (h : Heap) (n : Nat) : Option (Slice × Heap) :=
  match b.cachePeek with
  | some p =>
    if p.cap < n then do
      let h ← h.free p
      return h.malloc 0 n
    else some (p, h)
  | none => some (h.malloc 0 n)

def takePeek (b : LinkBuffer) (h : Heap) (n : Nat) : Option (Slice × LinkBuffer × Heap) := do
  let (single, b) ← b.isSingleNode h n
  if single then
    let i ← b.read
    let p ← h.nodePeek i n
    return (p, b, h)
  else
    let (p, h) ← b.peekCache h n
    let (p, h) ← peekLoop n (h.fresh + 1) h 0 b.read p
    let q ← p.upto n
    return (q, { b with cachePeek := some p }, h)

def peek (b : LinkBuffer) (h : Heap) (n : Int) : Option (Result Slice) :=
  if n ≤ 0 then some (.ok .nil, b, h)
  else if b.length < n then some (.error s!"link buffer peek[{n}] not enough", b, h)
  else (b.takePeek h n.toNat).map fun (p, b, h) => (.ok p, b, h)

def skipLoop : Nat → Heap → Option Nat → Nat → Option (Option Nat × Heap)
  | 0, _, _, _ => none
  | fuel + 1, h, read, ack =>
    if ack = 0 then some (read, h) else do
      let i ← read
      let node := h.nodes i
      if ack ≤ node.len then return (read, h.set i { node with off := node.off + ack })
      else skipLoop fuel h node.next (ack - node.len)

def skip (b : LinkBuffer) (h : Heap) (n : Int) : Option (Result Unit) :=
  if n ≤ 0 then some (.ok (), b, h)
  else if b.length < n then some (.error s!"link buffer skip[{n}] not enough", b, h)
  else do
    let b := b.recalLen (-n)
    let (read, h) ← skipLoop (h.fresh + 1) h b.read n.toNat
    return (.ok (), { b with read := read }, h)

def skipRead (h : Heap) (flush : Option Nat) : Nat → Option Nat → Option (Option Nat)
  | 0, _ => none
  | fuel + 1, read =>
    if read = flush then some read else do
      let i ← read
      if (h.nodes i).len = 0 then skipRead h flush fuel (h.nodes i).next else return read

def release (b : LinkBuffer) (h : Heap) : Option (LinkBuffer × Heap) := do
  let read ← skipRead h b.flush (h.fresh + 1) b.read
  let h ← h.releaseTo (h.fresh + 1) read b.head
  let h ← h.freeAll b.caches
  let h ← h.freeAll b.cachePeek.toList
  return ({ b with read := read, head := read, caches := [], cachePeek := none }, h)

def readBinaryN (b : LinkBuffer) (h : Heap) (cfg : Config) (n : Nat) :
    Option (Slice × LinkBuffer × Heap) := do
  let b := b.recalLen (-n)
  let (single, b) ← b.isSingleNode h n
  if single then
    let i ← b.read
    let node := h.nodes i
    if !node.readonly && node.nocopyRead then
      let (p, h) ← h.nodeNext i n
      return (p, b, h)
    else if !node.readonly && cfg.alwaysNoCopyRead && decide (minReuseBytes ≤ n) then
      let (p, h) ← (h.mark i).nodeNext i n
      return (p, b, h)
    else
      let (p, h) := h.dirtmake n n
      let (q, h) ← h.nodeNext i n
      return (p, b, h.copy p (h.bytes q))
  else
    let (p, h) := h.dirtmake n n
    let (read, h) ← gather (h.fresh + 1) h b.read p n
    return (p, { b with read := read }, h)

def readString (b : LinkBuffer) (h : Heap) (cfg : Config) (n : Int) : Option (Result Slice) :=
  if n ≤ 0 then some (.ok .nil, b, h)
  else if b.length < n then some (.error s!"link buffer read string[{n}] not enough", b, h)
  else (b.readBinaryN h cfg n.toNat).map fun (p, b, h) => (.ok p, b, h)

def readBinary (b : LinkBuffer) (h : Heap) (cfg : Config) (n : Int) : Option (Result Slice) :=
  if n ≤ 0 then some (.ok .nil, b, h)
  else if b.length < n then some (.error s!"link buffer read binary[{n}] not enough", b, h)
  else (b.readBinaryN h cfg n.toNat).map fun (p, b, h) => (.ok p, b, h)

def readByteLoop (h : Heap) : Nat → Option Nat → Option (Slice × Option Nat × Heap)
  | 0, _ => none
  | fuel + 1, read => do
    let i ← read
    if 1 ≤ (h.nodes i).len then
      let (p, h) ← h.nodeNext i 1
      return (p, read, h)
    else readByteLoop h fuel (h.nodes i).next

def readByte (b : LinkBuffer) (h : Heap) : Option (Result UInt8) :=
  if b.length < 1 then some (.error "link buffer read byte is empty", b, h)
  else do
    let b := b.recalLen (-1)
    let (p, read, h) ← readByteLoop h (h.fresh + 1) b.read
    let c ← (h.bytes p)[0]?
    return (.ok c, { b with read := read }, h)

def indexLoop (h : Heap) (c : UInt8) (size : Nat) :
    Nat → Nat → Nat → Option Nat → Option (Option Nat)
  | 0, _, _, _ => none
  | fuel + 1, unread, skip, node =>
    if unread = 0 then some none else do
      let i ← node
      let l := (h.nodes i).len
      let n := if unread ≤ l then unread else l
      if n ≤ skip then indexLoop h c size fuel (unread - n) (skip - n) (h.nodes i).next
      else
        let q ← h.nodePeek i n
        match ((h.bytes q).drop skip).idxOf? c with
        | some k => return some (size - unread + skip + k)
        | none => indexLoop h c size fuel (unread - n) 0 (h.nodes i).next

def indexByte (b : LinkBuffer) (h : Heap) (c : UInt8) (skip : Nat) : Option (Option Nat) :=
  if b.length ≤ skip then some none
  else indexLoop h c b.length.toNat (h.fresh + 1) b.length.toNat skip b.read

def readUntil (b : LinkBuffer) (h : Heap) (delim : UInt8) : Option (Result Slice) := do
  match ← b.indexByte h delim 0 with
  | none => return (.error "link buffer read slice cannot find delim", b, h)
  | some n => b.next h (n + 1)

def sliceLoop (cfg : Config) :
    Nat → Heap → Option Nat → Nat → Nat → Option (Option Nat × Nat × Heap)
  | 0, _, _, _, _ => none
  | fuel + 1, h, read, tail, ack =>
    if ack = 0 then some (read, tail, h) else do
      let i ← read
      let l := (h.nodes i).len
      if ack ≤ l then
        let (j, h) ← h.nodeRefer cfg i ack
        return (read, j, h.link tail (some j))
      else if 0 < l then
        let (j, h) ← h.nodeRefer cfg i l
        let h := h.link tail (some j)
        sliceLoop cfg fuel h (h.nodes i).next j (ack - l)
      else sliceLoop cfg fuel h (h.nodes i).next tail ack

def takeSlice (b : LinkBuffer) (h : Heap) (cfg : Config) (n : Nat) :
    Option (LinkBuffer × LinkBuffer × Heap) := do
  let b := b.recalLen (-n)
  let (single, b) ← b.isSingleNode h n
  let i ← b.read
  if single then
    let (j, h) ← h.nodeRefer cfg i n
    let flush := (h.nodes j).next
    return ({ length := n, head := some j, read := some j, flush := flush, write := flush }, b, h)
  else
    let l := (h.nodes i).len
    let (j, h) ← h.nodeRefer cfg i l
    let (read, tail, h) ← sliceLoop cfg (h.fresh + 1) h (h.nodes i).next j (n - l)
    let (b, h) ← { b with read := read }.release h
    let flush := (h.nodes tail).next
    return ({ length := n, head := some j, read := some j, flush := flush, write := flush }, b, h)

def slice (b : LinkBuffer) (h : Heap) (cfg : Config) (n : Int) : Option (Result LinkBuffer) :=
  if n ≤ 0 then
    let (r, h) := newLinkBuffer h cfg 0
    some (.ok r, b, h)
  else if b.length < n then some (.error s!"link buffer readv[{n}] not enough", b, h)
  else (b.takeSlice h cfg n.toNat).map fun (r, b, h) => (.ok r, b, h)

def malloc (b : LinkBuffer) (h : Heap) (cfg : Config) (n : Int) :
    Option (Slice × LinkBuffer × Heap) :=
  if n ≤ 0 then some (.nil, b, h) else do
    let b := { b with mallocSize := b.mallocSize + n }
    let (b, h) ← growth cfg n.toNat (h.fresh + 1) b h
    let i ← b.write
    let (p, h) ← h.nodeMalloc i n.toNat
    return (p, b, h)

def ackLoop : Nat → Heap → Option Nat → Nat → Option (Option Nat × Heap)
  | 0, _, _, _ => none
  | fuel + 1, h, write, ack =>
    if ack = 0 then some (write, h) else do
      let i ← write
      let node := h.nodes i
      let l := node.malloc - node.buf.len
      if ack ≤ l then return (write, h.set i { node with malloc := ack + node.buf.len })
      else ackLoop fuel h node.next (ack - l)

def discard : Nat → Heap → Option Nat → Option Heap
  | 0, _, _ => none
  | _ + 1, h, none => some h
  | fuel + 1, h, some i =>
    let node := h.nodes i
    discard fuel
      (h.set i { node with off := 0, malloc := 0, refer := 1, buf := { node.buf with len := 0 } })
      node.next

def mallocAck (b : LinkBuffer) (h : Heap) (n : Int) : Option (Result Unit) :=
  if n < 0 then some (.error s!"link buffer malloc ack[{n}] invalid", b, h) else do
    let (write, h) ← ackLoop (h.fresh + 1) h b.flush n.toNat
    let i ← write
    let h ← discard (h.fresh + 1) h (h.nodes i).next
    return (.ok (), { b with mallocSize := n, write := write }, h)

def flushLoop (stop : Option Nat) : Nat → Heap → Option Nat → Nat → Option (Nat × Heap)
  | 0, _, _, _ => none
  | fuel + 1, h, node, n =>
    if node = stop then some (n, h) else do
      let i ← node
      let nd := h.nodes i
      if nd.buf.len < nd.malloc then
        let buf ← nd.buf.upto nd.malloc
        flushLoop stop fuel (h.set i { nd with buf := buf }) nd.next (n + (nd.malloc - nd.buf.len))
      else flushLoop stop fuel h nd.next n

def flushTail (b : LinkBuffer) (h : Heap) (cfg : Config) : Option (LinkBuffer × Heap) := do
  let i ← b.write
  if pagesize < (h.nodes i).buf.cap then
    let (_, b, h) ← b.addTail h cfg 0
    return (b, h)
  else return (b, h)

def doFlush (b : LinkBuffer) (h : Heap) (cfg : Config) : Option (LinkBuffer × Heap) := do
  let b := { b with mallocSize := 0 }
  let (b, h) ← b.flushTail h cfg
  let i ← b.write
  let (n, h) ← flushLoop (h.nodes i).next (h.fresh + 1) h b.flush 0
  return ({ b with flush := b.write }.recalLen n, h)

/-- `b.WriteBuffer(buf)`, and what it leaves of `buf` -/
def writeBuffer (b buf : LinkBuffer) (h : Heap) : Option (LinkBuffer × LinkBuffer × Heap) :=
  if buf.length + buf.mallocSize ≤ 0 then some (b, buf, h) else do
    let i ← b.write
    let h := h.link i buf.read
    let h ← h.releaseTo (h.fresh + 1) buf.read buf.head
    let j ← buf.write
    let h ← h.releaseTo (h.fresh + 1) none (h.nodes j).next
    let h := h.link j none
    let b := { b with write := some j }
    let b := if 0 < buf.length then b.recalLen buf.length else b
    return ({ b with mallocSize := b.mallocSize + buf.mallocSize },
      { caches := buf.caches, cachePeek := buf.cachePeek }, h)

def writeBinary (b : LinkBuffer) (h : Heap) (cfg : Config) (p : Slice) :
    Option (Nat × LinkBuffer × Heap) :=
  if p.len = 0 then some (0, b, h) else do
    let b := { b with mallocSize := b.mallocSize + p.len }
    if binaryInplaceThreshold < p.len then
      let (j, b, h) ← b.addTail h cfg 0
      return (p.len, b, h.set j { h.nodes j with buf := { p with len := 0 }, malloc := p.len })
    else
      let (b, h) ← growth cfg p.len (h.fresh + 1) b h
      let i ← b.write
      let (buf, h) ← h.nodeMalloc i p.len
      return (min buf.len p.len, b, h.copy buf (h.bytes p))

def writeString (b : LinkBuffer) (h : Heap) (cfg : Config) (s : Slice) :
    Option (Nat × LinkBuffer × Heap) :=
  if s.len = 0 then some (0, b, h) else b.writeBinary h cfg s

/-- The loop of `WriteDirect` that looks for the node to cut: `ack` more bytes that wait for the
flush stand before the cut. -/
def cutLoop : Nat → Heap → Option Nat → Int → Option (Nat × Int)
  | 0, _, _, _ => none
  | fuel + 1, h, origin, ack => do
    let i ← origin
    let node := h.nodes i
    let t : Int := node.malloc - node.buf.len
    if t < ack then cutLoop fuel h node.next (ack - t) else return (i, ack)

def lastLoop (h : Heap) : Nat → Option Nat → Option (Option Nat)
  | 0, _ => none
  | fuel + 1, write => do
    let i ← write
    match (h.nodes i).next with
    | none => return write
    | some j => lastLoop h fuel (some j)

def split (h : Heap) (cfg : Config) (i dataNode cut : Nat) : Option Heap := do
  let (j, h) := h.newLinkBufferNode cfg 0
  let origin := h.nodes i
  let buf ← origin.buf.upto cut
  let h := h.set j
    { h.nodes j with off := cut, buf := buf, malloc := origin.malloc, readonly := false }
  let h := h.set i { h.nodes i with malloc := cut, readonly := true }
  let h := h.link dataNode (some j)
  let h := h.link j (h.nodes i).next
  return h.link i (some dataNode)

def insert (h : Heap) (i dataNode : Nat) : Heap :=
  (h.link dataNode (h.nodes i).next).link i (some dataNode)

def writeDirect (b : LinkBuffer) (h : Heap) (cfg : Config) (extra : Slice) (remainLen : Int) :
    Option (LinkBuffer × Heap) :=
  if extra.len = 0 ∨ remainLen < 0 then some (b, h) else do
    let (i, ack) ← cutLoop (h.fresh + 1) h b.flush (b.mallocSize - remainLen)
    let cut := ack + (h.nodes i).buf.len
    let (dataNode, h) := h.newLinkBufferNode cfg 0
    let h := h.set dataNode
      { h.nodes dataNode with buf := { extra with len := 0 }, malloc := extra.len }
    let h ←
      if 0 < remainLen then
        if cut < 0 then none else split h cfg i dataNode cut.toNat
      else some (insert h i dataNode)
    let write ← lastLoop h (h.fresh + 1) b.write
    return ({ b with write := write, mallocSize := b.mallocSize + extra.len }, h)

def writeByte (b : LinkBuffer) (h : Heap) (cfg : Config) (p : UInt8) :
    Option (LinkBuffer × Heap) := do
  let (dst, b, h) ← b.malloc h cfg 1
  return (b, if dst.len = 1 then h.copy dst [p] else h)

def close (b : LinkBuffer) (h : Heap) : Option (LinkBuffer × Heap) := do
  let b := { b with length := 0, mallocSize := 0 }
  let (b, h) ← b.release h
  let h ← h.releaseTo (h.fresh + 1) none b.head
  return ({ b with head := none, read := none, flush := none, write := none }, h)

def bytesLoop (h : Heap) (flush : Option Nat) (size : Nat) :
    Nat → Option Nat → List UInt8 → Option (List UInt8)
  | 0, _, _ => none
  | fuel + 1, node, p =>
    if node = flush then do
      let i ← flush
      let v ← (h.nodes i).buf.after (h.nodes i).off
      return p ++ (h.bytes v).take (size - p.length)
    else do
      let i ← node
      let nd := h.nodes i
      if 0 < nd.len then
        let v ← nd.buf.after nd.off
        bytesLoop h flush size fuel nd.next (p ++ (h.bytes v).take (size - p.length))
      else bytesLoop h flush size fuel nd.next p

def bytes (b : LinkBuffer) (h : Heap) : Option (List UInt8) :=
  if b.read = b.flush then do
    let i ← b.read
    let v ← (h.nodes i).buf.after (h.nodes i).off
    return h.bytes v
  else if b.length < 0 then none
  else bytesLoop h b.flush b.length.toNat (h.fresh + 1) b.read []

def getBytesLoop (h : Heap) (flush : Option Nat) :
    Nat → Option Nat → Nat → List Slice → Option (List Slice)
  | 0, _, _, _ => none
  | fuel + 1, node, room, vs =>
    if node ≠ flush ∧ vs.length < room then do
      let i ← node
      let nd := h.nodes i
      if 0 < nd.len then
        let v ← nd.buf.after nd.off
        getBytesLoop h flush fuel nd.next room (vs ++ [v])
      else getBytesLoop h flush fuel nd.next room vs
    else if vs.length < room then do
      let i ← flush
      let nd := h.nodes i
      let v ← nd.buf.after nd.off
      return vs ++ [v]
    else some vs

def countLoop (h : Heap) (flush : Option Nat) : Nat → Option Nat → Nat → Option Nat
  | 0, _, _ => none
  | fuel + 1, node, n =>
    if node = flush then some n else do
      let i ← node
      countLoop h flush fuel (h.nodes i).next (n + 1)

def getBytes (b : LinkBuffer) (h : Heap) (room : Nat) : Option (List Slice) := do
  let room ← if room = 0 then countLoop h b.flush (h.fresh + 1) b.read 0 else some room
  getBytesLoop h b.flush (h.fresh + 1) b.read room []

def book (b : LinkBuffer) (h : Heap) (cfg : Config) (bookSize maxSize : Nat) :
    Option (Slice × LinkBuffer × Heap) := do
  let i ← b.write
  let l := (h.nodes i).buf.cap - (h.nodes i).malloc
  if l = 0 then
    let (j, b, h) ← b.addTail h cfg maxSize
    let (p, h) ← h.nodeMalloc j (min maxSize bookSize)
    return (p, b, h)
  else
    let (p, h) ← h.nodeMalloc i (min l bookSize)
    return (p, b, h)

def bookAck (b : LinkBuffer) (h : Heap) (n : Nat) : Option (LinkBuffer × Heap) := do
  let i ← b.write
  let node := h.nodes i
  let malloc := n + node.buf.len
  let buf ← node.buf.upto malloc
  return ({ b with flush := b.write }.recalLen n,
    h.set i { node with malloc := malloc, buf := buf })

def maxSizeLoop (h : Heap) (read : Option Nat) : Nat → Option Nat → Nat → Option Nat
  | 0, _, _ => none
  | fuel + 1, node, sum =>
    if node = read then do
      let i ← read
      return sum + (h.nodes i).buf.len
    else do
      let i ← node
      maxSizeLoop h read fuel (h.nodes i).next (sum + (h.nodes i).buf.len)

def calcMaxSize (b : LinkBuffer) (h : Heap) : Option Nat :=
  maxSizeLoop h b.read (h.fresh + 1) b.head 0

def resetTail (b : LinkBuffer) (h : Heap) (cfg : Config) (maxSize : Nat) :
    Option (LinkBuffer × Heap) :=
  if maxSize ≤ pagesize then some (b, h) else do
    let (_, b, h) ← b.addTail h cfg 0
    return ({ b with flush := b.write }, h)

end LinkBuffer

end Netpoll.Nocopy
