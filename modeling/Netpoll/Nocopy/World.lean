import Netpoll.Nocopy.Direct
import Netpoll.Lib.Transition

/-! Buffers on one heap, and what their users do with them. -/

namespace Netpoll.Nocopy

open Netpoll.Lib Netpoll.Lib.Memory

namespace LinkBuffer

def walk (h : Heap) (stop first : Option Nat) : List Nat :=
  Chain.walk (fun i => (h.nodes i).next) stop (h.fresh + 1) first

def early (b : LinkBuffer) (h : Heap) : List Nat := walk h b.flush b.read

def back (b : LinkBuffer) (h : Heap) : List Nat := walk h b.write b.flush

def spare (b : LinkBuffer) (h : Heap) : List Nat :=
  match b.write with
  | some w => walk h none (h.nodes w).next
  | none => []

def chain (b : LinkBuffer) (h : Heap) : List Nat := walk h none b.head

/-- The addresses of the bytes that have been flushed and not read. -/
def readable (b : LinkBuffer) (h : Heap) : List Addr := h.content (b.early h)

/-- The addresses of the bytes that wait for the flush. -/
def pending (b : LinkBuffer) (h : Heap) : List Addr := h.unflushed (b.back h)

end LinkBuffer

variable {h h' : Heap} {b b' : LinkBuffer} {p p' : Parts} {U V : List Nat} {K K' : List Slice}
  {P P' : Nat → Prop} {i j n : Nat} {cfg : Config}

theorem Parts.length_all (hs : Safe h (p.all ++ U) K P) : p.all.length < h.fresh + 1 := by
  have := hs.length_le
  simp only [List.length_append] at this
  omega

section Observe

variable (hb : Buffer h b p) (hs : Safe h (p.all ++ U) K P)
include hb hs

theorem Buffer.chain_eq : b.chain h = p.all := hb.rep.seg.walk_all (Parts.length_all hs)

theorem Buffer.back_eq : b.back h = p.back := by
  by_cases hC : p.back = []
  · rw [hC, LinkBuffer.back, hb.rep.flush, hC]
    exact Chain.walk_none
  · obtain ⟨M, w, hM⟩ := exists_last hC
    have hseg := hb.rep.seg_back hC
    have hnd : (M ++ [w]).Nodup := by
      have := (List.nodup_append.mp hs.nodup.of_append_left.of_append_left).2.1
      rwa [hM] at this
    have hlen := Parts.length_all hs
    rw [hM] at hseg
    rw [LinkBuffer.back, hb.rep.write, hM, List.getLast?_concat]
    refine hseg.walk_eq (fun hw => (List.nodup_append.mp hnd).2.2 w hw w (by simp) rfl) ?_
    simp only [Parts.all, hM, List.length_append, List.length_singleton] at hlen
    omega

theorem Buffer.early_eq : b.early h = p.early := by
  have hlen := Parts.length_all hs
  simp only [Parts.all, List.length_append] at hlen
  cases hC : p.back with
  | nil =>
    have hseg := hb.rep.seg_old.2
    rw [hC, hb.rep.reader hC, List.append_nil, List.append_nil] at hseg
    rw [LinkBuffer.early, hb.rep.flush, hC, Parts.early, hC, List.take_nil, List.append_nil]
    exact hseg.walk_all (by omega)
  | cons c C =>
    obtain ⟨e, hseg⟩ := hb.rep.seg_early
    have hnd := hs.nodup.of_append_left.of_append_left
    rw [hC] at hseg hnd
    rw [LinkBuffer.early, hb.rep.flush, hC, Parts.early, hC]
    refine hseg.walk_eq (fun hm => ?_) (by omega)
    exact (List.nodup_append.mp hnd).2.2 c (by simp [hm]) c (by simp) rfl

theorem Buffer.spare_eq : b.spare h = p.spare := by
  by_cases hC : p.back = []
  · have hw : b.write = Option.none := by rw [hb.rep.write, hC]; rfl
    rw [LinkBuffer.spare, hw, hb.rep.reader hC]
  · obtain ⟨M, w, hM⟩ := exists_last hC
    have hr : Rep h b p.old p.front (M ++ [w]) p.spare := hM ▸ hb.rep
    obtain ⟨c, -, hc⟩ := Chain.seg_append.mp hr.seg
    have hlen := Parts.length_all hs
    simp only [Parts.all, List.length_append] at hlen
    rw [hc.head, ← hr.next_write] at hc
    rw [LinkBuffer.spare, hr.write_last]
    exact hc.walk_all (by omega)

theorem Buffer.readable_eq : b.readable h = h.content p.early := by
  rw [LinkBuffer.readable, hb.early_eq hs]

theorem Buffer.pending_eq : b.pending h = h.unflushed p.back := by
  rw [LinkBuffer.pending, hb.back_eq hs]

end Observe

inductive Out
  | done
  | error (msg : String)
  | bytes (s : Slice)
  | byte (c : UInt8)
  | count (n : Nat)
  deriving DecidableEq, Repr

def Out.of {α : Type} (f : α → Out) : Except String α → Out
  | .ok a => f a
  | .error msg => .error msg

/-- The calls that concern one buffer, and a store through a slice that `Malloc` has returned. -/
inductive Act
  | fill (a : Addr) (v : UInt8)
  | malloc (n : Int)
  | writeBinary (s : Slice)
  | writeString (s : Slice)
  | writeByte (c : UInt8)
  | writeDirect (extra : Slice) (remainLen : Int)
  | mallocAck (n : Int)
  | flush
  | next (n : Int)
  | peek (n : Int)
  | skip (n : Int)
  | readBinary (n : Int)
  | readString (n : Int)
  | readByte
  | readUntil (delim : UInt8)
  | release
  | close
  deriving DecidableEq, Repr

def LinkBuffer.run (cfg : Config) (b : LinkBuffer) (h : Heap) :
    Act → Option (Out × LinkBuffer × Heap)
  | .fill a v => some (.done, b, { h with mem := store h.mem a.1 a.2 [v] })
  | .malloc n => (b.malloc h cfg n).map fun (s, b, h) => (.bytes s, b, h)
  | .writeBinary s => (b.writeBinary h cfg s).map fun (n, b, h) => (.count n, b, h)
  | .writeString s => (b.writeString h cfg s).map fun (n, b, h) => (.count n, b, h)
  | .writeByte c => (b.writeByte h cfg c).map fun (b, h) => (.done, b, h)
  | .writeDirect s r => (b.writeDirect h cfg s r).map fun (b, h) => (.done, b, h)
  | .mallocAck n => (b.mallocAck h n).map fun (r, b, h) => (.of (fun _ => .done) r, b, h)
  | .flush => (b.doFlush h cfg).map fun (b, h) => (.done, b, h)
  | .next n => (b.next h n).map fun (r, b, h) => (.of .bytes r, b, h)
  | .peek n => (b.peek h n).map fun (r, b, h) => (.of .bytes r, b, h)
  | .skip n => (b.skip h n).map fun (r, b, h) => (.of (fun _ => .done) r, b, h)
  | .readBinary n => (b.readBinary h cfg n).map fun (r, b, h) => (.of .bytes r, b, h)
  | .readString n => (b.readString h cfg n).map fun (r, b, h) => (.of .bytes r, b, h)
  | .readByte => (b.readByte h).map fun (r, b, h) => (.of .byte r, b, h)
  | .readUntil c => (b.readUntil h c).map fun (r, b, h) => (.of .bytes r, b, h)
  | .release => (b.release h).map fun (b, h) => (.done, b, h)
  | .close => (b.close h).map fun (b, h) => (.done, b, h)

/-- What users may do: they store only into bytes that they have been given and not yet flushed,
pass memory of their own, and count at most the bytes that wait for the flush. -/
def LinkBuffer.legal (b : LinkBuffer) (h : Heap) : Act → Bool
  | .fill a _ => decide (a ∈ b.pending h ∧ h.owner a.1 ≠ .lent)
  | .writeBinary s | .writeString s => decide (h.owner s.blk = .lent ∧ s.len ≤ s.cap)
  | .writeDirect s r => decide (h.owner s.blk = .lent ∧ s.len ≤ s.cap ∧ r ≤ b.mallocSize)
  | .mallocAck n => decide (n ≤ b.mallocSize)
  | _ => true

inductive Op
  | new (size : Int)
  /-- a user gets memory of its own, with these bytes -/
  | lend (bs : List UInt8)
  | act (i : Nat) (a : Act)
  | slice (i : Nat) (n : Int)
  | append (i j : Nat)
  deriving DecidableEq, Repr

structure World where
  heap : Heap
  bufs : List LinkBuffer

namespace World

def start (mem : Nat → Nat → UInt8) (picks : Nat → Nat) : World where
  heap :=
    { nodes := fun _ => {}, fresh := 0, linkedPool := [], mem := mem, owner := fun _ => .mcache,
      top := 0, freed := [], picks := picks }
  bufs := []

def lend (h : Heap) (bs : List UInt8) : Slice × Heap :=
  let s : Slice := ⟨h.top, 0, bs.length, bs.length⟩
  (s, (h.take h.top .lent).copy s bs)

def exec (cfg : Config) (w : World) : Op → Option (Out × World)
  | .new size =>
    let (b, h) := newLinkBuffer w.heap cfg size
    some (.done, ⟨h, w.bufs ++ [b]⟩)
  | .lend bs =>
    let (s, h) := lend w.heap bs
    some (.bytes s, { w with heap := h })
  | .act i a => do
    let b ← w.bufs[i]?
    let (o, b, h) ← b.run cfg w.heap a
    return (o, ⟨h, w.bufs.set i b⟩)
  | .slice i n => do
    let b ← w.bufs[i]?
    let (r, b, h) ← b.slice w.heap cfg n
    match r with
    | .ok rd => return (.done, ⟨h, w.bufs.set i b ++ [rd]⟩)
    | .error msg => return (.error msg, ⟨h, w.bufs.set i b⟩)
  | .append i j => do
    let b ← w.bufs[i]?
    let buf ← w.bufs[j]?
    let (b, buf, h) ← b.writeBuffer buf w.heap
    return (.done, ⟨h, (w.bufs.set i b).set j buf⟩)

theorem exec_act {w w' : World} {cfg : Config} {i : Nat} {a : Act} {o : Out} :
    w.exec cfg (.act i a) = some (o, w') ↔ ∃ b b' h', w.bufs[i]? = some b ∧
      b.run cfg w.heap a = some (o, b', h') ∧ w' = ⟨h', w.bufs.set i b'⟩ := by
  simp only [exec, Option.bind_eq_bind, Option.bind_eq_some_iff, Option.pure_def, Option.some.injEq,
    Prod.mk.injEq, Prod.exists]
  constructor
  · rintro ⟨b, hi, o', b', h', hr, rfl, rfl⟩
    exact ⟨b, b', h', hi, hr, rfl⟩
  · rintro ⟨b, b', h', hi, hr, rfl⟩
    exact ⟨b, hi, o, b', h', hr, rfl, rfl⟩

def step (cfg : Config) (w : World) (op : Op) : Option World := (w.exec cfg op).map (·.2)

def legal (w : World) : Op → Bool
  | .act i a => (w.bufs[i]?).all (·.legal w.heap a)
  | .append i j => i != j
  | _ => true

def nodes (w : World) : List Nat := w.bufs.flatMap (·.chain w.heap)

end World

end Netpoll.Nocopy
