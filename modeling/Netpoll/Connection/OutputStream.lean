import Mathlib.Algebra.Ring.Nat
import Netpoll.Connection.FlushReturns
import Netpoll.Nocopy.Book
import Netpoll.Nocopy.Scan

/-! What a connection without a write timeout sends.  The writer and the poller take the bytes from
the output buffer itself, while the users of all buffers go on; the system of `Flush` is what is
left of it when only the readable bytes are kept. -/

namespace Netpoll.OutputStream

open Netpoll.Lib Netpoll.Lib.Memory Netpoll.Lib.Transition Netpoll.Lib.Staged Netpoll.Nocopy
open Netpoll.Flush (FlushErr WriterPc PollerPc Label Patient)
open Netpoll.Poll.Handler (SysRes iovecs maxInt32)
open Netpoll.WriteFifo (barriercap)

def offered (b : LinkBuffer) (h : Heap) : Option (List Addr) := do
  let vs ← b.getBytes h barriercap
  return (vs.flatMap Slice.cells).take (iovecs 0 (vs.map (·.len))).sum

def failed : Out → Bool
  | .error _ => true
  | _ => false

def ack (cfg : Config) (b : LinkBuffer) (h : Heap) (n : Nat) : Option (Bool × LinkBuffer × Heap) :=
  if n = 0 then some (false, b, h) else do
    let (o, b, h) ← b.run cfg h (.skip n)
    let (_, b, h) ← b.run cfg h .release
    return (failed o, b, h)

structure System where
  world : World
  active : Bool
  writable : Bool
  writeTrigger : Option (Option FlushErr)
  writer : WriterPc Addr
  poller : PollerPc Addr
  closer : Bool

inductive Event
  | user (op : Op)
  | call
  | writer (r : SysRes)
  | event
  | poller (r : SysRes)
  | close
  | closeTrigger

def stages : Act → Bool
  | .fill _ _ | .malloc _ | .writeBinary _ | .writeString _ | .writeByte _ | .mallocAck _ => true
  | _ => false

def writesTo (i : Nat) : Op → Bool
  | .act j a => j != i || stages a
  | .slice j _ => j != i
  | .append _ j => j != i
  | _ => true

def unacked : WriterPc Addr → PollerPc Addr → Nat
  | .skip n, _ => n
  | _, .ack n => n
  | _, _ => 0

namespace System

def init (w : World) : System := ⟨w, true, false, none, .idle, .idle, false⟩

def put (s : System) (i : Nat) (b : LinkBuffer) (h : Heap) : System :=
  { s with world := ⟨h, s.world.bufs.set i b⟩ }

def triggerWrite (s : System) (err : Option FlushErr) : System :=
  if s.writeTrigger.isSome then s else { s with writeTrigger := some err }

variable (cfg : Config) (i : Nat)

def call (s : System) (b : LinkBuffer) : Option System :=
  if s.writer ≠ .idle then none
  else if s.active then
    (b.doFlush s.world.heap cfg).map fun (b, h) => { s.put i b h with writer := .flush }
  else some { s with writer := .returned (some .connClosed) }

def writerStep (s : System) (b : LinkBuffer) (r : SysRes) : Option System :=
  match s.writer with
  | .flush =>
    if b.length = 0 then some { s with writer := .returned none }
    else (offered b s.world.heap).map fun vs => { s with writer := .send vs }
  | .send vs =>
    match r with
    | .ok n => some { s with writer := .skip (min n vs.length) }
    | .fail .eagain => some { s with writer := .skip 0 }
    | .fail e => some { s with writer := .returned (some (.sys e)) }
  | .skip n =>
    (ack cfg b s.world.heap n).map fun (failed, b, h) => { s.put i b h with
      writer := if failed then .returned (some .skip) else if b.length = 0 then .returned none
        else .register }
  | .register =>
    match r with
    | .ok _ => some { s with writable := true, writer := .waitFlush }
    | .fail e => some { s with writer := .returned (some (.sys e)) }
  | .waitFlush => s.writeTrigger.map fun err =>
    { s with writeTrigger := none, writer := .returned err }
  | .returned _ => some { s with writer := .idle }
  | .idle | .timedOut | .expired => none

def pollerStep (s : System) (b : LinkBuffer) (r : SysRes) : Option System :=
  match s.poller with
  | .idle => none
  | .outputs =>
    if b.length = 0 then some { s with poller := .rw2r }
    else (offered b s.world.heap).map fun vs => { s with poller := .send vs }
  | .send vs =>
    match r with
    | .ok n => some { s with poller := .ack (min n vs.length) }
    | .fail _ => some { s with poller := .ack 0 }
  | .ack n =>
    (ack cfg b s.world.heap n).map fun (_, b, h) => { s.put i b h with
      poller := if b.length = 0 then .rw2r else .idle }
  | .rw2r => some { s with writable := false, poller := .trigger }
  | .trigger => some { s.triggerWrite none with poller := .idle }

def step (s : System) : Event → Option System
  | .user op => (s.world.exec cfg op).map fun x => { s with world := x.2 }
  | .call => (s.world.bufs[i]?).bind fun b => s.call cfg i b
  | .writer r => (s.world.bufs[i]?).bind fun b => s.writerStep cfg i b r
  | .event => if s.writable ∧ s.poller = .idle then some { s with poller := .outputs } else none
  | .poller r => (s.world.bufs[i]?).bind fun b => s.pollerStep cfg i b r
  | .close => if s.active then some { s with active := false, closer := true } else none
  | .closeTrigger =>
    if s.closer then some { s.triggerWrite (some .connClosed) with closer := false } else none

/-- The users of the connection write to its output buffer `i` between the calls of `Flush`. -/
def allows (s : System) : Event → Prop
  | .user op => s.world.Orderly op ∧ writesTo i op = true ∧
      (op.uses i = true → s.active = true ∧ s.writer = .idle)
  | .call => (s.world.bufs[i]?).any (·.write.isSome) = true
  | _ => True

instance (s : System) : DecidablePred (s.allows i)
  | .user op => inferInstanceAs (Decidable (s.world.Orderly op ∧ _ ∧ (_ → _)))
  | .call => inferInstanceAs (Decidable (_ = true))
  | .writer _ | .event | .poller _ | .close | .closeTrigger => inferInstanceAs (Decidable True)

def submits (s : System) : Event → List UInt8
  | .call => if s.active then (s.world.queues[i]?).elim [] (·.staged) else []
  | _ => []

def sends (s : System) : Event → List UInt8
  | .writer (.ok n) =>
    match s.writer with
    | .send vs => s.world.heap.look (vs.take n)
    | _ => []
  | .poller (.ok n) =>
    match s.poller with
    | .send vs => s.world.heap.look (vs.take n)
    | _ => []
  | _ => []

def sent (s : System) : Nat := unacked s.writer s.poller

end System

variable {cfg : Config} {s s' : System} {w w' : World} {l l' rest : Layout} {P P' : Nat → Prop}
  {h h' : Heap} {b b' : LinkBuffer} {p p' : Parts} {U : List Nat} {K : List Slice} {i n : Nat}
  {r : SysRes} {vs : List Addr}

theorem pieces_cells (h : Heap) (L : List Nat) (c : Nat) :
    (h.pieces L c).flatMap Slice.cells = h.content (L ++ [c]) := by
  induction L with
  | nil => simp [Heap.pieces, Heap.content, Node.unread, Slice.cells, Heap.ready]
  | cons k L ih =>
    rw [Heap.pieces_cons, List.cons_append, Heap.content_cons, ← ih]
    split
    · rfl
    · have hnil : h.ready k = [] := List.eq_nil_of_length_eq_zero (by simp; omega)
      simp [hnil]

theorem offered_spec (hb : Buffer h b p) (hs : Safe h (p.all ++ U) K P) (hback : p.back ≠ []) :
    ∃ vs, offered b h = some vs ∧ vs <+: h.content p.early ∧ vs.length ≤ maxInt32 := by
  obtain ⟨c, C, hC⟩ := List.exists_cons_of_ne_nil hback
  refine ⟨_, by rw [offered, hb.getBytes_eq hs hC]; rfl, ?_, ?_⟩
  · refine (List.take_prefix _ _).trans ?_
    rw [Parts.early_flush hC, ← pieces_cells]
    nth_rewrite 2 [← List.take_append_drop barriercap (h.pieces p.front c)]
    rw [List.flatMap_append]
    exact List.prefix_append _ _
  · exact (List.length_take_le _ _).trans
      (by simpa using WriteFifo.sum_iovecs_le (Nat.zero_le maxInt32))

theorem single_offered (bs : List UInt8) (c : Flush.Conn UInt8) (hc : c.nodes = [bs]) :
    c.offered = bs.take maxInt32 := by
  have hbytes : c.bytes = bs := by simp [Flush.Conn.bytes, hc]
  have hget : WriteFifo.getBytes barriercap (c.nodes.map List.length) = [bs.length] := by
    simp [WriteFifo.getBytes, hc, barriercap]
  rw [Flush.Conn.offered, hget, hbytes]
  by_cases h0 : bs.length = 0
  · simp [List.eq_nil_of_length_eq_zero h0]
  · by_cases hlt : bs.length < maxInt32
    · rw [show (iovecs 0 [bs.length]).sum = bs.length by simp [iovecs, h0, hlt], List.take_length,
        List.take_of_length_le hlt.le]
    · rw [show (iovecs 0 [bs.length]).sum = maxInt32 by simp [iovecs, h0, hlt]]

theorem length_eq (hb : Buffer h b p) (hst : (h.queue p).staged = []) :
    b.length = (h.queue p).ready.length := by
  have hlater : (h.later p.back).length = 0 := by
    have := congrArg List.length hst
    simpa [Heap.queue, Heap.look] using this
  rw [Heap.length_later] at hlater
  have hlen := congrArg List.length (Parts.content_live (h := h) (p := p))
  rw [List.length_append] at hlen
  simp only [Heap.queue, Heap.look, length_look, hb.length]
  omega

theorem Changed.refl (hT : Tidy w l P) (hF : Focus w l rest i b p P) :
    Changed w ⟨w.heap, w.bufs.set i b⟩ l (l.set i (b, p)) P i (w.heap.queue p) := by
  have hb : w.bufs[i]? = some b := by
    rw [hT.inv.bufs, List.getElem?_map, hF.get]
    rfl
  have hq : w.queues[i]? = some (w.heap.queue p) := by
    rw [hT.inv.queues_eq, List.getElem?_map, hF.get]
    rfl
  rw [set_self hb, set_self hF.get]
  exact ⟨hT, (set_self hq).symm, fun j x _ hx => ⟨hx, fun _ _ => rfl⟩⟩

theorem ack_spec (hT : Tidy w l P) (hF : Focus w l rest i b p P) (hback : p.back ≠ [])
    (hst : (w.heap.queue p).staged = []) (hn : n ≤ (w.heap.queue p).ready.length) (cfg : Config) :
    ∃ b' h' p' P', ack cfg b w.heap n = some (false, b', h') ∧ p'.back ≠ [] ∧
      Changed w ⟨h', w.bufs.set i b'⟩ l
        (l.set i (b', p')) P' i ⟨(w.heap.queue p).ready.drop n, []⟩ := by
  by_cases h0 : n = 0
  · subst h0
    refine ⟨b, w.heap, p, P, by simp [ack], hback, ?_⟩
    rw [List.drop_zero, ← hst]
    exact Changed.refl hT hF
  · have hQ := hT.queued hF
    have hlen : (b.readable w.heap).length = (w.heap.queue p).ready.length := by
      rw [hQ.buffer.readable_eq hQ.safe]
      simp [Heap.queue, Heap.look]
    obtain ⟨o, b₁, h₁, p₁, P₁, hskip, hS⟩ : ∃ o b' h' p' P',
      b.run cfg w.heap (.skip n) = some (o, b', h') ∧
        Served w.heap h' b b' p p' (.skip n) rest.nodes rest.kept P P' (.take n) o :=
          hQ.skip fun _ => by omega
    obtain ⟨q, hq, ho⟩ := hS.run
    have hle : (n : Int) ≤ (w.heap.queue p).ready.length := by omega
    rw [Queue.run, if_pos hle, Int.toNat_natCast, hst] at hq
    have hC := hS.changed hT hF rfl
    have hget : (l.set i (b₁, p₁))[i]? = some (b₁, p₁) :=
      List.getElem?_set_self (List.getElem?_eq_some_iff.mp hF.get).1
    obtain ⟨p₂, rest', hF'⟩ := hC.tidy.inv.focus (i := i) (b := b₁)
      (by rw [hC.tidy.inv.bufs, List.getElem?_map, hget]; rfl)
    obtain rfl : p₁ = p₂ := by
      have := hget.symm.trans hF'.get
      simp only [Option.some.injEq, Prod.mk.injEq, true_and] at this
      exact this
    obtain ⟨o', b₂, h₂, p₂, P₂, hrel, hS'⟩ : ∃ o b' h' p' P',
      b₁.run cfg h₁ .release = some (o, b', h') ∧
        Served h₁ h' b₁ b' p₁ p' .release rest'.nodes rest'.kept P₁ P' .idle o :=
          (hC.tidy.queued hF').release
    obtain ⟨q', hq', -⟩ := hS'.run
    have hC' := hC.trans (hS'.changed hC.tidy hF' rfl)
    rw [List.set_set, List.set_set] at hC'
    have hnot : failed o = false := by
      cases o with
      | error e =>
        have hsome : some _ = q := congrArg Prod.fst hq
        rw [show q = none from ho] at hsome
        cases hsome
      | _ => rfl
    refine ⟨b₂, h₂, p₂, P₂, ?_, ?_, ?_⟩
    · simp only [ack, if_neg h0, hskip, hrel, Option.bind_eq_bind, Option.bind_some,
        Option.pure_def, hnot]
    · rw [(hS'.untouched rfl).back, (hS.untouched rfl).back]
      exact hback
    · have hend : h₂.queue p₂ = ⟨(w.heap.queue p).ready.drop n, []⟩ := by
        have h1 : _ = h₁.queue p₁ := congrArg Prod.snd hq
        have h2 : h₁.queue p₁ = h₂.queue p₂ := congrArg Prod.snd hq'
        rw [← h2, ← h1]
      exact hend ▸ hC'

theorem flush_spec (hT : Tidy w l P) (hF : Focus w l rest i b p P) (hback : p.back ≠ [])
    (cfg : Config) :
    ∃ b' h' p', b.doFlush w.heap cfg = some (b', h') ∧ p'.back ≠ [] ∧
      Changed w ⟨h', w.bufs.set i b'⟩ l (l.set i (b', p')) P i
        ⟨(w.heap.queue p).ready ++ (w.heap.queue p).staged, []⟩ := by
  have hQ := hT.queued hF
  obtain ⟨b', h', p', hfl, hp⟩ := doFlush_spec hQ.buffer hQ.safe hQ.viewed hback cfg
  have hS : Served w.heap h' b b' p p' .flush rest.nodes rest.kept P P .commit .done :=
    hQ.committed hback hp (LinkBuffer.doFlush_cachePeek hfl) rfl
  obtain ⟨q, hq, -⟩ := hS.run
  have hend : ⟨(w.heap.queue p).ready ++ (w.heap.queue p).staged, []⟩ = h'.queue p' :=
    congrArg Prod.snd hq
  exact ⟨b', h', p', hfl, hp.back, hend ▸ hS.changed hT hF rfl⟩

def Writes : WriterPc Addr → WriterPc UInt8 → Prop
  | .send vs, .send us => vs.length ≤ us.length
  | .skip n, .skip m => n = m
  | .returned e, .returned f => e = f
  | .idle, .idle | .flush, .flush | .register, .register | .waitFlush, .waitFlush => True
  | _, _ => False

def Polls : PollerPc Addr → PollerPc UInt8 → Prop
  | .send vs, .send us => vs.length ≤ us.length
  | .ack n, .ack m => n = m
  | .idle, .idle | .outputs, .outputs | .rw2r, .rw2r | .trigger, .trigger => True
  | _, _ => False

def writerAt (us : List UInt8) : WriterPc Addr → WriterPc UInt8
  | .send _ => .send us
  | .skip n => .skip n
  | .returned e => .returned e
  | .idle => .idle
  | .flush => .flush
  | .register => .register
  | .waitFlush => .waitFlush
  | .timedOut => .timedOut
  | .expired => .expired

def pollerAt (us : List UInt8) : PollerPc Addr → PollerPc UInt8
  | .send _ => .send us
  | .ack n => .ack n
  | .idle => .idle
  | .outputs => .outputs
  | .rw2r => .rw2r
  | .trigger => .trigger

section

variable {x : WriterPc Addr} {y : WriterPc UInt8} {u : PollerPc Addr} {v : PollerPc UInt8}

theorem Writes.inv (hw : Writes x y) :
    ∃ us, y = writerAt us x ∧ ∀ vs, x = .send vs → vs.length ≤ us.length := by
  cases x <;> cases y <;> try exact False.elim hw
  case send.send vs us => exact ⟨us, rfl, fun _ h => by cases h; exact hw⟩
  case skip.skip n m => exact ⟨[], congrArg _ (Eq.symm hw), by simp⟩
  case returned.returned e f => exact ⟨[], congrArg _ (Eq.symm hw), by simp⟩
  all_goals exact ⟨[], rfl, by simp⟩

theorem Polls.inv (hp : Polls u v) :
    ∃ us, v = pollerAt us u ∧ ∀ vs, u = .send vs → vs.length ≤ us.length := by
  cases u <;> cases v <;> try exact False.elim hp
  case send.send vs us => exact ⟨us, rfl, fun _ h => by cases h; exact hp⟩
  case ack.ack n m => exact ⟨[], congrArg _ (Eq.symm hp), by simp⟩
  all_goals exact ⟨[], rfl, by simp⟩

theorem Writes.untimed (hw : Writes x y) : x ≠ .timedOut ∧ x ≠ .expired := by
  cases x <;> cases y <;> first | exact False.elim hw | simp

theorem Writes.busy_eq (hw : Writes x y) : x.busy = y.busy := by
  obtain ⟨us, rfl, -⟩ := hw.inv
  cases x <;> rfl

theorem Polls.idle_iff (hp : Polls u v) : u = .idle ↔ v = .idle := by
  obtain ⟨us, rfl, -⟩ := hp.inv
  cases u <;> simp [pollerAt]

theorem rest_eq {bytes : List UInt8} (hw : Writes x y) (hp : Polls u v) :
    Flush.rest bytes y v = bytes.drop (unacked x u) := by
  obtain ⟨us, rfl, -⟩ := hw.inv
  obtain ⟨vs, rfl, -⟩ := hp.inv
  cases x <;> cases u <;> rfl

end

structure Live (i : Nat) (s : System) (a : Flush.System UInt8) (l : Layout) (P : Nat → Prop)
    (p : Parts) : Prop where
  tidy : Tidy s.world l P
  get : ∃ b, l[i]? = some (b, p)
  patient : Patient a
  nodes : a.conn.nodes = [(s.world.heap.queue p).ready]
  active : a.conn.active = s.active
  writable : a.conn.writable = s.writable
  writeTrigger : a.conn.writeTrigger = s.writeTrigger
  closer : a.closer = s.closer
  writer : Writes s.writer a.writer
  poller : Polls s.poller a.poller
  vector : ∀ vs, s.writer = .send vs ∨ s.poller = .send vs → vs <+: s.world.heap.content p.early
  settled : (s.world.heap.queue p).staged = [] ∧ p.back ≠ [] ∨
    s.writer.outside = true ∧ s.poller = .idle ∧ s.writable = false

def Matched (i : Nat) (s s' : System) (a : Flush.System UInt8) (e : Event) : Prop :=
  ∃ a' l' P' p', Live i s' a' l' P' p' ∧ a'.conn.submitted = a.conn.submitted ++ s.submits i e ∧
    a'.conn.kernel = a.conn.kernel ++ s.sends e

variable {a : Flush.System UInt8}

theorem Live.writer_eq {pc : WriterPc Addr} (hL : Live i s a l P p) (hpc : s.writer = pc)
    (hne : ∀ vs, pc ≠ .send vs) : a.writer = writerAt [] pc := by
  obtain ⟨us, ha, -⟩ := hL.writer.inv
  rw [ha, hpc]
  cases pc with
  | send vs => exact absurd rfl (hne vs)
  | _ => rfl

theorem Live.bytes (hL : Live i s a l P p) : a.conn.bytes = (s.world.heap.queue p).ready := by
  simp [Flush.Conn.bytes, hL.nodes]

theorem Live.focus (hL : Live i s a l P p) (hb : s.world.bufs[i]? = some b) :
    ∃ rest, Focus s.world l rest i b p P := by
  obtain ⟨q, rest, hF⟩ := hL.tidy.inv.focus hb
  obtain ⟨c, hc⟩ := hL.get
  obtain rfl : p = q := by
    have := hc.symm.trans hF.get
    simp only [Option.some.injEq, Prod.mk.injEq] at this
    exact this.2
  exact ⟨rest, hF⟩

theorem Live.look_take (hL : Live i s a l P p) {us : List UInt8}
    (hv : vs <+: s.world.heap.content p.early) (hu : us <+: a.conn.bytes)
    (hle : vs.length ≤ us.length) :
    s.world.heap.look (vs.take n) = us.take (min n vs.length) := by
  rw [hL.bytes] at hu
  have hlook : s.world.heap.look vs = (s.world.heap.queue p).ready.take vs.length := by
    conv_lhs => rw [List.prefix_iff_eq_take.mp hv]
    rw [Heap.queue, Heap.look, Heap.look, Memory.look_take]
  have htake : us.take vs.length = (s.world.heap.queue p).ready.take vs.length := by
    conv_lhs => rw [List.prefix_iff_eq_take.mp hu]
    rw [List.take_take, Nat.min_eq_left hle]
  calc s.world.heap.look (vs.take n) = (s.world.heap.look vs).take n := by
        rw [Heap.look, Heap.look, Memory.look_take]
    _ = (us.take vs.length).take n := by rw [hlook, htake]
    _ = us.take (min n vs.length) := by rw [List.take_take]

theorem Live.offers (hL : Live i s a l P p) (hF : Focus s.world l rest i b p P)
    (hback : p.back ≠ []) :
    ∃ vs, offered b s.world.heap = some vs ∧ vs <+: s.world.heap.content p.early ∧
      vs.length ≤ a.conn.offered.length := by
  obtain ⟨vs, hvs, hpre, hle⟩ := offered_spec hF.buffer hF.safe hback
  refine ⟨vs, hvs, hpre, ?_⟩
  rw [single_offered _ _ hL.nodes, List.length_take]
  have := hpre.length_le
  simp only [Heap.queue, Heap.look, length_look]
  omega

theorem Live.empty_iff (hL : Live i s a l P p) (hF : Focus s.world l rest i b p P)
    (hst : (s.world.heap.queue p).staged = []) : b.length = 0 ↔ a.conn.isEmpty = true := by
  rw [Flush.Conn.isEmpty_iff, hL.bytes, length_eq hF.buffer hst, ← List.length_eq_zero_iff]
  omega

theorem Live.changed {q : Queue UInt8} (hL : Live i s a l P p)
    (hC : Changed s.world ⟨h', s.world.bufs.set i b'⟩ l (l.set i (b', p')) P' i q) :
    (l.set i (b', p'))[i]? = some (b', p') ∧ h'.queue p' = q := by
  obtain ⟨c, hc⟩ := hL.get
  have hget : (l.set i (b', p'))[i]? = some (b', p') :=
    List.getElem?_set_self (List.getElem?_eq_some_iff.mp hc).1
  exact ⟨hget, hC.queue_eq hget⟩

theorem Live.busy (hL : Live i s a l P p) (hw : s.writer.outside = false ∨ s.poller ≠ .idle) :
    (s.world.heap.queue p).staged = [] ∧ p.back ≠ [] :=
  hL.settled.resolve_right fun h => hw.elim (fun hw => by simp [h.1] at hw) fun hp => hp h.2.1

theorem Live.control {a' : Flush.System UInt8} (hL : Live i s a l P p) (hworld : s'.world = s.world)
    (hpat : Patient a') (hnodes : a'.conn.nodes = a.conn.nodes)
    (hflags : a'.conn.active = s'.active ∧ a'.conn.writable = s'.writable ∧
      a'.conn.writeTrigger = s'.writeTrigger ∧ a'.closer = s'.closer)
        (hw : Writes s'.writer a'.writer) (hp : Polls s'.poller a'.poller)
    (hvec : ∀ vs, s'.writer = .send vs ∨ s'.poller = .send vs → vs <+: s.world.heap.content p.early)
    (hset : (s.world.heap.queue p).staged = [] ∧ p.back ≠ [] ∨
      s'.writer.outside = true ∧ s'.poller = .idle ∧ s'.writable = false) : Live i s' a' l P p := by
  rw [← hworld] at hvec hset
  exact ⟨hworld ▸ hL.tidy, hL.get, hpat, by rw [hnodes, hworld, hL.nodes], hflags.1, hflags.2.1,
    hflags.2.2.1, hflags.2.2.2, hw, hp, hvec, hset⟩

theorem Live.flags (hL : Live i s a l P p) :
    a.conn.active = s.active ∧ a.conn.writable = s.writable ∧ a.conn.writeTrigger = s.writeTrigger ∧
    a.closer = s.closer :=
  ⟨hL.active, hL.writable, hL.writeTrigger, hL.closer⟩

theorem Live.writer_goes {pc : WriterPc Addr} {pc' : WriterPc UInt8} (hL : Live i s a l P p)
    (hpat : Patient { a with writer := pc' }) (hw : Writes pc pc') (hne : ∀ us, pc ≠ .send us)
    (hset : (s.world.heap.queue p).staged = [] ∧ p.back ≠ [] ∨
      pc.outside = true ∧ s.poller = .idle ∧ s.writable = false) :
    Live i { s with writer := pc } { a with writer := pc' } l P p :=
  hL.control rfl hpat rfl hL.flags hw hL.poller
    (fun vs hv => hL.vector vs (.inr (hv.resolve_left (hne vs)))) hset

theorem Live.acked (hL : Live i s a l P p) (hF : Focus s.world l rest i b p P)
    (hst : (s.world.heap.queue p).staged = []) (hback : p.back ≠ []) (hn : n ≤ a.conn.bytes.length)
    (cfg : Config) :
    ∃ c b' h' p' P', a.conn.skip n = some { a.conn with nodes := [c] } ∧
      ack cfg b s.world.heap n = some (false, b', h') ∧
      Tidy ⟨h', s.world.bufs.set i b'⟩ (l.set i (b', p')) P' ∧
      (l.set i (b', p'))[i]? = some (b', p') ∧ h'.queue p' = ⟨c, []⟩ ∧ p'.back ≠ [] ∧
      (b'.length = 0 ↔ ({ a.conn with nodes := [c] } : Flush.Conn UInt8).isEmpty = true) := by
  have hlen := hL.bytes ▸ hn
  obtain ⟨b', h', p', P', hack, hback', hC⟩ := ack_spec hL.tidy hF hback hst hlen cfg
  obtain ⟨hget, hq⟩ := hL.changed hC
  have hb : b'.length = (h'.queue p').ready.length :=
    length_eq (hC.tidy.inv.buffer _ (List.mem_of_getElem? hget)) (by rw [hq])
  refine ⟨(s.world.heap.queue p).ready.drop n, b', h', p', P', ?_, hack, hC.tidy, hget, hq, hback',
    ?_⟩
  · rw [Flush.Conn.skip, if_neg (by omega), hL.nodes, Flush.Conn.skipNodes, if_pos hlen]
  · rw [Flush.Conn.isEmpty_iff, hb, hq, Flush.Conn.bytes,
      List.flatten_singleton, ← List.length_eq_zero_iff]
    exact Int.natCast_eq_zero

theorem Live.writerStep (hL : Live i s a l P p) (hb : s.world.bufs[i]? = some b)
    (h : s.writerStep cfg i b r = some s') : Matched i s s' a (.writer r) := by
  obtain ⟨rest, hF⟩ := hL.focus hb
  have hstep : ∀ r a', Flush.writerStep a r = some a' → Patient a' :=
    fun _ _ h => hL.patient.writer h
  obtain ⟨us, ha, hus⟩ := hL.writer.inv
  cases hw : s.writer with
  | idle | timedOut | expired => simp [System.writerStep, hw] at h
  | flush =>
    obtain ⟨hst, hback⟩ := hL.busy (.inl (by rw [hw]; rfl))
    replace ha : a.writer = .flush := ha.trans (congrArg (writerAt us) hw)
    by_cases h0 : b.length = 0
    · simp only [System.writerStep, hw, if_pos h0, Option.some.injEq] at h
      have hempty := (hL.empty_iff hF hst).mp h0
      have hpat := hstep r { a with writer := .returned none }
        (by simp [Flush.writerStep, ha, hempty])
      subst h
      refine ⟨_, l, P, p,
        hL.writer_goes hpat rfl (by simp) (.inl ⟨hst, hback⟩), by simp [System.submits], ?_⟩
      cases r <;> simp [System.sends, hw]
    · obtain ⟨vs, hvs, hpre, hlen⟩ := hL.offers hF hback
      simp only [System.writerStep, hw, if_neg h0, hvs, Option.map_some, Option.some.injEq] at h
      have hempty : a.conn.isEmpty = false := by
        simpa using fun he => h0 ((hL.empty_iff hF hst).mpr he)
      have hpat := hstep r { a with writer := .send a.conn.offered }
        (by simp [Flush.writerStep, ha, hempty])
      subst h
      refine ⟨_, l, P, p, hL.control rfl hpat rfl hL.flags hlen hL.poller (fun us hv => ?_)
        (.inl ⟨hst, hback⟩), by simp [System.submits], ?_⟩
      · rcases hv with hv | hv
        · cases hv
          exact hpre
        · exact hL.vector us (.inr hv)
      · cases r <;> simp [System.sends, hw]
  | send vs =>
    have hset := hL.busy (.inl (by rw [hw]; rfl))
    replace ha : a.writer = .send us := ha.trans (congrArg (writerAt us) hw)
    have hshow := hus vs hw
    cases r with
    | ok n =>
      simp only [System.writerStep, hw, Option.some.injEq] at h
      have hpat := hstep (.ok (min n vs.length)) { a with
        conn := a.conn.accept us (min n vs.length),
          writer := .skip (min (min n vs.length) us.length) }
        (by simp [Flush.writerStep, ha])
      subst h
      refine ⟨_, l, P, p, hL.control rfl hpat rfl hL.flags ?_ hL.poller (fun vs hv => ?_)
        (.inl hset), by simp [System.submits, Flush.Conn.accept], ?_⟩
      · show min n vs.length = min (min n vs.length) us.length
        omega
      · exact hL.vector vs (.inr (hv.resolve_left (by simp)))
      · show a.conn.kernel ++ us.take (min n vs.length) = _
        rw [← hL.look_take (hL.vector vs (.inl hw)) (hL.patient.exact.writerSend us ha) hshow]
        simp [System.sends, hw]
    | fail e =>
      by_cases he : e = .eagain
      · subst he
        simp only [System.writerStep, hw, Option.some.injEq] at h
        have hpat := hstep (.fail .eagain) { a with writer := .skip 0 }
          (by simp [Flush.writerStep, ha])
        subst h
        exact ⟨_, l, P, p, hL.writer_goes hpat rfl (by simp) (.inl hset), by simp [System.submits],
          by simp [System.sends]⟩
      · have hpat := hstep (.fail e) { a with writer := .returned (some (.sys e)) }
          (by simp [Flush.writerStep, ha])
        simp only [System.writerStep, hw, Option.some.injEq] at h
        subst h
        exact ⟨_, l, P, p, hL.writer_goes hpat rfl (by simp) (.inl hset), by simp [System.submits],
          by simp [System.sends]⟩
  | skip n =>
    obtain ⟨hst, hback⟩ := hL.busy (.inl (by rw [hw]; rfl))
    replace ha : a.writer = .skip n := ha.trans (congrArg (writerAt us) hw)
    have hidle := hL.poller.idle_iff.mpr (hL.patient.exact.busy (by rw [ha]; rfl)).1
    obtain ⟨c, b', h', p', P', hskip, hack, hT, hget, hq, hback', hempty⟩ :=
      hL.acked hF hst hback (hL.patient.exact.writerSkip n ha) cfg
    simp only [System.writerStep, hw, hack, Option.map_some, Option.some.injEq] at h
    have hpat := hstep r { a with
      conn := { a.conn with nodes := [c] }
      writer := if ({ a.conn with nodes := [c] } : Flush.Conn UInt8).isEmpty then .returned none
        else .register }
      (by simp only [Flush.writerStep, ha, hskip])
    subst h
    refine ⟨_, _, P', p',
      ⟨hT, ⟨b', hget⟩, hpat, ?_, hL.active, hL.writable, hL.writeTrigger, hL.closer, ?_, hL.poller,
        fun vs hv => ?_, .inl ⟨?_, hback'⟩⟩, by simp [System.submits], ?_⟩
    · show [c] = [(h'.queue p').ready]
      rw [hq]
    · by_cases h0 : b'.length = 0
      · simp [h0, hempty.mp h0, Writes]
      · have : ({ a.conn with nodes := [c] } : Flush.Conn UInt8).isEmpty = false := by
          simpa using fun he => h0 (hempty.mpr he)
        simp [h0, this, Writes]
    · rcases hv with hv | hv
      · dsimp only at hv
        split_ifs at hv
      · rw [show s.poller = _ from hv] at hidle
        cases hidle
    · show (h'.queue p').staged = []
      rw [hq]
    · cases r <;> simp [System.sends, hw]
  | register =>
    have hset := hL.busy (.inl (by rw [hw]; rfl))
    replace ha : a.writer = .register := ha.trans (congrArg (writerAt us) hw)
    cases r with
    | ok n =>
      simp only [System.writerStep, hw, Option.some.injEq] at h
      have hpat := hstep (.ok n) { a with conn.writable := true, writer := .waitFlush }
        (by simp [Flush.writerStep, ha])
      subst h
      refine ⟨_, l, P, p, hL.control rfl hpat rfl ⟨hL.active, rfl, hL.writeTrigger, hL.closer⟩
        trivial hL.poller (fun vs hv => ?_)
          (.inl hset), by simp [System.submits], by simp [System.sends, hw]⟩
      exact hL.vector vs (.inr (hv.resolve_left (by simp)))
    | fail e =>
      simp only [System.writerStep, hw, Option.some.injEq] at h
      have hpat := hstep (.fail e) { a with writer := .returned (some (.sys e)) }
        (by simp [Flush.writerStep, ha])
      subst h
      exact ⟨_, l, P, p, hL.writer_goes hpat rfl (by simp) (.inl hset), by simp [System.submits],
        by simp [System.sends]⟩
  | waitFlush =>
    have hset := hL.busy (.inl (by rw [hw]; rfl))
    replace ha : a.writer = .waitFlush := ha.trans (congrArg (writerAt us) hw)
    simp only [System.writerStep, hw] at h
    obtain ⟨err, ht, rfl⟩ := Option.map_eq_some_iff.mp h
    have hpat := hstep r { a with conn.writeTrigger := none, writer := .returned err }
      (by simp [Flush.writerStep, ha, hL.writeTrigger, ht])
    refine ⟨_, l, P, p, hL.control rfl hpat rfl ⟨hL.active, hL.writable, rfl, hL.closer⟩ rfl
      hL.poller (fun vs hv => ?_) (.inl hset), by simp [System.submits], ?_⟩
    · exact hL.vector vs (.inr (hv.resolve_left (by simp)))
    · cases r <;> simp [System.sends, hw]
  | returned err =>
    replace ha : a.writer = .returned err := ha.trans (congrArg (writerAt us) hw)
    simp only [System.writerStep, hw, Option.some.injEq] at h
    have hpat := hstep r { a with writer := .idle } (by simp [Flush.writerStep, ha])
    subst h
    refine ⟨_, l, P, p,
      hL.writer_goes hpat trivial (by simp)
      (hL.settled.imp_right fun h => ⟨rfl, h.2⟩), by simp [System.submits], ?_⟩
    cases r <;> simp [System.sends, hw]

theorem Live.triggers (hL : Live i s a l P p) (err : Option FlushErr) :
    a.conn.triggerWrite err = { a.conn with writeTrigger := (s.triggerWrite err).writeTrigger } ∧
      s.triggerWrite err = { s with writeTrigger := (s.triggerWrite err).writeTrigger } := by
  have ht := hL.writeTrigger
  by_cases h0 : s.writeTrigger.isSome = true
  · simp only [Flush.Conn.triggerWrite, System.triggerWrite, ht, h0, if_true, and_true]
    rw [← ht]
  · simp [Flush.Conn.triggerWrite, System.triggerWrite, ht, h0]

theorem Live.pollerStep (hL : Live i s a l P p) (hb : s.world.bufs[i]? = some b)
    (h : s.pollerStep cfg i b r = some s') : Matched i s s' a (.poller r) := by
  obtain ⟨rest, hF⟩ := hL.focus hb
  have hstep : ∀ r a', Flush.pollerStep a r = some a' → Patient a' :=
    fun _ _ h => hL.patient.poller h
  obtain ⟨us, ha, hus⟩ := hL.poller.inv
  have hwriter : s.poller ≠ .idle → ∀ vs, s.writer ≠ .send vs := fun hp vs hv => by
    have hbusy : a.writer.busy = true := by
      rw [← hL.writer.busy_eq, hv]
      rfl
    exact hp (hL.poller.idle_iff.mpr (hL.patient.exact.busy hbusy).1)
  have hgoes : ∀ {pc : PollerPc Addr} {pc' : PollerPc UInt8} {a' : Flush.System UInt8},
    s.poller ≠ .idle → Patient a' →
      a' = { a with poller := pc' } → Polls pc pc' →
      (∀ us, pc = .send us → us <+: s.world.heap.content p.early) →
      Live i { s with poller := pc } a' l P p := by
    rintro pc pc' a' hp hpat rfl hpc hv
    exact hL.control rfl hpat rfl hL.flags hL.writer hpc
      (fun vs h => h.elim (fun h => absurd h (hwriter hp vs)) (hv vs)) (.inl (hL.busy (.inr hp)))
  cases hw : s.poller with
  | idle => simp [System.pollerStep, hw] at h
  | outputs =>
    have hp : s.poller ≠ .idle := by simp [hw]
    obtain ⟨hst, hback⟩ := hL.busy (.inr hp)
    replace ha : a.poller = .outputs := ha.trans (congrArg (pollerAt us) hw)
    by_cases h0 : b.length = 0
    · simp only [System.pollerStep, hw, if_pos h0, Option.some.injEq] at h
      have hempty := (hL.empty_iff hF hst).mp h0
      have hpat := hstep r { a with poller := .rw2r } (by simp [Flush.pollerStep, ha, hempty])
      subst h
      refine ⟨_, l, P, p, hgoes hp hpat rfl trivial (by simp), by simp [System.submits], ?_⟩
      cases r <;> simp [System.sends, hw]
    · obtain ⟨vs, hvs, hpre, hlen⟩ := hL.offers hF hback
      simp only [System.pollerStep, hw, if_neg h0, hvs, Option.map_some, Option.some.injEq] at h
      have hempty : a.conn.isEmpty = false := by
        simpa using fun he => h0 ((hL.empty_iff hF hst).mpr he)
      have hpat := hstep r { a with poller := .send a.conn.offered }
        (by simp [Flush.pollerStep, ha, hempty])
      subst h
      refine ⟨_, l, P, p, hgoes hp hpat rfl hlen (fun us hu => ?_), by simp [System.submits], ?_⟩
      · cases hu
        exact hpre
      · cases r <;> simp [System.sends, hw]
  | send vs =>
    have hp : s.poller ≠ .idle := by simp [hw]
    replace ha : a.poller = .send us := ha.trans (congrArg (pollerAt us) hw)
    have hshow := hus vs hw
    cases r with
    | ok n =>
      simp only [System.pollerStep, hw, Option.some.injEq] at h
      have hpat := hstep (.ok (min n vs.length)) { a with
        conn := a.conn.accept us (min n vs.length),
          poller := .ack (min (min n vs.length) us.length) }
        (by simp [Flush.pollerStep, ha])
      subst h
      refine ⟨_, l, P, p, hL.control rfl hpat rfl hL.flags hL.writer ?_ (fun us hv => ?_)
        (.inl (hL.busy (.inr hp))), by simp [System.submits, Flush.Conn.accept], ?_⟩
      · show min n vs.length = min (min n vs.length) us.length
        omega
      · exact absurd (hv.resolve_right (by simp)) (hwriter hp us)
      · show a.conn.kernel ++ us.take (min n vs.length) = _
        rw [← hL.look_take (hL.vector vs (.inr hw)) (hL.patient.exact.pollerSend us ha) hshow]
        simp [System.sends, hw]
    | fail e =>
      simp only [System.pollerStep, hw, Option.some.injEq] at h
      have hpat := hstep (.fail e) { a with poller := .ack 0 } (by simp [Flush.pollerStep, ha])
      subst h
      exact ⟨_, l, P, p,
        hgoes hp hpat rfl rfl (by simp), by simp [System.submits], by simp [System.sends]⟩
  | ack n =>
    have hp : s.poller ≠ .idle := by simp [hw]
    obtain ⟨hst, hback⟩ := hL.busy (.inr hp)
    replace ha : a.poller = .ack n := ha.trans (congrArg (pollerAt us) hw)
    obtain ⟨c, b', h', p', P', hskip, hack, hT, hget, hq, hback', hempty⟩ :=
      hL.acked hF hst hback (hL.patient.exact.pollerAck n ha) cfg
    simp only [System.pollerStep, hw, hack, Option.map_some, Option.some.injEq] at h
    have hpat := hstep r { a with
      conn := { a.conn with nodes := [c] }
      poller := if ({ a.conn with nodes := [c] } : Flush.Conn UInt8).isEmpty then .rw2r else .idle }
      (by simp only [Flush.pollerStep, ha, hskip, Option.getD_some])
    subst h
    refine ⟨_, _, P', p',
      ⟨hT, ⟨b', hget⟩, hpat, ?_, hL.active, hL.writable, hL.writeTrigger, hL.closer, hL.writer, ?_,
        fun vs hv => ?_, .inl ⟨?_, hback'⟩⟩, by simp [System.submits], ?_⟩
    · show [c] = [(h'.queue p').ready]
      rw [hq]
    · by_cases h0 : b'.length = 0
      · simp [h0, hempty.mp h0, Polls]
      · have : ({ a.conn with nodes := [c] } : Flush.Conn UInt8).isEmpty = false := by
          simpa using fun he => h0 (hempty.mpr he)
        simp [h0, this, Polls]
    · rcases hv with hv | hv
      · exact absurd hv (hwriter hp vs)
      · dsimp only at hv
        split_ifs at hv
    · show (h'.queue p').staged = []
      rw [hq]
    · cases r <;> simp [System.sends, hw]
  | rw2r =>
    have hp : s.poller ≠ .idle := by simp [hw]
    replace ha : a.poller = .rw2r := ha.trans (congrArg (pollerAt us) hw)
    simp only [System.pollerStep, hw, Option.some.injEq] at h
    have hpat := hstep r { a with conn.writable := false, poller := .trigger }
      (by simp [Flush.pollerStep, ha])
    subst h
    refine ⟨_, l, P, p, hL.control rfl hpat rfl ⟨hL.active, rfl, hL.writeTrigger, hL.closer⟩
      hL.writer trivial (fun us hv => ?_) (.inl (hL.busy (.inr hp))), by simp [System.submits], ?_⟩
    · exact absurd (hv.resolve_right (by simp)) (hwriter hp us)
    · cases r <;> simp [System.sends, hw]
  | trigger =>
    have hp : s.poller ≠ .idle := by simp [hw]
    obtain ⟨hconn, hsys⟩ := hL.triggers none
    replace ha : a.poller = .trigger := ha.trans (congrArg (pollerAt us) hw)
    simp only [System.pollerStep, hw, Option.some.injEq] at h
    have hpat := hstep r { a with conn := a.conn.triggerWrite none, poller := .idle }
      (by simp [Flush.pollerStep, ha])
    rw [hconn] at hpat
    rw [hsys] at h
    subst h
    refine ⟨_, l, P, p, hL.control rfl hpat rfl ⟨hL.active, hL.writable, rfl, hL.closer⟩ hL.writer
      trivial (fun us hv => ?_) (.inl (hL.busy (.inr hp))), by simp [System.submits], ?_⟩
    · exact absurd (hv.resolve_right (by simp)) (hwriter hp us)
    · cases r <;> simp [System.sends, hw]

theorem Live.away (hL : Live i s a l P p) (hact : s.active = true) (hidle : s.writer = .idle) :
    a.writer = .idle ∧ s.poller = .idle ∧ s.writable = false := by
  have ha : a.writer = .idle := hL.writer_eq hidle (by simp)
  obtain ⟨hp, hwr, -⟩ := hL.patient.apart (hL.active.trans hact) (by simp [ha])
  exact ⟨ha, hL.poller.idle_iff.mpr hp, hL.writable ▸ hwr⟩

theorem Live.queue_eq (hL : Live i s a l P p) :
    s.world.queues[i]? = some (s.world.heap.queue p) := by
  obtain ⟨b, hget⟩ := hL.get
  rw [hL.tidy.inv.queues_eq, List.getElem?_map, hget]
  rfl

theorem Live.call (hL : Live i s a l P p) (hb : s.world.bufs[i]? = some b)
    (hopen : b.write.isSome = true) (h : s.call cfg i b = some s') : Matched i s s' a .call := by
  obtain ⟨rest, hF⟩ := hL.focus hb
  by_cases hidle : s.writer = .idle
  · by_cases hact : s.active = true
    · obtain ⟨ha, hp, hwr⟩ := hL.away hact hidle
      have hback : p.back ≠ [] := fun he => by simp [(write_none hF.buffer he).1] at hopen
      obtain ⟨b', h', p', hfl, hback', hC⟩ := flush_spec hL.tidy hF hback cfg
      obtain ⟨hget, hq⟩ := hL.changed hC
      simp only [System.call, hidle, hact, hfl, ne_eq, not_true_eq_false, if_false, if_true,
        Option.map_some, Option.some.injEq] at h
      have hcall : Flush.step a (.call (s.world.heap.queue p).staged []) =
          some { a with
            conn := a.conn.submit (s.world.heap.queue p).staged [], writer := .flush } := by
        simp [Flush.step, ha, hL.active, hact]
      subst h
      refine ⟨_, _, P, p',
        ⟨hC.tidy, ⟨b', hget⟩, hL.patient.step rfl hcall, ?_, hL.active, hL.writable,
          hL.writeTrigger,
        hL.closer, trivial, hL.poller, fun vs hv => ?_, .inl ⟨?_, hback'⟩⟩, ?_,
        by simp [System.sends, Flush.Conn.submit]⟩
      · show a.conn.nodes.dropLast ++ (a.conn.nodes.getLastD [] ++ (s.world.heap.queue p).staged) ::
          [] = [(h'.queue p').ready]
        rw [hq, hL.nodes]
        rfl
      · rcases hv with hv | hv
        · cases hv
        · rw [show s.poller = _ from hv] at hp
          cases hp
      · show (h'.queue p').staged = []
        rw [hq]
      · simp [System.submits, hact, hL.queue_eq, Flush.Conn.submit]
    · have ha : a.writer = .idle := hL.writer_eq hidle (by simp)
      have hno : a.conn.active = false := by rw [hL.active]; simpa using hact
      have hcall : Flush.step a (.call [] []) =
        some { a with writer := .returned (some .connClosed) } := by
        simp [Flush.step, ha, hno]
      rw [System.call, if_neg (by simp [hidle]), if_neg hact, Option.some.injEq] at h
      subst h
      exact ⟨_, l, P, p, hL.writer_goes (hL.patient.step rfl hcall) rfl (by simp)
        (hL.settled.imp_right fun h => ⟨rfl, h.2⟩), by
        simp [System.submits, hact], by simp [System.sends]⟩
  · simp [System.call, hidle] at h

theorem Live.event (hL : Live i s a l P p) (h : s.step cfg i .event = some s') :
    Matched i s s' a .event := by
  simp only [System.step] at h
  split at h <;> cases h
  rename_i hev
  have hset := hL.settled.resolve_right fun h => by simp [h.2.2] at hev
  have ha : a.poller = .idle := hL.poller.idle_iff.mp hev.2
  have hstep : Flush.step a .event = some { a with poller := .outputs } := by
    simp [Flush.step, hL.writable, hev.1, ha]
  refine ⟨_, l, P, p, hL.control rfl (hL.patient.step rfl hstep) rfl hL.flags hL.writer trivial
    (fun vs hv => ?_) (.inl hset), by simp [System.submits], by simp [System.sends]⟩
  exact hL.vector vs (.inl (hv.resolve_right (by simp)))

theorem Live.close (hL : Live i s a l P p) (h : s.step cfg i .close = some s') :
    Matched i s s' a .close := by
  simp only [System.step] at h
  split at h <;> cases h
  rename_i hact
  have hstep : Flush.step a .close = some { a with conn.active := false, closer := true } := by
    simp [Flush.step, hL.active, hact]
  exact ⟨_, l, P, p,
    hL.control rfl (hL.patient.step rfl hstep) rfl ⟨rfl, hL.writable, hL.writeTrigger, rfl⟩
    hL.writer
    hL.poller hL.vector hL.settled, by simp [System.submits], by simp [System.sends]⟩

theorem Live.closeTrigger (hL : Live i s a l P p) (h : s.step cfg i .closeTrigger = some s') :
    Matched i s s' a .closeTrigger := by
  simp only [System.step] at h
  split at h <;> cases h
  rename_i hcl
  obtain ⟨hconn, hsys⟩ := hL.triggers (some .connClosed)
  have hstep : Flush.step a .closeTrigger =
      some { a with conn := a.conn.triggerWrite (some .connClosed), closer := false } := by
    simp [Flush.step, hL.closer, hcl]
  have hpat := hL.patient.step rfl hstep
  rw [hconn] at hpat
  rw [hsys]
  exact ⟨_, l, P, p, hL.control rfl hpat rfl ⟨hL.active, hL.writable, rfl, rfl⟩ hL.writer hL.poller
    hL.vector hL.settled, by simp [System.submits], by simp [System.sends]⟩

theorem length_serve {qs qs' : List (Queue UInt8)} {q : Request UInt8} {x : Option (List UInt8)}
    (hs : serve qs q = some (x, qs')) : qs.length ≤ qs'.length := by
  cases q with
  | new =>
    cases hs
    simp
  | outside xs =>
    cases hs
    exact le_rfl
  | call j c =>
    obtain ⟨y, -, hs⟩ := Option.bind_eq_some_iff.mp hs
    cases hs
    simp
  | split j n =>
    obtain ⟨y, -, hs⟩ := Option.bind_eq_some_iff.mp hs
    split_ifs at hs <;> cases hs <;> simp
  | append j k =>
    obtain ⟨y, -, hs⟩ := Option.bind_eq_some_iff.mp hs
    obtain ⟨z, -, hs⟩ := Option.bind_eq_some_iff.mp hs
    cases hs
    simp

theorem call_of_stages {x : Act} {o : Out} {c : Call UInt8} (hx : stages x = true)
    (hc : x.call b h h' o = some c) :
    (∃ k v, c = .put k v) ∨ (∃ xs, c = .stage xs) ∨ ∃ n, c = .trim n := by
  cases x with
  | fill _ _ =>
    cases hc
    exact .inl ⟨_, _, rfl⟩
  | malloc _ | writeBinary _ | writeString _ | writeByte _ =>
    cases hc
    exact .inr (.inl ⟨_, rfl⟩)
  | mallocAck _ =>
    cases hc
    exact .inr (.inr ⟨_, rfl⟩)
  | _ => cases hx

theorem ready_of_writesTo
    {op : Op} {o : Out} {q : Request UInt8} {qs : List (Queue UInt8)} {x : Option (List UInt8)}
    (hop : writesTo i op = true) (hq : op.request w w' o = some q) (hi : i < qs.length) :
    commits qs i q = [] ∧ takes qs i x q = [] ∧ q ≠ .call i .clear := by
  cases op with
  | new size | lend bs =>
    cases hq
    exact ⟨rfl, rfl, by simp⟩
  | slice j m =>
    cases hq
    have hj : j ≠ i := by simpa [writesTo] using hop
    simp [commits, takes, hj, Nat.ne_of_lt hi]
  | append j k =>
    cases hq
    have hk : k ≠ i := by simpa [writesTo] using hop
    simp [commits, takes, hk]
  | act j a =>
    obtain ⟨b, -, hq⟩ := Option.bind_eq_some_iff.mp hq
    obtain ⟨c, hc, rfl⟩ := Option.map_eq_some_iff.mp hq
    by_cases hj : j = i
    · have hget : qs[j]? = some qs[i] := by rw [hj, List.getElem?_eq_getElem hi]
      obtain ⟨k, v, rfl⟩ | ⟨xs, rfl⟩ | ⟨m, rfl⟩ :=
        call_of_stages (by simpa [writesTo, hj] using hop) hc <;>
        simp [commits, takes, hget, Queue.commits, Call.takes]
    · simp [commits, takes, hj]

theorem Live.user {op : Op} (hL : Live i s a l P p) (ha : s.allows i (.user op))
    (h : s.step cfg i (.user op) = some s') : Matched i s s' a (.user op) := by
  obtain ⟨hop, hwrites, huses⟩ := ha
  obtain ⟨o, w', l', P', hx, hS⟩ := hL.tidy.step cfg hop
  simp only [System.step, hx, Option.map_some, Option.some.injEq] at h
  obtain ⟨q, x, hq, hs, -⟩ := hS.served
  have hi : i < s.world.queues.length := (List.getElem?_eq_some_iff.mp hL.queue_eq).1
  obtain ⟨hcom, htak, hne⟩ := ready_of_writesTo (x := x) hwrites hq hi
  have hi' := hi.trans_le (length_serve hs)
  rw [hS.tidy.inv.queues_eq, List.length_map] at hi'
  have hget : l'[i]? = some l'[i] := List.getElem?_eq_getElem hi'
  have hqueue : w'.queues[i]? = some (w'.heap.queue l'[i].2) := by
    rw [hS.tidy.inv.queues_eq, List.getElem?_map, hget]
    rfl
  have hready : (w'.heap.queue l'[i].2).ready = (s.world.heap.queue p).ready := by
    have hcons : Conserved s.world.queues i (s.world.heap.queue p).ready [] := by
      simp [Conserved, hL.queue_eq]
    have := hcons.serve hne hs
    rw [hcom, htak] at this
    simpa [Conserved, hqueue] using this.symm
  subst h
  obtain ⟨b, hb⟩ := hL.get
  by_cases hu : op.uses i = true
  · obtain ⟨hact, hidle⟩ := huses hu
    obtain ⟨-, hp, hwr⟩ := hL.away hact hidle
    refine ⟨a, l', P', l'[i].2,
      ⟨hS.tidy, ⟨l'[i].1, hget⟩, hL.patient, ?_, hL.active, hL.writable, hL.writeTrigger, hL.closer,
        hL.writer, hL.poller, fun vs hv => ?_, .inr ⟨?_, hp, hwr⟩⟩,
      by simp [System.submits], by simp [System.sends]⟩
    · rw [hL.nodes, hready]
    · simp [hidle, hp] at hv
    · show s.writer.outside = true
      rw [hidle]
      rfl
  · have hu : op.uses i = false := by simpa using hu
    obtain ⟨hl', hbare⟩ := hS.others i _ hu hb
    have hleaves : q.leaves i := by
      refine Op.leaves_of_spares (q := fun j => j == i) ?_ (by simp) hq
      cases op <;> simp_all [Op.spares, Op.uses]
    have hstaged := serve_staged hleaves hi hs
    have he : l'[i] = (b, p) := Option.some.inj (hget.symm.trans hl')
    rw [he] at hready hqueue
    rw [hqueue, hL.queue_eq, Option.map_some, Option.map_some, Option.some.injEq] at hstaged
    have hcontent : w'.heap.content p.early = s.world.heap.content p.early :=
      Heap.content_bare fun k hk =>
      hbare k (Parts.mem_all_of_live (Parts.mem_live_of_early hk))
    refine ⟨a, l', P', p,
      ⟨hS.tidy, ⟨b, hl'⟩, hL.patient, by rw [hL.nodes, hready], hL.active, hL.writable,
        hL.writeTrigger, hL.closer, hL.writer, hL.poller, fun vs hv => ?_,
        hL.settled.imp_left fun h => ⟨?_, h.2⟩⟩,
      by simp [System.submits], by simp [System.sends]⟩
    · rw [hcontent]
      exact hL.vector vs hv
    · exact hstaged.trans h.1

theorem Live.step {e : Event} (hL : Live i s a l P p) (ha : s.allows i e)
    (h : s.step cfg i e = some s') :
    Matched i s s' a e := by
  cases e with
  | user op => exact hL.user ha h
  | call =>
    obtain ⟨b, hb, h⟩ := Option.bind_eq_some_iff.mp h
    have hopen : b.write.isSome = true := by simpa [System.allows, hb] using ha
    exact hL.call hb hopen h
  | writer r =>
    obtain ⟨b, hb, h⟩ := Option.bind_eq_some_iff.mp h
    exact hL.writerStep hb h
  | event => exact hL.event h
  | poller r =>
    obtain ⟨b, hb, h⟩ := Option.bind_eq_some_iff.mp h
    exact hL.pollerStep hb h
  | close => exact hL.close h
  | closeTrigger => exact hL.closeTrigger h

/-- A run of a connection whose output buffer `i` is new: `submitted` has been flushed, and the
kernel has taken `kernel`. -/
inductive Sends (cfg : Config) (i : Nat) : System → List UInt8 → List UInt8 → Prop
  | init {mem : Nat → Nat → UInt8} {picks : Nat → Nat} {w w' : World} {o : Out} :
      Reach (World.step cfg) World.Orderly (World.start mem picks) w → i = w.bufs.length →
      w.exec cfg (.new 0) = some (o, w') → Sends cfg i (.init w') [] []
  | step {s s' : System} {submitted kernel : List UInt8} (e : Event) :
      Sends cfg i s submitted kernel → s.allows i e → s.step cfg i e = some s' →
      Sends cfg i s' (submitted ++ s.submits i e) (kernel ++ s.sends e)

theorem Sends.live {submitted kernel : List UInt8} (hs : Sends cfg i s submitted kernel) :
    ∃ a l P p, Live i s a l P p ∧ a.conn.submitted = submitted ∧ a.conn.kernel = kernel := by
  induction hs with
  | @init mem picks w w' o hw hi hx =>
    obtain ⟨l, P, hT⟩ := tidy_run hw
    obtain ⟨b, h', p, hnew, hT', -, hq, -, -, hback, -⟩ :=
      hT.add_new cfg (.new 0) rfl 0
    have hw' : w' = ⟨h', w.bufs ++ [b]⟩ := by
      simp only [World.exec, hnew, Option.some.injEq, Prod.mk.injEq] at hx
      exact hx.2.symm
    subst hw'
    have hlen : l.length = w.bufs.length := by rw [hT.inv.bufs, List.length_map]
    have hget : (l ++ [(b, p)])[i]? = some (b, p) := by rw [hi, ← hlen]; simp
    have hqueue : h'.queue p = ⟨[], []⟩ := by
      have hlast : (w.queues ++ [⟨[], []⟩])[i]? = some ⟨[], []⟩ := by
        rw [hi, ← World.length_queues]
        simp
      rw [← hq, hT'.inv.queues_eq, List.getElem?_map, hget] at hlast
      exact Option.some.inj hlast
    refine ⟨Flush.init, _, P, p, ⟨hT', ⟨b, hget⟩, .init, ?_, rfl, rfl, rfl, rfl, trivial, trivial,
      by simp [System.init], .inl ⟨?_, hback⟩⟩, rfl, rfl⟩
    · show [[]] = [(h'.queue p).ready]
      rw [hqueue]
    · show (h'.queue p).staged = []
      rw [hqueue]
  | step e _ ha h ih =>
    obtain ⟨a, l, P, p, hL, rfl, rfl⟩ := ih
    obtain ⟨a', l', P', p', hL', hsub, hker⟩ := hL.step ha h
    exact ⟨a', l', P', p', hL', hsub, hker⟩

theorem Live.sent (hL : Live i s a l P p) (hb : s.world.bufs[i]? = some b) :
    a.conn.submitted =
        a.conn.kernel ++ (s.world.heap.look (b.readable s.world.heap)).drop s.sent ∧
      (∀ vs, s.writer = .send vs ∨ s.poller = .send vs → vs <+: b.readable s.world.heap) ∧
      (s.writer.busy = true → s.poller = .idle) ∧
      (s.writer = .returned none → a.conn.kernel = a.conn.submitted) := by
  obtain ⟨rest, hF⟩ := hL.focus hb
  have hread := hF.buffer.readable_eq hF.safe
  have hbytes : a.conn.bytes = s.world.heap.look (b.readable s.world.heap) := by
    rw [hL.bytes, hread]; rfl
  have hstream : a.conn.submitted = a.conn.kernel ++ a.conn.bytes.drop s.sent := by
    rw [hL.patient.exact.stream, rest_eq hL.writer hL.poller]
    rfl
  refine ⟨hbytes ▸ hstream, hread ▸ hL.vector, fun hbusy => ?_, fun hret => ?_⟩
  · have hidle := (hL.patient.exact.busy (hL.writer.busy_eq ▸ hbusy)).1
    exact hL.poller.idle_iff.mpr hidle
  · have hnil := hL.patient.exact.returned (hL.writer_eq hret (by simp))
    rw [hstream, hnil, List.drop_nil, List.append_nil]

end Netpoll.OutputStream
