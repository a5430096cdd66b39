import Netpoll.Nocopy.Book
import Netpoll.Nocopy.Lease
import Netpoll.Nocopy.Lifetime

/-! What connections receive.  The poller books room in the input buffers, the kernel stores into
it, and the poller acknowledges what has been stored, while the users of all buffers go on. -/

namespace Netpoll.InputStream

open Netpoll.Lib Netpoll.Lib.Memory Netpoll.Lib.Transition Netpoll.Lib.Staged Netpoll.Nocopy

variable {w w' : World} {l l' rest : Layout} {P P' : Nat → Prop} {h h' : Heap} {b b' : LinkBuffer}
  {p p' : Parts} {c i j k n size : Nat} {cfg : Config} {o : Out} {op : Op} {bs : List UInt8}
  {mem : Nat → Nat → UInt8} {picks : Nat → Nat}

/-- What a connection keeps of the sizes that it books, what it has booked, and the bytes that the
kernel has stored there. -/
structure Side where
  bookSize : Nat
  maxSize : Nat
  booked : Option (Slice × List UInt8) := none
  deriving DecidableEq, Repr

namespace Side

def len (x : Side) : Nat := x.booked.elim 0 (·.1.len)

def cells (x : Side) : List Addr := x.booked.elim [] (·.1.cells)

def data (x : Side) : List UInt8 := x.booked.elim [] (·.2)

def inputAck (x : Side) (b : LinkBuffer) (h : Heap) (n : Nat) : Option (Side × LinkBuffer × Heap) :=
  if n = 0 then do
    let (b, h) ← b.bookAck h 0
    return ({ x with booked := none }, b, h)
  else do
    let bookSize := if n = x.bookSize ∧ x.bookSize < mallocMax then x.bookSize * 2 else x.bookSize
    let (b, h) ← b.bookAck h n
    let maxSize := if x.maxSize < b.length then b.length.toNat else x.maxSize
    let maxSize := if mallocMax < maxSize then mallocMax else maxSize
    return (⟨bookSize, maxSize, none⟩, b, h)

/-- What `Release` does between `operator.do` and `operator.done`.  It has found the buffer empty
before `operator.do`, and bytes may have come since. -/
def release (x : Side) (cfg : Config) (b : LinkBuffer) (h : Heap) :
    Option (Side × LinkBuffer × Heap) := do
  let maxSize ← b.calcMaxSize h
  let maxSize := if mallocMax < maxSize then mallocMax else maxSize
  let maxSize := if x.maxSize < maxSize then maxSize else x.maxSize
  let (b, h) ← if b.length = 0 then b.resetTail h cfg maxSize else some (b, h)
  return ({ x with maxSize := maxSize }, b, h)

end Side

structure System where
  world : World
  side : Nat → Option Side

inductive Event
  | user (op : Op)
  | init
  | inputs (i : Nat)
  | readv (i : Nat) (data : List UInt8)
  | inputAck (i : Nat)
  | release (i : Nat)
  | closeBuffer (i : Nat)
  deriving DecidableEq, Repr

namespace System

def start (mem : Nat → Nat → UInt8) (picks : Nat → Nat) :
    System := ⟨.start mem picks, fun _ => none⟩

def put (s : System) (i : Nat) (x : Side × LinkBuffer × Heap) : System :=
  ⟨⟨x.2.2, s.world.bufs.set i x.2.1⟩, Function.update s.side i (some x.1)⟩

def exec (cfg : Config) (size : Nat) (s : System) : Event → Option (Out × System)
  | .user op => (s.world.exec cfg op).map fun (o, w) => (o, { s with world := w })
  | .init => (s.world.exec cfg (.new size)).map fun (o, w) =>
    (o, ⟨w, Function.update s.side s.world.bufs.length (some ⟨size, size, none⟩)⟩)
  | .inputs i => do
    let x ← s.side i
    let b ← s.world.bufs[i]?
    let (p, b, h) ← b.book s.world.heap cfg x.bookSize x.maxSize
    return (.bytes p, s.put i ({ x with booked := some (p, []) }, b, h))
  | .readv i data => do
    let x ← s.side i
    let b ← s.world.bufs[i]?
    let (p, _) ← x.booked
    return (.count data.length,
      s.put i ({ x with booked := some (p, data) }, b, s.world.heap.copy p data))
  | .inputAck i => do
    let x ← s.side i
    let b ← s.world.bufs[i]?
    let r ← x.inputAck b s.world.heap x.data.length
    return (.done, s.put i r)
  | .release i => do
    let x ← s.side i
    let b ← s.world.bufs[i]?
    let r ← x.release cfg b s.world.heap
    return (.done, s.put i r)
  | .closeBuffer i => (s.world.exec cfg (.act i .close)).map fun (o, w) =>
    (o, ⟨w, Function.update s.side i none⟩)

def step (cfg : Config) (size : Nat) (s : System) (e : Event) :
    Option System := (s.exec cfg size e).map (·.2)

/-- Users read from input buffers, and write to others.  The operator keeps the poller from booking
again before the acknowledgement, and `Release` and `closeBuffer` from what the poller does. -/
def allows (s : System) : Event → Prop
  | .user op => s.world.Orderly op ∧ op.spares fun i => (s.side i).isSome
  | .init => True
  | .inputs i | .release i | .closeBuffer i => (s.side i).any fun x => x.booked.isNone
  | .readv i data => (s.side i).any fun x => x.booked.any fun y =>
    y.2.isEmpty && decide (data.length ≤ y.1.len)
  | .inputAck i => (s.side i).any fun x => x.booked.isSome

instance (s : System) : DecidablePred s.allows
  | .user op => inferInstanceAs (Decidable (s.world.Orderly op ∧ _))
  | .init => inferInstanceAs (Decidable True)
  | .inputs _ | .release _ | .closeBuffer _ | .readv _ _
  | .inputAck _ => inferInstanceAs (Decidable (_ = true))

def counts (s : System) (i : Nat) : Nat := (s.side i).elim 0 Side.len

def ready (s : System) (i : Nat) : List UInt8 := (s.world.queues[i]?).elim [] (·.ready)

def acked (s : System) (i : Nat) : Event → List UInt8
  | .inputAck j => if j = i then (s.side j).elim [] Side.data else []
  | _ => []

def took (s : System) (i : Nat) (o : Out) (s' : System) : Event → List UInt8
  | .user op => s.world.reads i o s'.world op
  | _ => []

end System

variable {s s' : System} {e : Event} {x x' : Side}

structure Side.Holds (x : Side) (h : Heap) (p : Parts) (size : Nat) : Prop where
  booked : ∃ c, Booked h p c x.cells
  stored : x.data <+: (h.queue p).staged
  len_pos : x.booked ≠ none → 0 < x.len
  len_le : x.len ≤ x.bookSize
  bookSize : 0 < x.bookSize ∧ x.bookSize ≤ max size (2 * mallocMax)
  maxSize : 0 < x.maxSize ∧ x.maxSize ≤ max size mallocMax

structure Live (size : Nat) (s : System) (l : Layout) (P : Nat → Prop) : Prop where
  tidy : Tidy (s.world.booking s.counts) l P
  side : ∀ i x, s.side i = some x → ∃ b p, l[i]? = some (b, p) ∧ x.Holds s.world.heap p size

/-- What the users have got from `Next` is still there after the event. -/
def System.retains (s : System) (i : Nat) (o : Out) : Event → Bool
  | .user op => !op.acks && s.world.retains i o op
  | .closeBuffer j => j != i
  | _ => true

structure Passed (s s' : System) (l l' : Layout) (P P' : Nat → Prop) (e : Event) (o : Out) :
    Prop where
  lease : ∀ i q, s.retains i o e → Lease s.world.heap l P i q → Lease s'.world.heap l' P' i q
  calls : ∀ op, e = .user op → op.hands s'.world.heap l' P' o ∧
    ∃ q r, op.request s.world s'.world o = some q ∧
      serve s.world.queues q = some (r, s'.world.queues) ∧ o.agrees s'.world.heap r
  flushed : (∀ i j, e ≠ .user (.append i j)) → l.Flushed s.world.heap → l'.Flushed s'.world.heap

structure Moves (size : Nat) (s s' : System) (l l' : Layout) (P P' : Nat → Prop) (e : Event)
    (o : Out) : Prop where
  live : Live size s' l' P'
  passed : Passed s s' l l' P P' e o
  side : ∀ i, s.side i ≠ none → e ≠ .closeBuffer i → s'.side i ≠ none
  ready : ∀ i, s.side i ≠ none → e ≠ .closeBuffer i →
    s.ready i ++ s.acked i e = s.took i o s' e ++ s'.ready i

theorem Side.Holds.mono (hx : x.Holds h p size) (hb : ∃ c, Booked h' p' c x.cells)
    (hq : (h'.queue p').staged = (h.queue p).staged) : x.Holds h' p' size :=
  { hx with
    booked := hb
    stored := hq ▸ hx.stored }

theorem Side.length_cells (x : Side) : x.cells.length = x.len := by
  cases hx : x.booked <;> simp [Side.cells, Side.len, hx, Slice.cells]

theorem Live.lt (hL : Live size s l P) (hx : s.side i = some x) : i < l.length := by
  obtain ⟨b, p, hi, -⟩ := hL.side i x hx
  exact (List.getElem?_eq_some_iff.mp hi).1

theorem Live.length_eq (hL : Live size s l P) : l.length = s.world.bufs.length := by
  have := congrArg List.length hL.tidy.inv.bufs
  simpa [World.booking] using this.symm

theorem Live.count_new (hL : Live size s l P) : s.counts s.world.bufs.length = 0 := by
  cases hx : s.side s.world.bufs.length with
  | none => simp [System.counts, hx]
  | some x =>
    have := hL.lt hx
    rw [hL.length_eq] at this
    omega

theorem Live.get (hL : Live size s l P) (hx : s.side i = some x) :
    ∃ b p rest, s.world.bufs[i]? = some b ∧ Focus (s.world.booking s.counts) l rest i
      (b.booking x.len) p P ∧
    Queued s.world.heap (b.booking x.len) p rest.nodes rest.kept P ∧
    x.Holds s.world.heap p size := by
  obtain ⟨b₁, p, hi, hh⟩ := hL.side i x hx
  have hlt := hL.lt hx
  rw [hL.length_eq] at hlt
  have hb : s.world.bufs[i]? = some s.world.bufs[i] := List.getElem?_eq_getElem hlt
  obtain ⟨q, rest, hF⟩ := hL.tidy.inv.focus (i := i) (b := s.world.bufs[i].booking x.len)
    (by simp [hb, System.counts, hx])
  obtain rfl : p = q := by
    have := hF.get
    rw [hi] at this
    simp only [Option.some.injEq, Prod.mk.injEq] at this
    exact this.2
  exact ⟨_, p, rest, hb, hF, hL.tidy.queued hF, hh⟩

theorem counts_put (s : System) (i : Nat) (y : Side × LinkBuffer × Heap) :
    (s.put i y).counts = Function.update s.counts i y.1.len := by
  funext j
  by_cases hj : j = i
  · subst hj
    simp [System.counts, System.put]
  · simp [System.counts, System.put, hj]

theorem Side.Holds.others
    {x : Side} (hI : Inv w l P) (hI' : Inv w' l' P') (hx : x.Holds w.heap p size)
    (hl : l[j]? = some (b, p)) (hl' : l'[j]? = some (b, p))
    (hn : ∀ k ∈ p.all, (w'.heap.nodes k).bare = (w.heap.nodes k).bare)
    (hq : w'.queues[j]? = w.queues[j]?) : x.Holds w'.heap p size := by
  obtain ⟨c, hk⟩ := hx.booked
  refine hx.mono ⟨c, hk.of_bare hn⟩ ?_
  rw [hI.queues_eq, hI'.queues_eq, List.getElem?_map, List.getElem?_map, hl, hl'] at hq
  exact congrArg Queue.staged (Option.some.inj hq)

theorem Live.put {q : Queue UInt8} (hL : Live size s l P) (hi : i < l.length)
    (hC : Changed (s.world.booking s.counts)
      ⟨h', (s.world.booking s.counts).bufs.set i (b'.booking x.len)⟩ l
        (l.set i (b'.booking x.len, p')) P' i q) (hx : x.Holds h' p' size) :
    Live size (s.put i (x, b', h')) (l.set i (b'.booking x.len, p')) P' where
  tidy := by
    rw [counts_put]
    have := World.booking_set (w := s.world) (g := s.counts) h' i x.len b'
    rw [System.put, this]
    exact hC.tidy
  side j y hy := by
    by_cases hj : j = i
    · subst hj
      obtain rfl : x = y := by simpa [System.put] using hy
      exact ⟨_, p', List.getElem?_set_self hi, hx⟩
    · obtain ⟨b, p, hl, hh⟩ := hL.side j y (by simpa [System.put, hj] using hy)
      obtain ⟨hl', hbare⟩ := hC.others j _ hj hl
      have hh' := Side.Holds.others hL.tidy.inv hC.tidy.inv hh hl hl' hbare
        (by rw [hC.queues, List.getElem?_set_ne (Ne.symm hj)])
      exact ⟨b, p, hl', hh'⟩

theorem Live.moves {q : Queue UInt8} (hL : Live size s l P) (hi : i < l.length)
    (hC : Changed (s.world.booking s.counts)
      ⟨h', (s.world.booking s.counts).bufs.set i (b'.booking x.len)⟩ l
        (l.set i (b'.booking x.len, p')) P' i q)
        (hx : x.Holds h' p' size) (hq : q.ready = s.ready i ++ s.acked i e)
    (hp : Passed s (s.put i (x, b', h')) l (l.set i (b'.booking x.len, p')) P P' e o)
    (he : ∀ j, j ≠ i → s.acked j e = []) (ht : ∀ j, s.took j o (s.put i (x, b', h')) e = []) :
    Moves size s (s.put i (x, b', h')) l (l.set i (b'.booking x.len, p')) P P' e o := by
  refine ⟨hL.put hi hC hx, hp, fun j hj _ => ?_, fun j _ _ => ?_⟩
  · by_cases hji : j = i <;> simp [System.put, hji, hj]
  have hqs : (s.put i (x, b', h')).world.queues = s.world.queues.set i q := by
    have hput := World.queues_booking (w := (s.put i (x, b', h')).world)
      (g := Function.update s.counts i x.len)
    rw [System.put, World.booking_set, hC.queues, World.queues_booking] at hput
    exact hput.symm
  have hlen : i < s.world.queues.length := by
    rwa [World.length_queues, ← hL.length_eq]
  rw [ht, List.nil_append, System.ready, System.ready, hqs]
  by_cases hj : j = i
  · subst hj
    rw [List.getElem?_set_self hlen, Option.elim_some, hq]
    rfl
  · rw [List.getElem?_set_ne (Ne.symm hj), he j hj, List.append_nil]

theorem Live.ready_eq (hL : Live size s l P) (hi : l[i]? = some (b, p)) :
    s.ready i = (s.world.heap.queue p).ready := by
  rw [System.ready, ← World.queues_booking (g := s.counts), hL.tidy.inv.queues_eq,
    List.getElem?_map, hi]
  rfl

/-- The poller changes the buffer as `a` does. -/
theorem Passed.served {a : Act} {c : Call UInt8} {o' : Out} (hL : Live size s l P)
    (hF : Focus (s.world.booking s.counts) l rest i b p P)
    (ha : a.splits = false ∧ a.acks = false ∧ a.retains = true)
    (hS : Served s.world.heap h' b b' p p' a rest.nodes rest.kept P P' c o')
    (hh : s'.world.heap = h') (he : ∀ op, e ≠ .user op) :
    Passed s s' l (l.set i (b', p')) P P' e o where
  lease _ _ _ hl := hh ▸ hS.lease hL.tidy hF ha.1 ha.2.1 ha.2.2 hl
  calls op hop := absurd hop (he op)
  flushed _ hf := hh ▸ hS.flushed hF hf

theorem Side.len_none (hx : x.booked = none) : x.len = 0 ∧ x.cells = [] ∧ x.data = [] := by
  simp [Side.len, Side.cells, Side.data, hx]

variable (cfg) in
theorem Live.inputs (hL : Live size s l P) (hx : s.side i = some x) (hn : x.booked = none) :
    ∃ o s' l' P', s.exec cfg size (.inputs i) = some (o, s') ∧ Moves size s s' l l' P P'
      (.inputs i) o := by
  obtain ⟨b, p, rest, hb, hF, hQ, hh⟩ := hL.get hx
  obtain ⟨c, hk⟩ := hh.booked
  rw [(Side.len_none hn).1, LinkBuffer.booking_zero] at hF hQ
  rw [(Side.len_none hn).2.1] at hk
  obtain ⟨r, b', h', p', c', hbook, hpos, hle, hk', -, hS⟩ :=
    hQ.book hk cfg hh.bookSize.1 hh.maxSize.1
  refine ⟨.bytes r, _, _, P, by simp [System.exec, hx, hb, hbook],
    hL.moves (x := { x with booked := some (r, []) }) (hL.lt hx) (hS.changed hL.tidy hF rfl)
      ⟨⟨c', hk'⟩, List.nil_prefix, fun _ => hpos, hle, hh.bookSize, hh.maxSize⟩ ?_
      (.served hL hF ⟨rfl, rfl, rfl⟩ hS rfl (by simp)) (fun _ _ => rfl) fun _ => rfl⟩
  obtain ⟨a, hr, -⟩ := hS.run
  rw [hL.ready_eq hF.get, ← congrArg (·.2.ready) hr]
  exact (List.append_nil _).symm

theorem Changed.set_same {q : Queue UInt8} (hC : Changed w ⟨h', w.bufs⟩ l l P' i q)
    (hi : l[i]? = some (b, p)) (hI : Inv w l P) :
    Changed w ⟨h', w.bufs.set i b⟩ l (l.set i (b, p)) P' i q := by
  have hb : w.bufs[i]? = some b := by
    rw [hI.bufs, List.getElem?_map, hi]
    rfl
  rw [set_self hb, set_self hi]
  exact hC

variable (cfg) in
theorem Live.readv {y : Slice × List UInt8} (hL : Live size s l P) (hx : s.side i = some x)
    (hy : x.booked = some y) (hlen : bs.length ≤ y.1.len) :
    ∃ o s' l' P', s.exec cfg size (.readv i bs) = some (o, s') ∧ Moves size s s' l l' P P'
      (.readv i bs) o := by
  obtain ⟨b, p, rest, hb, hF, -, hh⟩ := hL.get hx
  obtain ⟨c, hk⟩ := hh.booked
  have hcells : x.cells = y.1.cells := by simp [Side.cells, hy]
  have hxlen : x.len = y.1.len := by simp [Side.len, hy]
  rw [hcells] at hk
  rw [hxlen] at hF
  have hC := Changed.copy hL.tidy hF.get hk hlen
  have hq := hC.queue_eq hF.get
  refine ⟨.count bs.length, _, _, P, by simp [System.exec, hx, hb, hy],
    hL.moves (x := { x with booked := some (y.1, bs) }) (hL.lt hx)
      (Changed.set_same hC hF.get hL.tidy.inv) ⟨⟨c, hk.of_bare fun _ _ => rfl⟩, ?_, fun _ => ?_, ?_,
        hh.bookSize, hh.maxSize⟩ ?_ ⟨fun j q _ hl => ?_, fun op hop => ?_, fun _ hf => ?_⟩
        (fun _ _ => rfl) fun _ => rfl⟩
  · exact hq ▸ List.prefix_append _ _
  · exact (hxlen ▸ hh.len_pos (by simp [hy]) : 0 < y.1.len)
  · exact (hxlen ▸ hh.len_le : y.1.len ≤ x.bookSize)
  · rw [hL.ready_eq hF.get]
    exact (List.append_nil _).symm
  · exact (set_self hF.get).symm ▸ hl
  · cases hop
  · exact (set_self hF.get).symm ▸ hf

theorem Side.inputAck_eq (hh : x.Holds h p size) (hack : b.bookAck h n = some (b', h')) :
    ∃ x', x.inputAck b h n = some (x', b', h') ∧ x'.booked = none ∧
      (0 < x'.bookSize ∧ x'.bookSize ≤ max size (2 * mallocMax)) ∧ 0 < x'.maxSize ∧
      x'.maxSize ≤ max size mallocMax := by
  have hbook := hh.bookSize
  have hmax := hh.maxSize
  by_cases h0 : n = 0
  · subst h0
    exact ⟨{ x with booked := none }, by simp [Side.inputAck, hack], rfl, hbook, hmax⟩
  · refine ⟨_, by rw [Side.inputAck, if_neg h0, hack]; rfl, rfl, ?_, ?_⟩
    · simp only
      split_ifs <;> omega
    · simp only [mallocMax] at hmax ⊢
      split_ifs <;> omega

variable (cfg) in
theorem Live.inputAck (hL : Live size s l P) (hx : s.side i = some x) :
    ∃ o s' l' P', s.exec cfg size (.inputAck i) = some (o, s') ∧ Moves size s s' l l' P P'
      (.inputAck i) o := by
  obtain ⟨b, p, rest, hb, hF, hQ, hh⟩ := hL.get hx
  obtain ⟨c, hk⟩ := hh.booked
  have hlen : x.data.length ≤ x.cells.length := by
    have := hh.stored.length_le
    rwa [hk.staged, Heap.look, length_look] at this
  obtain ⟨x', hack, hnone, hbook, hmax⟩ := Side.inputAck_eq hh (hQ.bookAck_eq hk hlen)
  have hS := hQ.trim hk x.length_cells.symm hlen
  have hC := hS.changed hL.tidy hF rfl
  have hget : (l.set i (b.booking x.data.length, p))[i]? = some (b.booking x.data.length, p) :=
    List.getElem?_set_self (hL.lt hx)
  obtain ⟨q, rest', hF'⟩ :=
    hC.tidy.inv.focus (i := i) (by rw [hC.tidy.inv.bufs, List.getElem?_map, hget]; rfl)
  obtain rfl : p = q := by
    have := hF'.get
    rw [hget] at this
    simp only [Option.some.injEq, Prod.mk.injEq, true_and] at this
    exact this
  have hk' := hQ.trimmed hk hlen
  obtain ⟨hS', hk''⟩ := (hC.tidy.queued hF').bookFlush hk' (by simp [hlen])
  have hC' := hC.trans (hS'.changed hC.tidy hF' rfl)
  have hlease := fun j q (hl : Lease s.world.heap l P j q) => hS'.lease hC.tidy hF' rfl rfl rfl
    (hS.lease_of_like hL.tidy hF rfl rfl (hQ.stopsAt hk hlen).like hl)
  have hflushed := fun hf : l.Flushed s.world.heap => hS'.flushed hF' (hS.flushed hF hf)
  rw [List.set_set] at hlease hflushed
  rw [List.set_set, List.set_set] at hC'
  have hzero := Side.len_none hnone
  rw [← LinkBuffer.booking_zero (b := LinkBuffer.recalLen _ _), ← hzero.1] at hC' hlease hflushed
  refine ⟨.done, _, _, P, by simp [System.exec, hx, hb, hack], hL.moves (hL.lt hx) hC'
    ⟨⟨c, hzero.2.1 ▸ hk''⟩, hzero.2.2 ▸ List.nil_prefix, fun hne => absurd hnone hne, by omega,
      hbook, hmax⟩ ?_
    ⟨fun j q _ => hlease j q, fun op hop => (by cases hop), fun _ => hflushed⟩
    (fun j hj => if_neg (Ne.symm hj)) fun _ => rfl⟩
  obtain ⟨r, hr, -⟩ := hS.run
  obtain ⟨r', hr', -⟩ := hS'.run
  have htrim : _ = (s.world.heap.trim c x.data.length).queue p := congrArg Prod.snd hr
  have hneg : ¬ (x.data.length : Int) < 0 := by omega
  rw [Queue.run, if_neg hneg, Int.toNat_natCast, ← List.prefix_iff_eq_take.mp hh.stored] at htrim
  rw [← congrArg (·.2.ready) hr', ← htrim, hL.ready_eq hF.get]
  simp [Queue.run, System.acked, hx]

theorem Side.release_spec
    {U : List Nat} {K : List Slice} (hQ : Queued h b p U K P) (hk : Booked h p c [])
    (hmax : 0 < x.maxSize ∧ x.maxSize ≤ max size mallocMax) (cfg : Config) :
    ∃ m b' h' p' c', x.release cfg b h = some ({ x with maxSize := m }, b', h') ∧
      (0 < m ∧ m ≤ max size mallocMax) ∧ Booked h' p' c' [] ∧
      Served h h' b b' p p' .flush U K P P .commit .done := by
  obtain ⟨r, -, hcalc⟩ := hQ.calcMaxSize hk
  generalize h.filled p.old + (h.nodes r).buf.len = sum at hcalc
  obtain ⟨m, hm, hle⟩ : ∃ m, (if x.maxSize < (if mallocMax < sum then mallocMax else sum) then
      if mallocMax < sum then mallocMax else sum else x.maxSize) = m ∧
      0 < m ∧ m ≤ max size mallocMax := by
    refine ⟨_, rfl, ?_⟩
    split_ifs <;> omega
  by_cases h0 : b.length = 0
  · obtain ⟨b', h', p', c', hreset, hk', hS⟩ := hQ.resetTail hk cfg m
    refine ⟨m, b', h', p', c', ?_, hle, hk', hS⟩
    simp only [Side.release, if_pos h0, hcalc, Option.bind_eq_bind, Option.bind_some, hm, hreset,
      Option.pure_def]
  · refine ⟨m, b, h, p, c, ?_, hle, hk, hQ.stay (r := some []) ?_ (by simp [Out.agrees])
      trivial⟩
    · simp only [Side.release, if_neg h0, hcalc, Option.bind_eq_bind, Option.bind_some, hm,
        Option.pure_def]
    · simp [Queue.run, Heap.queue, hk.later]

variable (cfg) in
theorem Live.release (hL : Live size s l P) (hx : s.side i = some x) (hn : x.booked = none) :
    ∃ o s' l' P', s.exec cfg size (.release i) = some (o, s') ∧ Moves size s s' l l' P P'
      (.release i) o := by
  obtain ⟨b, p, rest, hb, hF, hQ, hh⟩ := hL.get hx
  obtain ⟨c, hk⟩ := hh.booked
  have hzero := Side.len_none hn
  rw [hzero.1, LinkBuffer.booking_zero] at hF hQ
  rw [hzero.2.1] at hk
  obtain ⟨m, b', h', p', c', hrel, hmax, hk', hS⟩ := Side.release_spec hQ hk hh.maxSize cfg
  have hC := hS.changed hL.tidy hF rfl
  have hzero' := Side.len_none (x := { x with maxSize := m }) hn
  have hP : Passed s (s.put i ({ x with maxSize := m }, b', h')) l
      (l.set i (b'.booking ({ x with maxSize := m } : Side).len, p')) P P (.release i) .done := by
    rw [hzero'.1, LinkBuffer.booking_zero]
    exact .served hL hF ⟨rfl, rfl, rfl⟩ hS rfl (by simp)
  rw [← LinkBuffer.booking_zero (b := b'), ← hzero'.1] at hC
  refine ⟨.done, _, _, P, by simp [System.exec, hx, hb, hrel], hL.moves (hL.lt hx) hC
    ⟨⟨c', hzero'.2.1 ▸ hk'⟩, hzero'.2.2 ▸ List.nil_prefix, fun hne => absurd hn hne, by omega,
      hh.bookSize, hmax⟩ ?_ hP (fun _ _ => rfl) fun _ => rfl⟩
  obtain ⟨r, hr, -⟩ := hS.run
  rw [← congrArg (·.2.ready) hr, hL.ready_eq hF.get]
  simp [Queue.run, hk.staged, System.acked]

theorem Live.counts_of_none (s : System) (i : Nat) (hi : (s.side i).isSome = false) :
    s.counts i = 0 := by
  cases hx : s.side i with
  | none => simp [System.counts, hx]
  | some x => simp [hx] at hi

variable (cfg) in
theorem Live.user (hL : Live size s l P) (ha : s.allows (.user op)) :
    ∃ o s' l' P', s.exec cfg size (.user op) = some (o, s') ∧ Moves size s s' l l' P P'
      (.user op) o := by
  obtain ⟨hop, hsp⟩ := ha
  have hzero := Live.counts_of_none s
  obtain ⟨o, w₁, l', P', hx, hS⟩ := hL.tidy.step cfg (World.orderly_booking hsp hzero hop)
  rw [World.exec_booking hsp hzero hL.count_new] at hx
  obtain ⟨⟨o', w'⟩, hx', he⟩ := Option.map_eq_some_iff.mp hx
  cases he
  simp only at hS
  obtain ⟨q, r, hq, hs, ho⟩ := hS.served
  have hlt : ∀ {i}, (s.side i).isSome → i < (s.world.booking s.counts).queues.length :=
    fun {i} hi => by
    obtain ⟨x, hx⟩ := Option.isSome_iff_exists.mp hi
    rw [World.queues_booking, World.length_queues, ← hL.length_eq]
    exact hL.lt hx
  refine ⟨o', { s with world := w' }, l', P', by simp [System.exec, hx'],
    ⟨hS.tidy, fun i x hx => ?_⟩, ⟨fun i q hr hl => ?_, fun op hop => ?_, fun ha => ?_⟩,
    fun _ hi _ => hi, fun i hi _ => ?_⟩
  · obtain ⟨b, p, hl, hh⟩ := hL.side i x hx
    obtain ⟨c, hk⟩ := hh.booked
    have hi : (s.side i).isSome := by rw [hx]; rfl
    have hstaged := serve_staged (Op.leaves_of_spares hsp hi hq) (hlt hi) hs
    rw [hS.tidy.inv.queues_eq, hL.tidy.inv.queues_eq, List.getElem?_map, List.getElem?_map, hl]
      at hstaged
    by_cases hu : op.uses i
    · obtain ⟨b', p', hl', hun⟩ := hS.untouched i b p (Op.readsFrom_of_spares hsp hi hu) hl
      rw [hl'] at hstaged
      exact ⟨b', p', hl', hh.mono ⟨c, hk.untouched hun⟩ (Option.some.inj hstaged)⟩
    · obtain ⟨hl', hbare⟩ := hS.others i _ (by simpa using hu) hl
      rw [hl'] at hstaged
      exact ⟨b, p, hl', hh.mono ⟨c, hk.of_bare hbare⟩ (Option.some.inj hstaged)⟩
  · obtain ⟨hack, hr⟩ : op.acks = false ∧ s.world.retains i o' op := by
      simpa [System.retains] using hr
    rw [← World.retains_booking hsp hzero] at hr
    have hl' := Lease.step hS.tidy hS.carried hack hr hl
    exact hl'
  · cases hop
    rw [World.request_booking] at hq
    rw [World.queues_booking, World.queues_booking] at hs
    exact ⟨hS.carried.hands, q, r, hq, hs, ho⟩
  · refine hS.carried.moved.flushed ?_
    cases op <;> first | rfl | exact absurd rfl (ha _ _)
  · have hi : (s.side i).isSome := Option.isSome_iff_ne_none.mpr hi
    have hleaves := Op.leaves_of_spares hsp hi hq
    have hcons : Conserved (s.world.booking s.counts).queues i (s.ready i) [] := by
      rw [World.queues_booking]
      rfl
    have hcons := hcons.serve (fun he => by simp [he, Request.leaves, Call.leaves] at hleaves) hs
    rw [commits_of_leaves hleaves (hlt hi), ← reads_eq (i := i)
      (by rw [World.exec_booking hsp hzero hL.count_new, hx']; rfl) hq hs ho, World.reads_booking,
      Conserved, World.queues_booking] at hcons
    exact hcons

theorem New.booked (hN : ∀ k ∈ p.all, New h h' k) (hback : p.back ≠ []) (hspare : p.spare = []) :
    ∃ c, Booked h' p c [] := by
  obtain ⟨M, c, hM⟩ := exists_last hback
  have hN : ∀ k ∈ p.back, New h h' k := fun k hk => hN k (Parts.mem_all_of_back hk)
  have hc := hN c (by simp [hM])
  refine ⟨c, by simp [hM], hspare,
    Heap.later_eq_nil fun k hk => ⟨(hN k hk).ready, (hN k hk).pending⟩, hc.pending, fun hro => ?_⟩
  rcases hc.block with hcap | ⟨hno, -⟩
  · exact hcap
  · simp [hno] at hro

variable (cfg) in
theorem Live.init (hL : Live size s l P) (hsize : 0 < size) :
    ∃ o s' l' P', s.exec cfg size .init = some (o, s') ∧ Moves size s s' l l' P P' .init o ∧
      s'.side s.world.bufs.length ≠ none ∧ s'.ready s.world.bufs.length = [] := by
  obtain ⟨b, h', p, hnew, hT, hM, hq, hbare, hN, hback, hspare⟩ :=
    hL.tidy.add_new cfg (.new size) rfl size
  have hlen := hL.length_eq
  have hcounts : System.counts
    ⟨⟨h', s.world.bufs ++ [b]⟩,
      Function.update s.side s.world.bufs.length (some ⟨size, size, none⟩)⟩ =
      s.counts := by
    funext j
    by_cases hj : j = s.world.bufs.length
    · subst hj
      rw [hL.count_new]
      simp [System.counts, Side.len]
    · simp [System.counts, hj]
  have hqs : World.queues ⟨h', s.world.bufs ++ [b]⟩ = s.world.queues ++ [⟨[], []⟩] := by
    rw [← World.queues_booking (g := s.counts), World.booking_snoc _ _ _ hL.count_new]
    exact hq.trans (by rw [World.queues_booking])
  have hget : ∀ {j}, j < s.world.bufs.length →
    (World.queues ⟨h', s.world.bufs ++ [b]⟩)[j]? = s.world.queues[j]? :=
    fun {j} hj => by rw [hqs, List.getElem?_append_left (by rwa [World.length_queues])]
  refine ⟨.done, _, l ++ [(b, p)],
    P, by
    simp [System.exec, World.exec, show newLinkBuffer s.world.heap cfg size = (b, h') from hnew];
      rfl,
    ⟨⟨?_, fun j y hy => ?_⟩, ⟨fun j q _ hl => ?_, fun op hop => (by cases hop), fun _ hf => ?_⟩,
      fun j hj _ => ?_, fun j hj _ => ?_⟩, by simp, ?_⟩
  · rw [hcounts, World.booking_snoc _ _ _ hL.count_new]
    exact hT
  · by_cases hj : j = s.world.bufs.length
    · subst hj
      obtain rfl : ⟨size, size, none⟩ = y := by simpa using hy
      obtain ⟨c, hk⟩ := New.booked hN hback hspare
      refine ⟨b, p, by rw [← hlen]; simp, ⟨c, hk⟩, List.nil_prefix, fun hne => absurd rfl hne,
        Nat.zero_le _, ⟨hsize, le_max_left _ _⟩, hsize, le_max_left _ _⟩
    · have hy : s.side j = some y := by simpa [hj] using hy
      obtain ⟨b₁, q, hl, hh⟩ := hL.side j y hy
      have hlt := hL.lt hy
      have hl' : (l ++ [(b, p)])[j]? = some (b₁, q) := by rw [List.getElem?_append_left hlt, hl]
      have hsame : (World.queues ⟨h', (s.world.booking s.counts).bufs ++ [b]⟩)[j]? =
          (s.world.booking s.counts).queues[j]? := by
        rw [hq, List.getElem?_append_left]
        rwa [World.queues_booking, World.length_queues, ← hlen]
      have hh' := Side.Holds.others hL.tidy.inv hT.inv hh hl hl' (fun k hk =>
        hbare k (Layout.mem_nodes (List.mem_of_getElem? hl) hk)) hsame
      exact ⟨b₁, q, hl', hh'⟩
  · have hl' := Lease.step hT (.add (o := .done) hM hbare trivial) rfl rfl hl
    exact hl'
  · exact hM.flushed rfl hf
  · by_cases hjl : j = s.world.bufs.length <;> simp [hjl, hj]
  · obtain ⟨y, hy⟩ := Option.ne_none_iff_exists'.mp hj
    have hlt := hL.lt hy
    rw [hlen] at hlt
    simp only [System.ready, System.acked, System.took, hget hlt, List.append_nil, List.nil_append]
  · rw [System.ready, hqs, ← World.length_queues]
    simp

variable (cfg) in
theorem Live.closeBuffer (hL : Live size s l P) (hx : s.side i = some x) (hn : x.booked = none) :
    ∃ o s' l' P', s.exec cfg size (.closeBuffer i) = some (o, s') ∧ Moves size s s' l l' P P'
      (.closeBuffer i) o := by
  obtain ⟨b, p, rest, hb, hF, hQ, hh⟩ := hL.get hx
  have hi0 : s.counts i = 0 := by simp [System.counts, hx, (Side.len_none hn).1]
  have hgetb : (s.world.booking s.counts).bufs[i]? = some b := by simp [hb, hi0]
  have hop : (s.world.booking s.counts).Orderly (.act i .close) := by
    have hopen : (s.world.booking s.counts).opens (.act i .close) = true := by
      rw [World.opens, hgetb]
      rfl
    refine ⟨by simp [World.legal, hgetb, LinkBuffer.legal], fun b' _ => ⟨fun _ => ?_, ?_, ?_⟩, rfl,
      hopen, rfl⟩
    · exact Int.natCast_nonneg _
    · simp [LinkBuffer.CutsOwn, Act.remain]
    · simp [Act.acked]
  have hspares : (Op.act i .close).spares fun j => s.counts j != 0 := by simp [Op.spares, hi0]
  have hzero : ∀ j, (s.counts j != 0) = false → s.counts j = 0 := by simp
  obtain ⟨o, w₁, l', P', hx₁, hS⟩ := hL.tidy.act cfg hop
  rw [World.exec_booking hspares hzero hL.count_new] at hx₁
  obtain ⟨⟨o', w'⟩, hx', he⟩ := Option.map_eq_some_iff.mp hx₁
  cases he
  simp only at hS
  have hcounts : System.counts ⟨w', Function.update s.side i none⟩ = s.counts := by
    funext j
    by_cases hj : j = i
    · subst hj
      rw [hi0]
      simp [System.counts]
    · simp [System.counts, hj]
  obtain ⟨q, r, hq, hs, -⟩ := hS.served
  obtain rfl : .call i .clear = q := by simpa [Op.request, hgetb, Act.call] using hq
  have hsame : ∀ {j}, j ≠ i →
    (w'.booking s.counts).queues[j]? = (s.world.booking s.counts).queues[j]? := fun {j} hj => by
    obtain ⟨y, -, hs⟩ := Option.bind_eq_some_iff.mp hs
    simp only [Option.pure_def, Option.some.injEq, Prod.mk.injEq] at hs
    rw [← hs.2, List.getElem?_set_ne (Ne.symm hj)]
  refine ⟨o', _, l', P', by simp [System.exec, hx']; rfl, ⟨?_, fun j y hy => ?_⟩,
    ⟨fun j q hr hl => ?_, fun op hop => (by cases hop), fun _ hf => ?_⟩,
    fun j hj hji => ?_, fun j _ hj => ?_⟩
  · rw [hcounts]
    exact hS.tidy
  · have hj : j ≠ i := fun he => by simp [he] at hy
    obtain ⟨b₁, q, hl, hh⟩ := hL.side j y (by simpa [hj] using hy)
    obtain ⟨hl', hbare⟩ := hS.others j _ (by simpa [Op.uses] using Ne.symm hj) hl
    have hh' := Side.Holds.others hL.tidy.inv hS.tidy.inv hh hl hl' hbare (hsame hj)
    exact ⟨b₁, q, hl', hh'⟩
  · have hij : i ≠ j := by simpa [System.retains] using hr
    have hl' := Lease.step (i := j) hS.tidy hS.carried rfl (by simp [World.retains, hij]) hl
    exact hl'
  · exact hS.carried.moved.flushed rfl hf
  · have hij : j ≠ i := fun he => hji (by rw [he])
    simpa [hij] using hj
  · have hj : j ≠ i := fun he => hj (by rw [he])
    have := hsame hj
    rw [World.queues_booking, World.queues_booking] at this
    simp only [System.ready, System.acked, System.took, this, List.append_nil, List.nil_append]

variable (cfg) in
theorem Live.step (hL : Live size s l P) (hsize : 0 < size) (ha : s.allows e) :
    ∃ o s' l' P', s.exec cfg size e = some (o, s') ∧ Moves size s s' l l' P P' e o := by
  have hside : ∀ {i} {f : Side → Bool}, ((s.side i).any f = true) → ∃ x, s.side i = some x ∧
    f x = true :=
    fun {i f} hi => by simpa [Option.any_eq_true] using hi
  cases e with
  | user op => exact hL.user cfg ha
  | init =>
    obtain ⟨o, s', l', P', hx, hM, -⟩ := hL.init cfg hsize
    exact ⟨o, s', l', P', hx, hM⟩
  | inputs i =>
    obtain ⟨x, hx, hn⟩ := hside ha
    exact hL.inputs cfg hx (Option.isNone_iff_eq_none.mp hn)
  | readv i bs =>
    obtain ⟨x, hx, hn⟩ := hside ha
    obtain ⟨y, hy, hlen⟩ : ∃ y, x.booked = some y ∧
      (y.2.isEmpty && decide (bs.length ≤ y.1.len)) = true := by
      simpa [Option.any_eq_true] using hn
    exact hL.readv cfg hx hy (of_decide_eq_true (Bool.and_eq_true_iff.mp hlen).2)
  | inputAck i =>
    obtain ⟨x, hx, -⟩ := hside ha
    exact hL.inputAck cfg hx
  | release i =>
    obtain ⟨x, hx, hn⟩ := hside ha
    exact hL.release cfg hx (Option.isNone_iff_eq_none.mp hn)
  | closeBuffer i =>
    obtain ⟨x, hx, hn⟩ := hside ha
    exact hL.closeBuffer cfg hx (Option.isNone_iff_eq_none.mp hn)

theorem Live.start (mem : Nat → Nat → UInt8) (picks : Nat → Nat) :
    Live size (System.start mem picks) [] fun _ => False where
  tidy := .start mem picks
  side i x hx := by cases hx

theorem live_run (hsize : 0 < size)
    (hs : Reach (System.step cfg size) System.allows (System.start mem picks) s) :
    ∃ l P, Live size s l P := by
  refine hs.invariant (I := fun s => ∃ l P, Live size s l P) ⟨[], _, .start mem picks⟩ ?_
  rintro s e s' ⟨l, P, hL⟩ ha hstep
  obtain ⟨o, s₁, l', P', hx, hM⟩ := hL.step cfg hsize ha
  rw [System.step, hx, Option.map_some, Option.some.injEq] at hstep
  exact ⟨l', P', hstep ▸ hM.live⟩

/-- A run with a connection whose input buffer is `i`: the kernel has delivered `received` to it,
and `got` has been read. -/
inductive Receives (cfg : Config) (size i : Nat) : System → List UInt8 → List UInt8 → Prop
  | init {mem : Nat → Nat → UInt8} {picks : Nat → Nat} {s s' : System} {o : Out} :
      Reach (System.step cfg size) System.allows (System.start mem picks) s →
      i = s.world.bufs.length → s.exec cfg size .init = some (o, s') → Receives cfg size i s' [] []
  | step {s s' : System} {o : Out} {received got : List UInt8} (e : Event) :
      Receives cfg size i s received got → s.allows e → e ≠ .closeBuffer i →
      s.exec cfg size e = some (o, s') → Receives cfg size i s' (received ++ s.acked i e)
        (got ++ s.took i o s' e)

theorem Receives.accounted
    {received got : List UInt8} (hsize : 0 < size) (hr : Receives cfg size i s received got) :
    (∃ l P, Live size s l P) ∧ s.side i ≠ none ∧ received = got ++ s.ready i := by
  induction hr with
  | @init mem picks s s' o hs hi hx =>
    obtain ⟨l, P, hL⟩ := live_run hsize hs
    obtain ⟨o₁, s₁, l', P', hx₁, hM, hside, hready⟩ := hL.init cfg hsize
    obtain ⟨rfl, rfl⟩ : o = o₁ ∧ s' = s₁ := by simpa [hx] using hx₁
    exact ⟨⟨l', P', hM.live⟩, hi ▸ hside, by rw [hi, hready]; rfl⟩
  | @step s s' o received got e hr ha hne hx ih =>
    obtain ⟨⟨l, P, hL⟩, hside, rfl⟩ := ih
    obtain ⟨o₁, s₁, l', P', hx₁, hM⟩ := hL.step cfg hsize ha
    obtain ⟨rfl, rfl⟩ : o = o₁ ∧ s' = s₁ := by simpa [hx] using hx₁
    refine ⟨⟨l', P', hM.live⟩, hM.side i hside hne, ?_⟩
    rw [List.append_assoc, hM.ready i hside hne, List.append_assoc]

/-- Whatever the users of the buffers do meanwhile, a connection's users read what the kernel has
delivered, every byte once and in order. -/
theorem received_exactly_once {received got : List UInt8} (hsize : 0 < size)
    (hr : Receives cfg size i s received got) (hi : s.world.bufs[i]? = some b) :
    received = got ++ s.world.heap.look (b.readable s.world.heap) := by
  have := (hr.accounted hsize).2.2
  rwa [System.ready, World.queues_get, hi] at this

theorem received_exactly_once_two :
    ∃ s b received got, Receives .small 2 0 s received got ∧ s.world.bufs[0]? = some b ∧
    received = [7, 8] ∧ got = [7] ∧ received = got ++ s.world.heap.look
      (b.readable s.world.heap) := by
  obtain ⟨s, b, received, got, hr, hb, hrec, hgot⟩ : ∃ s b received got,
    Receives .small 2 0 s received got ∧
      s.world.bufs[0]? = some b ∧ received = [7, 8] ∧ got = [7] := by
    have hs : Reach (System.step .small 2) System.allows (System.start (fun _ _ => 0) fun _ => 0)
      _ := .refl
    refine ⟨_, _, _, _, .step (.inputAck 0) (.step (.user (.act 0 (.next 1))) (.step (.readv 0 [8])
      (.step (.inputs 0) (.step (.inputAck 0) (.step (.readv 0 [7]) (.step (.inputs 0)
        (.init hs rfl rfl) ?_ ?_ rfl) ?_ ?_ rfl) ?_ ?_ rfl) ?_ ?_ rfl) ?_ ?_ rfl) ?_ ?_ rfl)
      ?_ ?_ rfl, rfl, rfl, rfl⟩
    all_goals decide
  exact ⟨s, b, received, got, hr, hb, hrec, hgot, received_exactly_once (by decide) hr hb⟩

theorem Live.apart {y : Slice × List UInt8} (hL : Live size s l P) (hx : s.side i = some x)
    (hy : x.booked = some y) (hj : s.world.bufs[j]? = some b) {a : Addr} (ha : a ∈ y.1.cells) :
    a ∉ b.readable s.world.heap ∧ (j ≠ i → a ∉ b.pending s.world.heap) := by
  obtain ⟨bi, p, rest, -, hF, hQ, hh⟩ := hL.get hx
  obtain ⟨c, hk⟩ := hh.booked
  have ha : a ∈ x.cells := by simpa [Side.cells, hy] using ha
  have hlent := Booked.not_lent hQ hk ha
  have hgetj : (s.world.booking s.counts).bufs[j]? = some (b.booking (s.counts j)) := by simp [hj]
  obtain ⟨q, restj, hFj⟩ := hL.tidy.inv.focus hgetj
  have hread : b.readable s.world.heap = s.world.heap.content q.early :=
    hFj.buffer.readable_eq hFj.safe
  have hpend : b.pending s.world.heap = s.world.heap.unflushed q.back :=
    hFj.buffer.pending_eq hFj.safe
  have hunflushed : a ∈ s.world.heap.unflushed p.back := by rwa [hk.unflushed]
  obtain ⟨hearly, hlater⟩ := hL.tidy.apart hF hFj hunflushed hlent
  rw [hread, hpend]
  exact ⟨hearly, fun hij hmem => hlater hij (Queued.later_of_unflushed hmem)⟩

/-- In every run the poller, the kernel and the users can do what they are allowed to.  A connection
offers at least one byte to the kernel and at most `bookSize`, in memory of no other buffer, and
what the kernel has stored there stays; `Len` counts what can be read. -/
theorem inputs_served (hsize : 0 < size)
    (hs : Reach (System.step cfg size) System.allows (System.start mem picks) s) :
    (∀ e, s.allows e → (s.exec cfg size e).isSome) ∧
      ∀ i x, s.side i = some x →
        (x.bookSize ≤ max size (2 * mallocMax) ∧ x.maxSize ≤ max size mallocMax) ∧
        (∃ b, s.world.bufs[i]? = some b ∧ b.length = (b.readable s.world.heap).length ∧
          b.mallocSize = 0) ∧
        ∀ y, x.booked = some y → (0 < y.1.len ∧ y.1.len ≤ x.bookSize) ∧
          s.world.heap.look (y.1.cells.take y.2.length) = y.2 ∧
          ∀ j b, s.world.bufs[j]? = some b → ∀ a ∈ y.1.cells,
            a ∉ b.readable s.world.heap ∧ (j ≠ i → a ∉ b.pending s.world.heap) := by
  obtain ⟨l, P, hL⟩ := live_run hsize hs
  refine ⟨fun e ha => ?_, fun i x hx => ?_⟩
  · obtain ⟨o, s', l', P', hx, -⟩ := hL.step cfg hsize ha
    rw [hx]
    rfl
  · obtain ⟨b, p, rest, hb, hF, hQ, hh⟩ := hL.get hx
    obtain ⟨c, hk⟩ := hh.booked
    refine ⟨⟨hh.bookSize.2, hh.maxSize.2⟩, ⟨b, hb, ?_, hQ.real_mallocSize hk x.length_cells.symm⟩,
      fun y hy => ?_⟩
    · have hlen : b.length = _ := hQ.buffer.length
      have hread : b.readable s.world.heap = _ := hQ.buffer.readable_eq hQ.safe
      rw [hlen, hread, Parts.content_live, hk.unflushed_content.2, List.append_nil]
    · have hylen : x.len = y.1.len := by simp [Side.len, hy]
      have hcells : x.cells = y.1.cells := by simp [Side.cells, hy]
      have hdata : x.data = y.2 := by simp [Side.data, hy]
      refine ⟨⟨hylen ▸ hh.len_pos (by simp [hy]), hylen ▸ hh.len_le⟩, ?_,
        fun j b' hj a ha => hL.apart hx hy hj ha⟩
      have hpre := List.prefix_iff_eq_take.mp hh.stored
      rw [hk.staged, hdata, hcells, Heap.look, ← look_take] at hpre
      exact hpre.symm

theorem inputs_served_booked : ∃ s x y, Reach (System.step .small 2) System.allows
      (System.start (fun _ _ => 0) fun _ => 0) s ∧ s.side 0 = some x ∧ x.booked = some y ∧
      y.2 = [7] ∧
    (s.exec .small 2 (.inputAck 0)).isSome ∧ s.world.heap.look (y.1.cells.take 1) = [7] := by
  obtain ⟨s, x, y, hs, hx, hy, hdata, ha⟩ : ∃ s x y, Reach (System.step .small 2) System.allows
      (System.start (fun _ _ => 0) fun _ => 0) s ∧ s.side 0 = some x ∧ x.booked = some y ∧
      y.2 = [7] ∧ s.allows (.inputAck 0) := by
    refine ⟨_, _, _,
      .tail (a := .readv 0 [7]) (.tail (a := .inputs 0) (.tail (a := .init) .refl ?_ rfl) ?_ rfl) ?_
        rfl,
      rfl, rfl, rfl, ?_⟩
    all_goals decide
  obtain ⟨hall, hside⟩ := inputs_served (by decide) hs
  have hlook := ((hside 0 x hx).2.2 y hy).2.1
  rw [hdata] at hlook
  exact ⟨s, x, y, hs, hx, hy, hdata, hall _ ha, hlook⟩

end Netpoll.InputStream
