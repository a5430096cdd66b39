import Netpoll.Connection.InputStream

/-! The input of a connection from which one goroutine at a time reads. -/

namespace Netpoll.InputStream

open Netpoll.Lib.Memory Netpoll.Lib.Staged Netpoll.Nocopy

variable {cfg : Config} {s s' : System} {w : World} {l l' : Layout} {P P' : Nat → Prop}
  {i n size : Nat} {x : Side} {a : Act} {op : Op} {e : Event} {o : Out}
  {received got : List UInt8} {out : List Slice}

/-- A call that reads from the input buffer 0 of the connection, or from a reader of a part. -/
def reading (w : World) : Op → Bool
  | .act i a => a.reading && (w.bufs[i]?).isSome
  | .slice i _ => (w.bufs[i]?).isSome
  | _ => false

/-- The reader goes on while the poller does; `Release` keeps the poller out only while it looks at
the last node. -/
def System.reads (s : System) : Event → Prop
  | .user op => reading s.world op = true
  | .init | .closeBuffer _ => False
  | e => s.allows e

instance (s : System) : DecidablePred s.reads
  | .user _ => inferInstanceAs (Decidable (_ = true))
  | .init | .closeBuffer _ => inferInstanceAs (Decidable False)
  | .inputs i => inferInstanceAs (Decidable (s.allows (.inputs i)))
  | .readv i data => inferInstanceAs (Decidable (s.allows (.readv i data)))
  | .inputAck i => inferInstanceAs (Decidable (s.allows (.inputAck i)))
  | .release i => inferInstanceAs (Decidable (s.allows (.release i)))

/-- The slices that `Next` has returned and that neither `Release` nor `Slice` has taken back. -/
def Event.lends (o : Out) (out : List Slice) : Event → List Slice
  | .user (.act 0 (.next _)) => match o with
    | .bytes q => q :: out
    | _ => out
  | .user (.act 0 .release) => []
  | .user (.slice 0 _) => if o = .done then [] else out
  | _ => out

/-- A run of a connection with a new input buffer: the kernel has delivered `received`, the reader
has got `got`, and `out` is lent to it. -/
inductive Reads (cfg : Config) (size : Nat) : System → List UInt8 → List UInt8 → List Slice → Prop
  | init (mem : Nat → Nat → UInt8) (picks : Nat → Nat) {s : System} {o : Out} :
      (System.start mem picks).exec cfg size .init = some (o, s) → Reads cfg size s [] [] []
  | step {s s' : System} {o : Out} {received got : List UInt8} {out : List Slice} (e : Event) :
      Reads cfg size s received got out → s.reads e → s.exec cfg size e = some (o, s') →
      Reads cfg size s' (received ++ s.acked 0 e) (got ++ s.took 0 o s' e) (e.lends o out)

structure Lends (size : Nat) (s : System) (l : Layout) (P : Nat → Prop) (out : List Slice) :
    Prop where
  live : Live size s l P
  flushed : l.Flushed s.world.heap
  lease : ∀ q ∈ out, Lease s.world.heap l P 0 q

theorem Lends.modest {b : LinkBuffer} {m : Int} (hl : Lends size s l P out)
    (hb : s.world.bufs[i]? = some b) : b.Modest s.world.heap m :=
  hl.live.tidy.inv.modest (i := i) (b := b.booking (s.counts i)) hl.flushed (by simp [hb])

theorem Lends.allows (hl : Lends size s l P out) (he : s.reads e) : s.allows e := by
  cases e with
  | user op =>
    cases op with
    | act i a =>
      obtain ⟨ha, hi⟩ := (Bool.and_eq_true _ _).mp he
      obtain ⟨b, hb⟩ := Option.isSome_iff_exists.mp hi
      have hread : (∀ b h, LinkBuffer.legal b h a = true) ∧ a.splits = false ∧ a.writes = false ∧
          a.acks = false ∧ a.acked = none := by
        cases a <;> first | exact ⟨fun _ _ => rfl, rfl, rfl, rfl, rfl⟩ | cases ha
      obtain ⟨hlegal, hsp, hwr, hack, hacked⟩ := hread
      refine ⟨⟨by simp [World.legal, hb, hlegal], fun c hc => ⟨hl.modest hc,
        Act.cutsOwn_of_splits hsp, by simp [hacked]⟩, hsp, by simp [World.opens, hb, hwr],
        by simp [World.settled, hack]⟩, by simp [Op.spares, ha]⟩
    | slice i m => exact ⟨⟨rfl, fun b hb => hl.modest hb, rfl, he, rfl⟩, rfl⟩
    | _ => cases he
  | init | closeBuffer i => cases he
  | inputs i | readv i data | inputAck i | release i => exact he

theorem Lends.lent (hl : Lends size s l P out) (hp : Passed s s' l l' P P' e o) (he : s.reads e) :
    ∀ q ∈ e.lends o out, Lease s'.world.heap l' P' 0 q := by
  have hkeep : s.retains 0 o e = true → ∀ q ∈ out, Lease s'.world.heap l' P' 0 q :=
    fun hr q hq => hp.lease 0 q hr (hl.lease q hq)
  cases e with
  | user op =>
    cases op with
    | act i a =>
      obtain ⟨ha, -⟩ := (Bool.and_eq_true _ _).mp he
      cases i with
      | zero =>
        obtain ⟨⟨b, p, hb, hh⟩, -⟩ := hp.calls _ rfl
        cases a with
        | next m =>
          cases o with
          | bytes q =>
            intro q' hq
            rcases List.mem_cons.mp hq with rfl | hq
            · exact ⟨b, p, hb, hh q' rfl⟩
            · exact hkeep rfl q' hq
          | _ => exact hkeep rfl
        | release => exact fun q hq => by cases hq
        | peek m | skip m | readBinary m | readString m | readByte | readUntil c => exact hkeep rfl
        | _ => cases ha
      | succ j =>
        refine hkeep ?_
        have hack : a.acks = false := by
          cases a <;> first | rfl | cases ha
        simp [System.retains, World.retains, Op.acks, hack]
    | slice i m =>
      cases i with
      | zero =>
        by_cases hd : o = .done
        · simp [Event.lends, hd]
        · simpa [Event.lends, hd] using hkeep (by simp [System.retains, World.retains, Op.acks, hd])
      | succ j => exact hkeep (by simp [System.retains, World.retains, Op.acks])
    | _ => cases he
  | init | closeBuffer i => cases he
  | inputs i | readv i data | inputAck i | release i => exact hkeep rfl

theorem Lends.step (hl : Lends size s l P out) (hsize : 0 < size) (he : s.reads e)
    (hx : s.exec cfg size e = some (o, s')) :
    ∃ l' P', Lends size s' l' P' (e.lends o out) ∧ Moves size s s' l l' P P' e o := by
  obtain ⟨o₁, s₁, l', P', hx₁, hM⟩ := hl.live.step cfg hsize (hl.allows he)
  obtain ⟨rfl, rfl⟩ : o = o₁ ∧ s' = s₁ := by simpa [hx] using hx₁
  refine ⟨l', P', ⟨hM.live, hM.passed.flushed ?_ hl.flushed, hl.lent hM.passed he⟩, hM⟩
  rintro i j rfl
  cases he

theorem Reads.lends (hsize : 0 < size) (hr : Reads cfg size s received got out) :
    ∃ l P, Lends size s l P out ∧ s.side 0 ≠ none ∧ received = got ++ s.ready 0 := by
  induction hr with
  | @init mem picks s o hx =>
    obtain ⟨o₁, s₁, l, P, hx₁, hM, hside, hready⟩ := (Live.start mem picks).init cfg hsize
    obtain ⟨rfl, rfl⟩ : o = o₁ ∧ s = s₁ := by simpa [hx] using hx₁
    refine ⟨l, P, ⟨hM.live, hM.passed.flushed (by simp) (by simp [Layout.Flushed]), by simp⟩, hside,
      ?_⟩
    exact hready.symm
  | @step s s' o received got out e hr he hx ih =>
    obtain ⟨l, P, hl, hside, rfl⟩ := ih
    obtain ⟨l', P', hl', hM⟩ := hl.step hsize he hx
    have hne : e ≠ .closeBuffer 0 := by
      rintro rfl
      cases he
    refine ⟨l', P', hl', hM.side 0 hside hne, ?_⟩
    rw [List.append_assoc, hM.ready 0 hside hne, List.append_assoc]

/-- Whatever the kernel stores and whenever the reader and the poller run, the reader gets the
kernel's bytes, every byte once and in order.  A slice that the poller offers has room, at most
`bookSize` bytes of it, and shares no byte with what is unread or lent to the reader.  No call
fails, and each returns what a call on a queue of bytes returns. -/
theorem input_exactly_once (hsize : 0 < size) (hr : Reads cfg size s received got out) :
    ∃ x b, s.side 0 = some x ∧ s.world.bufs[0]? = some b ∧
      received = got ++ s.world.heap.look (b.readable s.world.heap) ∧
      (0 < x.bookSize ∧ x.bookSize ≤ max size (2 * mallocMax)) ∧
      (∀ y, x.booked = some y → (0 < y.1.len ∧ y.1.len ≤ x.bookSize) ∧ ∀ c ∈ y.1.cells,
        (∀ d ∈ s.world.bufs, c ∉ d.readable s.world.heap) ∧ ∀ q ∈ out, c ∉ q.cells) ∧
      ∀ e, s.reads e → ∃ o s', s.exec cfg size e = some (o, s') ∧ ∀ op, e = .user op →
        ∃ q r, op.request s.world s'.world o = some q ∧
          serve s.world.queues q = some (r, s'.world.queues) ∧ o.agrees s'.world.heap r := by
  obtain ⟨l, P, hl, hside, hstream⟩ := hr.lends hsize
  obtain ⟨x, hx⟩ := Option.ne_none_iff_exists'.mp hside
  obtain ⟨b, p, rest, hb, hF, hQ, hh⟩ := hl.live.get hx
  obtain ⟨c, hk⟩ := hh.booked
  refine ⟨x, b, hx, hb, ?_, hh.bookSize, fun y hy => ⟨?_, fun a ha => ⟨fun d hd => ?_, ?_⟩⟩,
    fun e he => ?_⟩
  · rwa [System.ready, World.queues_get, hb] at hstream
  · have hlen : x.len = y.1.len := by simp [Side.len, hy]
    exact ⟨hlen ▸ hh.len_pos (by simp [hy]), hlen ▸ hh.len_le⟩
  · obtain ⟨j, hj⟩ := List.mem_iff_getElem?.mp hd
    exact (hl.live.apart hx hy hj ha).1
  · intro q hq haq
    have ha : a ∈ x.cells := by simpa [Side.cells, hy] using ha
    have hcl := Layout.mem_nodes (List.mem_of_getElem? hF.get) (Parts.mem_all_of_back hk.mem_back)
    refine (hl.lease q hq).not_written hl.live.tidy haq (.inr ⟨⟨c, hcl, ?_, hk.pending ▸ ha⟩, ?_⟩)
    · exact hQ.buffer.plain hk.back_ne c (Parts.mem_all_of_back hk.mem_back)
    · exact Booked.not_lent hQ hk ha
  · obtain ⟨o, s', l', P', hx, hM⟩ := hl.live.step cfg hsize (hl.allows he)
    exact ⟨o, s', hx, fun op hop => (hM.passed.calls op hop).2⟩

theorem input_exactly_once_lent : ∃ s x y received got out, Reads .small 2 s received got out ∧
    s.side 0 = some x ∧ x.booked = some y ∧ received = [7] ∧ got = [7] ∧ y.1 = ⟨0, 1, 2, 2⟩ ∧
    out = [⟨0, 0, 1, 1⟩] ∧ ∀ c ∈ y.1.cells, ∀ q ∈ out, c ∉ q.cells := by
  obtain ⟨s, x, y, received, got, out, hr, hx, hy, hrec, hgot, hys, hout⟩ :
      ∃ s x y received got out, Reads .small 2 s received got out ∧ s.side 0 = some x ∧
        x.booked = some y ∧ received = [7] ∧ got = [7] ∧ y.1 = ⟨0, 1, 2, 2⟩ ∧
        out = [⟨0, 0, 1, 1⟩] := by
    have hs : Reads .small 2 _ [] [] [] := .init (fun _ _ => 0) (fun _ => 0) rfl
    refine ⟨_, _, _, _, _, _, .step (.inputs 0) (.step (.user (.act 0 (.next 1)))
      (.step (.inputAck 0) (.step (.readv 0 [7]) (.step (.inputs 0) hs ?_ rfl) ?_ rfl)
        ?_ rfl) ?_ rfl) ?_ rfl, rfl, rfl, rfl, rfl, rfl, rfl⟩
    all_goals decide
  obtain ⟨x', b, hx', -, -, -, hbook, -⟩ := input_exactly_once (by decide) hr
  obtain rfl : x = x' := Option.some.inj (hx.symm.trans hx')
  exact ⟨s, x, y, received, got, out, hr, hx, hy, hrec, hgot, hys, hout, fun c hc =>
    ((hbook y hy).2 c hc).2⟩

end Netpoll.InputStream
