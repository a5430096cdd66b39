import Netpoll.Nocopy.PeekCache
import Netpoll.Nocopy.Concat

/-! `zcReader`: a buffer that is filled from an `io.Reader`. -/

namespace Netpoll.Nocopy

open Netpoll.Lib Netpoll.Lib.Memory LinkBuffer

structure ZcReader where
  heap : Heap
  buf : LinkBuffer
  slices : List LinkBuffer := []
  reads : Nat := 0

namespace ZcReader

def maxReadCycle : Nat := 16

inductive SourceErr
  | eof
  | other (msg : String)
  deriving DecidableEq, Repr

/-- What a `Read(buf)` does: it stores `data` from the start of `buf` on, and returns `num` and
`err`. -/
structure Read where
  data : List UInt8
  num : Int
  err : Option SourceErr
  deriving DecidableEq, Repr

abbrev Source := Nat → Read

def Read.bytes (rd : Read) : List UInt8 := rd.data.take rd.num.toNat

def Read.settled (rd : Read) : Int × Option SourceErr :=
  let num := rd.num
  if num < 0 then
    (0, some (rd.err.getD (.other s!"zcReader fill negative count[{num}]")))
  else (num, rd.err)

inductive Err
  | errEOF
  | source (msg : String)
  deriving DecidableEq, Repr

def SourceErr.raised : SourceErr → Err
  | .eof => .errEOF
  | .other msg => .source msg

def newZCReader (h : Heap) (cfg : Config) : ZcReader :=
  let (b, h) := newLinkBuffer h cfg 0
  { heap := h, buf := b }

def len (z : ZcReader) : Int := z.buf.length

def cycle (cfg : Config) (src : Source) (z : ZcReader) : Option (Option SourceErr × ZcReader) := do
  let (buf, b, h) ← z.buf.malloc z.heap cfg block4k
  let rd := src z.reads
  let h := h.copy buf rd.data
  let (_, b, h) ← b.mallocAck h rd.settled.1
  let (b, h) ← b.doFlush h cfg
  return (rd.settled.2, { z with heap := h, buf := b, reads := z.reads + 1 })

def fill (cfg : Config) (src : Source) (n : Int) :
    Nat → ZcReader → Option (Option SourceErr × ZcReader)
  | 0, z => some (none, z)
  | i + 1, z =>
    if z.len < n then do
      let (err, z) ← z.cycle cfg src
      match err with
      | some err => return (some err, z)
      | none => fill cfg src n i z
    else some (none, z)

def waitRead (cfg : Config) (src : Source) (n : Int) :
    Nat → ZcReader → Option (Option Err × ZcReader)
  | 0, _ => none
  | fuel + 1, z =>
    if z.len < n then do
      let (err, z) ← fill cfg src n maxReadCycle z
      match err with
      | some err => return (some err.raised, z)
      | none => waitRead cfg src n fuel z
    else some (none, z)

inductive Reply
  | failed (err : Err)
  | of (o : Out)
  deriving DecidableEq, Repr

def onBuf (cfg : Config) (a : Act) (z : ZcReader) : Option (Reply × ZcReader) :=
  (z.buf.run cfg z.heap a).map fun (o, b, h) => (.of o, { z with heap := h, buf := b })

def waiting (cfg : Config) (src : Source) (fuel : Nat) (n : Int)
    (f : ZcReader → Option (Reply × ZcReader)) (z : ZcReader) : Option (Reply × ZcReader) := do
  let (err, z) ← waitRead cfg src n fuel z
  match err with
  | some err => return (.failed err, z)
  | none => f z

def bufSlice (cfg : Config) (n : Int) (z : ZcReader) : Option (Reply × ZcReader) := do
  let (r, b, h) ← z.buf.slice z.heap cfg n
  match r with
  | .ok rd => return (.of .done, { z with heap := h, buf := b, slices := z.slices ++ [rd] })
  | .error msg => return (.of (.error msg), { z with heap := h, buf := b })

section

variable (cfg : Config) (src : Source) (fuel : Nat) (z : ZcReader)

def next (n : Int) : Option (Reply × ZcReader) := waiting cfg src fuel n (onBuf cfg (.next n)) z

def peek (n : Int) : Option (Reply × ZcReader) := waiting cfg src fuel n (onBuf cfg (.peek n)) z

def skip (n : Int) : Option (Reply × ZcReader) := waiting cfg src fuel n (onBuf cfg (.skip n)) z

def slice (n : Int) : Option (Reply × ZcReader) := waiting cfg src fuel n (bufSlice cfg n) z

def readString (n : Int) :
    Option (Reply × ZcReader) := waiting cfg src fuel n (onBuf cfg (.readString n)) z

def readBinary (n : Int) :
    Option (Reply × ZcReader) := waiting cfg src fuel n (onBuf cfg (.readBinary n)) z

def readByte : Option (Reply × ZcReader) := waiting cfg src fuel 1 (onBuf cfg .readByte) z

def release : Option (Reply × ZcReader) := onBuf cfg .release z

def readUntil (delim : UInt8) : Option (Reply × ZcReader) := onBuf cfg (.readUntil delim) z

end

inductive Call
  | next (n : Int)
  | peek (n : Int)
  | skip (n : Int)
  | slice (n : Int)
  | readString (n : Int)
  | readBinary (n : Int)
  | readByte
  | release
  | readUntil (delim : UInt8)
  deriving DecidableEq, Repr

def call (cfg : Config) (src : Source) (fuel : Nat) (z : ZcReader) :
    Call → Option (Reply × ZcReader)
  | .next n => z.next cfg src fuel n
  | .peek n => z.peek cfg src fuel n
  | .skip n => z.skip cfg src fuel n
  | .slice n => z.slice cfg src fuel n
  | .readString n => z.readString cfg src fuel n
  | .readBinary n => z.readBinary cfg src fuel n
  | .readByte => z.readByte cfg src fuel
  | .release => z.release cfg
  | .readUntil delim => z.readUntil cfg delim

def held (z : ZcReader) : List UInt8 := z.heap.look (z.buf.readable z.heap)

def fits (z : ZcReader) : Prop :=
  ∃ c ∈ z.buf.write, (z.heap.nodes c).readonly = false ∧
    block4k ≤ (z.heap.nodes c).buf.cap - (z.heap.nodes c).malloc

end ZcReader

variable {h h' h₁ : Heap} {b b' b₁ : LinkBuffer} {p p' p₁ : Parts} {R : List LinkBuffer}
  {l : Layout} {P P' : Nat → Prop} {i c n m : Nat} {s : Slice} {cfg : Config} {a : Act}
  {U : List Nat} {K : List Slice}

structure Serves (h : Heap) (b : LinkBuffer) (p : Parts) (R : List LinkBuffer) (l : Layout)
    (P : Nat → Prop) : Prop where
  inv : Inv ⟨h, b :: R⟩ ((b, p) :: l) P
  idle : Layout.Idle h ((b, p) :: l)
  unsplit : Unsplit h (Layout.nodes ((b, p) :: l))
  back : p.back ≠ []
  cached : Cached h b p

theorem Serves.focus (hS : Serves h b p R l P) : Focus ⟨h, b :: R⟩ ((b, p) :: l) l 0 b p P where
  get := rfl
  perm := .refl _
  set _ := .refl _
  others {j x} hj hx := by
    obtain ⟨k, rfl⟩ := Nat.exists_eq_succ_of_ne_zero hj
    exact List.mem_of_getElem? hx
  buffer := hS.inv.buffer (b, p) (by simp)
  safe := hS.inv.safe
  viewed := Layout.viewed fun x hx => hS.inv.buffer x (by simp [hx])

theorem Serves.buffer (hS : Serves h b p R l P) : Buffer h b p := hS.focus.buffer

theorem Serves.safe (hS : Serves h b p R l P) :
    Safe h (p.all ++ l.nodes) (b.kept ++ l.kept) P := hS.focus.safe

theorem Serves.viewed (hS : Serves h b p R l P) : Viewed h l.nodes := hS.focus.viewed

theorem Serves.acted (hS : Serves h b p R l P) (hA : Acted h h' b b' p p' a l.nodes l.kept P P')
    (hsp : a.splits = false) (hback : p'.back ≠ []) (hc : Cached h' b' p') :
    Serves h' b' p' R l P' := by
  have hM : Moved h h' ((b, p) :: l) ((b', p') :: l) P (.act 0 a) := hA.moved hS.focus ⟨rfl, rfl⟩
  exact ⟨hS.focus.update hS.inv hA.buffer hA.safe hA.node hA.later.lent, hM.idle rfl hsp hS.idle,
    hM.unsplit hsp hS.unsplit, hback, hc⟩

theorem Serves.flushed (hS : Serves h b p R l P) : h.content p.back.tail = [] :=
  hS.idle.flushed (b, p) (by simp)

theorem Serves.length (hS : Serves h b p R l P) : b.length = (h.content p.early).length := by
  rw [hS.buffer.length, Parts.content_live, hS.flushed, List.append_nil]

theorem Serves.sound (hS : Serves h b p R l P) : p.Sound h := fun k hk r hr => by
  simp [hS.buffer.plain hS.back k (Parts.mem_all_of_live (Parts.mem_live_of_early hk))] at hr

theorem Cached.grow (hc : Cached h b p) (hq : b'.cachePeek = b.cachePeek)
    (hm : ∀ q, b.cachePeek = some q → h'.bytes q = h.bytes q)
    (hp : h.look (h.content p.early) <+: h'.look (h'.content p'.early)) :
    Cached h' b' p' := fun q hq' => by
  rw [hq] at hq'
  rw [hm q hq']
  exact (hc q hq').trans hp

theorem Cached.spent
    (hq : b'.cachePeek = none ∨ b'.cachePeek = b.cachePeek.map fun q => { q with len := 0 }) :
    Cached h' b' p' := fun q hq' => by
  rcases hq with hq | hq
  · simp [hq] at hq'
  · obtain ⟨r, -, rfl⟩ := Option.map_eq_some_iff.mp (hq ▸ hq')
    simp [Heap.bytes]

theorem mallocAck_cachePeek
    {k : Int} {r : Except String Unit} (hr : b.mallocAck h k = some (r, b', h')) :
    b'.cachePeek = b.cachePeek := by
  simp only [mallocAck, Option.bind_eq_bind] at hr
  split at hr
  · cases hr
    rfl
  · obtain ⟨⟨write, h₁⟩, -, hr⟩ := Option.bind_eq_some_iff.mp hr
    obtain ⟨j, -, hr⟩ := Option.bind_eq_some_iff.mp hr
    obtain ⟨h₂, -, hr⟩ := Option.bind_eq_some_iff.mp hr
    cases hr
    rfl

theorem Serves.look_eq (hS : Serves h b p R l P) (hw : Writes (Loose h p.all b.kept) h.mem h'.mem) :
    h'.look (h.content p.early) = h.look (h.content p.early) := by
  have hall : ∀ {k}, k ∈ p.early → k ∈ p.all :=
    fun hk => Parts.mem_all_of_live (Parts.mem_live_of_early hk)
  refine Writes.look_ready hw hS.safe (L := p.early)
    (fun k hk => ⟨List.mem_append_left _ (hall hk), hS.sound k hk, hS.buffer.rep.fit k (hall hk)⟩)
    (fun k hk => ⟨List.mem_append_left _ hk, hS.buffer.rep.fit k hk⟩)
    (fun q hq => List.mem_append_left _ hq) fun x hx => ?_
  obtain ⟨k, hk, hkx⟩ := List.mem_flatMap.mp hx
  exact ⟨k, hk, List.mem_append_left _ hkx⟩

theorem Serves.cache_calm (hS : Serves h b p R l P) (hc : Calm h h' p.all) {q : Slice}
    (hq : b.cachePeek = some q) : h'.bytes q = h.bytes q := by
  rw [Heap.bytes_eq, Heap.bytes_eq]
  exact hc.look fun x hx hl =>
    hS.buffer.cache_not_written hS.safe hq (mem_cells.mp hx).1 (.inl hl)

theorem Heap.look_copy {data : List UInt8} (hd : data.length ≤ s.len) (hm : m ≤ data.length) :
    (h.copy s data).look (s.cells.take m) = data.take m := by
  rw [Slice.cells, take_cells (hm.trans hd), Heap.look, ← load_eq, ← take_load hm, Heap.copy,
    List.take_of_length_le hd, load_store_self]

theorem Serves.reserve (hS : Serves h b p R l P) (cfg : Config) (hpos : 0 < n) (data : List UInt8) :
    ∃ s b' h' p', b.malloc h cfg n = some (s, b', h') ∧ s.len = n ∧ Serves
      (h'.copy s data) b' p' R l P ∧ (h'.copy s data).look
      ((h'.copy s data).content p'.early) = h.look
      (h.content p.early) ∧ (h'.copy s data).unflushed p'.back = h.unflushed p.back ++ s.cells := by
  obtain ⟨s, b', h', p', hma, hw, hmem, hlen, hloose⟩ :=
    malloc_spec hS.buffer hS.safe hS.viewed hS.back cfg hpos
  have hw' : Wrote h (h'.copy s data) b b' p p' s.cells l.nodes l.kept P := hw.store
  have hcalm : Calm h (h'.copy s data) p.all := by
    rw [Calm, Heap.copy, hmem]
    refine writes_store.mono fun x hx => hloose x ?_
    simp only [Slice.cells, mem_cells, List.length_take] at hx ⊢
    omega
  have hlook : (h'.copy s data).look ((h'.copy s data).content p'.early) =
    h.look (h.content p.early) := by
    rw [hw'.readable, hS.look_eq hcalm.loose]
  refine ⟨s, b', h', p', hma, hlen, ?_, hlook, hw'.pending⟩
  exact hS.acted (hw'.acted (a := .malloc n) hcalm) rfl hw'.back
    (hS.cached.grow (malloc_cachePeek hma) (fun q hq => hS.cache_calm hcalm hq)
      (hlook ▸ List.prefix_refl _))

theorem Serves.ack (hS : Serves h b p R l P) (hn : n ≤ (h.unflushed p.back).length)
    (ht : b.Trims h n) :
    ∃ b' h' p', b.mallocAck h n = some (.ok (), b', h') ∧ Serves h' b' p' R l P ∧ h'.mem = h.mem ∧
      h'.content p'.early = h.content p.early ∧
      h'.unflushed p'.back = (h.unflushed p.back).take n := by
  have hi : (World.mk h (b :: R)).bufs[0]? = some b := rfl
  obtain ⟨b', h', p', hma, ha⟩ := mallocAck_post hS.buffer hS.safe hS.viewed hS.back
    (by rw [hS.buffer.mallocSize_eq]; exact_mod_cast hn)
    ⟨ht, hS.inv.spares hS.idle.flushed hi n, hS.inv.unsliced_of_idle hS.idle hi n,
      hS.inv.keepsParts hS.unsplit hi n⟩
    fun k hk => hS.inv.nodes_eq ▸ hk
  have hlook : h'.look (h'.content p'.early) = h.look (h.content p.early) := by
    rw [ha.readable, Heap.look, Heap.look, ha.mem]
  refine ⟨b', h', p', hma, ?_, ha.mem, ha.readable, ha.pending⟩
  exact hS.acted (ha.acted (a := .mallocAck n) rfl) rfl ha.back
    (hS.cached.grow (mallocAck_cachePeek hma) (fun q _ => by rw [Heap.bytes, Heap.bytes, ha.mem])
      (hlook ▸ List.prefix_refl _))

theorem doFlush_flush (hr : b.doFlush h cfg = some (b', h')) : b'.flush = b'.write := by
  simp only [doFlush, Option.bind_eq_bind] at hr
  obtain ⟨⟨b₁, h₁⟩, -, hr⟩ := Option.bind_eq_some_iff.mp hr
  obtain ⟨j, -, hr⟩ := Option.bind_eq_some_iff.mp hr
  obtain ⟨⟨t, h₂⟩, -, hr⟩ := Option.bind_eq_some_iff.mp hr
  cases hr
  rfl

theorem Buffer.back_single (hb : Buffer h b p) (hs : Safe h (p.all ++ U) K P) (hback : p.back ≠ [])
    (hf : b.flush = b.write) : ∃ c, p.back = [c] := by
  obtain ⟨c, C, hC⟩ := List.exists_cons_of_ne_nil hback
  have hnd : (c :: C).Nodup := by
    have := (List.nodup_append.mp hs.nodup.of_append_left.of_append_left).2.1
    rwa [hC] at this
  rw [hb.rep.flush, hb.rep.write, hC] at hf
  cases C with
  | nil => exact ⟨c, hC⟩
  | cons d D =>
    have hlast : (c :: d :: D).getLast? = (d :: D).getLast? := by simp
    rw [hlast] at hf
    exact absurd (List.mem_of_getLast? hf.symm) (List.nodup_cons.mp hnd).1

theorem Serves.flush (hS : Serves h b p R l P) (cfg : Config) :
    ∃ b' h' p', b.doFlush h cfg = some (b', h') ∧ Serves h' b' p' R l P ∧ h'.mem = h.mem ∧
      h'.content p'.early = h.content p.early ++ h.unflushed p.back ∧ h'.unflushed p'.back = [] ∧
      ∃ c, p'.back = [c] := by
  obtain ⟨b', h', p', hfl, hp⟩ := doFlush_spec hS.buffer hS.safe hS.viewed hS.back cfg
  have hread := hp.readable
  rw [Heap.later_eq_unflushed hS.flushed] at hread
  refine ⟨b', h', p', hfl, ?_, hp.mem, hread, hp.pending,
    hp.post.buffer.back_single hp.post.safe hp.back (doFlush_flush hfl)⟩
  refine hS.acted (hp.acted (a := .flush)) rfl hp.back
    (hS.cached.grow (doFlush_cachePeek hfl) (fun q _ => by rw [Heap.bytes, Heap.bytes, hp.mem]) ?_)
  rw [hread, Heap.look_append, Heap.look, Heap.look, hp.mem]
  exact List.prefix_append _ _

def Settled (h : Heap) (b : LinkBuffer) (R : List LinkBuffer) (bs : List UInt8) : Prop :=
  ∃ p l P c, Serves h b p R l P ∧ p.back = [c] ∧ h.unflushed p.back = [] ∧
    h.look (h.content p.early) = bs

theorem Serves.commit (hS : Serves h b p R l P) (cfg : Config) (hC : p.back.head? = some c)
    (hn : n ≤ (h.unflushed p.back).length) :
    ∃ b₁ h₁ b' h' m, b.mallocAck h n = some (.ok (), b₁, h₁) ∧ b₁.doFlush h₁ cfg = some (b', h') ∧
      Settled h' b' R (h.look (h.content p.early) ++ h.look ((h.unflushed p.back).take m)) ∧
      ((n = 0 → h.pending c = []) → m = n) ∧
      (n = 0 → h.pending c ≠ [] → 0 < m ∧ m ≤ (h.unflushed p.back).length) := by
  have hmain : ∀ m ≤ (h.unflushed p.back).length, (m = 0 → h.pending c = []) →
      ∃ b₁ h₁ b' h', b.mallocAck h m = some (.ok (), b₁, h₁) ∧ b₁.doFlush h₁ cfg = some (b', h') ∧
        Settled h' b' R (h.look (h.content p.early) ++ h.look ((h.unflushed p.back).take m)) := by
    intro m hm h0
    obtain ⟨b₁, h₁, p₁, hma, hS₁, hmem₁, hread₁, hun₁⟩ := hS.ack hm fun hz c' hc' => by
      rw [hS.buffer.back_eq hS.safe, hC] at hc'
      cases hc'
      exact h0 hz
    obtain ⟨b', h', p', hfl, hS', hmem, hread, hun, d, hd⟩ := hS₁.flush cfg
    refine ⟨b₁, h₁, b', h', hma, hfl, p', l, P, d, hS', hd, hun, ?_⟩
    rw [hread, hread₁, hun₁, Heap.look_append, Heap.look, Heap.look, hmem, hmem₁]
    rfl
  by_cases h0 : n = 0 ∧ h.pending c ≠ []
  · -- the result is that of `MallocAck` with the bytes of the flush node
    obtain ⟨rfl, hne⟩ := h0
    obtain ⟨C, hback⟩ : ∃ C, p.back = c :: C := List.head?_eq_some_iff.mp hC
    have hpos : 0 < (h.pending c).length := List.length_pos_iff.mpr hne
    have hle : (h.pending c).length ≤ (h.unflushed p.back).length := by simp [hback]
    obtain ⟨b₁, h₁, b', h', hma, hfl, hset⟩ := hmain _ hle fun hz => by omega
    obtain ⟨hma', -⟩ := mallocAck_first hS.buffer hS.safe hback (.inr rfl)
    rw [hma', Option.some.injEq, Prod.mk.injEq, Prod.mk.injEq] at hma
    obtain ⟨-, rfl, rfl⟩ := hma
    exact ⟨_, _, b', h', _, (mallocAck_first hS.buffer hS.safe hback (.inl rfl)).1, hfl, hset,
      fun hz => absurd (hz rfl) hne, fun _ _ => ⟨hpos, hle⟩⟩
  · obtain ⟨b₁, h₁, b', h', hma, hfl, hset⟩ := hmain n hn fun hz => by
      by_contra hne
      exact h0 ⟨hz, hne⟩
    exact ⟨b₁, h₁, b', h', n, hma, hfl, hset, fun _ => rfl, fun hz hne => absurd ⟨hz, hne⟩ h0⟩

theorem Serves.malloc_room
    (hS : Serves h b p R l P) (hC : p.back = [c]) (hun : h.unflushed p.back = []) (hpos : 0 < n)
    (hma : b.malloc h cfg n = some (s, b', h')) : b'.flush = some c ∧
      (h'.pending c = [] ↔
        ¬ ((h.nodes c).readonly = false ∧ n ≤ (h.nodes c).buf.cap - (h.nodes c).malloc)) := by
  have hfuel : p.spare.length < h.fresh + 1 := by
    have : p.all.length < h.fresh + 1 := Parts.length_all hS.safe
    simp only [Parts.all, List.length_append] at this
    omega
  have hwrite : b.write = some c := by rw [hS.buffer.rep.write, hC]; rfl
  have hflush : b.flush = some c := by rw [hS.buffer.rep.flush, hC]; rfl
  obtain ⟨L, D, w, b₁, h₁, hgrow, hg, hro, hroom⟩ := growth_spec
    (b := { b with mallocSize := b.mallocSize + n }) (hS.buffer.rep.of_eq rfl rfl rfl rfl) hS.back
    hS.safe
    hS.buffer.owned_all hS.viewed cfg hpos hfuel
  have hpend : h.pending c = [] := by simpa [hC] using hun
  obtain ⟨next, hlink⟩ : Linked h h₁ c := hg.same c (by simp [hC])
  have hma : some (s, b', h') = some ((h₁.nodes w).room n, b₁, h₁.reserve w n) := by
    rw [← hma]
    simp [LinkBuffer.malloc, Nat.ne_of_gt hpos, hgrow, hg.ptr, Heap.nodeMalloc_eq hroom]
  rw [Option.some.injEq, Prod.mk.injEq, Prod.mk.injEq] at hma
  obtain ⟨-, rfl, rfl⟩ := hma
  refine ⟨by rw [hg.ptr]; exact hflush, ?_⟩
  by_cases hw : w = c
  · subst hw
    rw [hlink] at hro hroom
    have hfit := hS.buffer.rep.fit w (by simp [hC])
    have hgrown := hfit.grown (hS.buffer.plain hS.back w (Parts.mem_all_of_back (by simp [hC])))
    have hsome : ¬ (h₁.reserve w n).pending w = [] := by
      simp only [Heap.pending, Heap.reserve, Heap.set, Function.update_self, cells_eq_nil, hlink]
      have : (h.nodes w).buf.len ≤ (h.nodes w).malloc := hgrown
      omega
    simp only at hroom
    exact iff_of_false hsome (not_not.mpr ⟨hro, by omega⟩)
  · have hnone : (h₁.reserve w n).pending c = [] := by
      simpa [Heap.pending, Heap.reserve, Heap.set, Function.update_of_ne (Ne.symm hw), hlink]
        using hpend
    refine iff_of_true hnone fun hfit => hw ?_
    obtain ⟨hro', hroom'⟩ := hfit
    have hstay : growth cfg n (h.fresh + 1) { b with mallocSize := b.mallocSize + n } h =
        some ({ b with mallocSize := b.mallocSize + n }, h) := by
      simp [growth, hwrite, hro', Nat.not_lt.mpr hroom']
    rw [hgrow, Option.some.injEq, Prod.mk.injEq] at hstay
    have := congrArg LinkBuffer.write hstay.1
    rw [hg.ptr, hwrite] at this
    simpa using this

section Reads

variable {bs left : List UInt8} {k : Int}

theorem Serves.took (hS : Serves h b p R l P) (hC : p.back = [c]) (hun : h.unflushed p.back = [])
    (hp : ReadPost h h' b b' p p' n l.nodes l.kept P P')
    (hw : Writes (Loose h p.all b.kept) h.mem h'.mem) (hc : Cached h' b' p') :
    Settled h' b' R ((h.look (h.content p.early)).drop n) := by
  have hA : Acted h h' b b' p p' (.peek 0) l.nodes l.kept P P' :=
    hp.acted hS.buffer hw (fun hq => by cases hq) fun hq => by cases hq
  have hS' := hS.acted hA rfl (hp.back ▸ hS.back) hc
  refine ⟨p', l, P', c, hS', hp.back.trans hC, ?_, ?_⟩
  · rw [← Heap.later_eq_unflushed hS'.flushed, hp.later, Heap.later_eq_unflushed hS.flushed, hun]
  · rw [hp.readable, Heap.look, Memory.look_drop]
    exact congrArg _ (hS.look_eq hw)

theorem recalLen_spent (hn : 0 < n) :
    (b.recalLen (-n)).cachePeek = b.cachePeek.map fun q => { q with len := 0 } := by
  simp [recalLen, hn]

theorem Settled.asks {f : Nat → Option (Slice × LinkBuffer × Heap)} (hz : Settled h b R bs)
    (hk : k ≤ bs.length) (hleft : k ≤ 0 → left = bs) (msg : String)
    (hf : ∀ n : Nat, k = n → 0 < n → n ≤ bs.length → ∃ s b' h', f n = some (s, b', h') ∧
      Settled h' b' R left ∧ h'.bytes s = bs.take n) :
    ∃ s b' h', (if k ≤ 0 then some (.ok .nil, b, h)
        else if b.length < k then some (.error msg, b, h)
        else (f k.toNat).map fun (s, b, h) =>
        (.ok s, b, h)) = some ((.ok s, b', h') : Result Slice) ∧
      Settled h' b' R left ∧ h'.bytes s = bs.take k.toNat := by
  by_cases h0 : k ≤ 0
  · refine ⟨.nil, b, h, if_pos h0, (hleft h0).symm ▸ hz, ?_⟩
    rw [Int.toNat_of_nonpos h0]
    rfl
  · obtain ⟨n, rfl⟩ : ∃ n : Nat, k = n := ⟨k.toNat, by omega⟩
    obtain ⟨s, b', h', hs, hset, hbytes⟩ := hf n rfl (by omega) (by omega)
    have hlen : ¬ b.length < n := by
      obtain ⟨p, l, P, c, hS, -, -, rfl⟩ := hz
      rw [hS.length]
      simpa using hk
    exact ⟨s, b', h', by rw [if_neg h0, if_neg hlen, Int.toNat_natCast, hs]; rfl, hset, hbytes⟩

theorem Settled.next (hz : Settled h b R bs) (hk : k ≤ bs.length) : ∃ s b' h',
    b.next h k = some (.ok s, b', h') ∧ Settled h' b' R
      (bs.drop k.toNat) ∧ h'.bytes s = bs.take k.toNat := by
  refine hz.asks hk (fun h0 => by simp [Int.toNat_of_nonpos h0]) _ fun n hn hpos hle => ?_
  obtain ⟨p, l, P, c, hS, hC, hun, rfl⟩ := hz
  obtain ⟨s, b', h', p', P', htake, hp, -, hcalm, -, -, hbytes⟩ :=
    takeNext_spec hS.buffer hS.safe hpos (by simpa using hle)
  refine ⟨s, b', h', htake, ?_, by rw [hbytes hS.sound, Heap.look, Heap.look, Memory.look_take]⟩
  rw [hn, Int.toNat_natCast]
  exact hS.took hC hun hp hcalm.loose
    (.spent (.inr ((takeNext_cachePeek htake).trans (recalLen_spent hpos))))

theorem Settled.readBinaryN
    (cfg : Config) (hz : Settled h b R bs) (hpos : 0 < n) (hn : n ≤ bs.length) :
    ∃ s b' h', b.readBinaryN h cfg n = some (s, b', h') ∧ Settled h' b' R (bs.drop n) ∧
      h'.bytes s = bs.take n := by
  obtain ⟨p, l, P, c, hS, hC, hun, rfl⟩ := hz
  obtain ⟨s, b', h', p', P', htake, hp, -, hcalm, -, -, -, -, hbytes⟩ :=
    readBinaryN_spec cfg hS.buffer hS.safe hpos (by simpa using hn)
  refine ⟨s, b', h', htake, ?_, by rw [hbytes hS.sound, Heap.look, Heap.look, Memory.look_take]⟩
  exact hS.took hC hun hp hcalm.loose
    (.spent (.inr ((readBinaryN_cachePeek htake).trans (recalLen_spent hpos))))

theorem Settled.readBinary (cfg : Config) (hz : Settled h b R bs) (hk : k ≤ bs.length) : ∃ s b' h',
    b.readBinary h cfg k = some (.ok s, b', h') ∧ Settled h' b' R (bs.drop k.toNat) ∧
      h'.bytes s = bs.take k.toNat := by
  refine hz.asks hk (fun h0 => by simp [Int.toNat_of_nonpos h0]) _ fun n hn hpos hle => ?_
  rw [hn, Int.toNat_natCast]
  exact hz.readBinaryN cfg hpos hle

theorem Settled.readString (cfg : Config) (hz : Settled h b R bs) (hk : k ≤ bs.length) : ∃ s b' h',
    b.readString h cfg k = some (.ok s, b', h') ∧ Settled h' b' R (bs.drop k.toNat) ∧
      h'.bytes s = bs.take k.toNat := by
  refine hz.asks hk (fun h0 => by simp [Int.toNat_of_nonpos h0]) _ fun n hn hpos hle => ?_
  rw [hn, Int.toNat_natCast]
  exact hz.readBinaryN cfg hpos hle

theorem Settled.peek (hz : Settled h b R bs) (hk : k ≤ bs.length) : ∃ s b' h',
    b.peek h k = some (.ok s, b', h') ∧ Settled h' b' R bs ∧ h'.bytes s = bs.take k.toNat := by
  refine hz.asks hk (fun _ => rfl) _ fun n hn hpos hle => ?_
  obtain ⟨p, l, P, c, hS, hC, hun, rfl⟩ := hz
  obtain ⟨s, b', h', p', htake, hp, -, hw, -, hbytes⟩ :=
    takePeek_spec hS.buffer hS.safe hpos (by simpa using hle)
  obtain ⟨hbytes, hc⟩ := hbytes hS.sound hS.cached
  refine ⟨s, b', h', htake, ?_, by rw [hbytes, Heap.look, Heap.look, Memory.look_take]⟩
  simpa using hS.took hC hun hp hw hc

theorem Settled.skip (hz : Settled h b R bs) (hk : k ≤ bs.length) : ∃ b' h',
    b.skip h k = some (.ok (), b', h') ∧ Settled h' b' R (bs.drop k.toNat) := by
  by_cases h0 : k ≤ 0
  · refine ⟨b, h, if_pos h0, ?_⟩
    rwa [Int.toNat_of_nonpos h0, List.drop_zero]
  · obtain ⟨n, rfl⟩ : ∃ n : Nat, k = n := ⟨k.toNat, by omega⟩
    obtain ⟨p, l, P, c, hS, hC, hun, rfl⟩ := hz
    obtain ⟨b', h', p', hskip, hp, -, hmem⟩ :=
      skip_spec hS.buffer hS.safe (n := n) (by omega) (by simpa using hk)
    refine ⟨b', h', hskip, ?_⟩
    have hpeek : b'.cachePeek = (b.recalLen (-n)).cachePeek := by
      simp only [LinkBuffer.skip, if_neg h0, Option.bind_eq_bind] at hskip
      split at hskip
      · cases hskip
      · obtain ⟨⟨read, h₁⟩, -, hskip⟩ := Option.bind_eq_some_iff.mp hskip
        cases hskip
        rfl
    exact hS.took hC hun hp (by rw [hmem]; exact .refl)
      (.spent (.inr (hpeek.trans (recalLen_spent (by omega)))))

theorem Settled.readByte (hz : Settled h b R bs) (hk : 1 ≤ bs.length) : ∃ c b' h',
    b.readByte h = some (.ok c, b', h') ∧ Settled h' b' R (bs.drop 1) ∧ bs.take 1 = [c] := by
  obtain ⟨p, l, P, c, hS, hC, hun, rfl⟩ := hz
  obtain ⟨x, b', h', p', hread, hp, -, hmem, hbytes⟩ :=
    readByte_spec hS.buffer hS.safe (by simpa using hk)
  refine ⟨x, b', h', hread, ?_, by rw [← hbytes, Heap.look, Heap.look, Memory.look_take]⟩
  have hpeek : b'.cachePeek = (b.recalLen (-(1 : Nat))).cachePeek := by
    simp only [LinkBuffer.readByte, Option.bind_eq_bind] at hread
    split at hread
    · cases hread
    · obtain ⟨⟨s, read, h₁⟩, -, hread⟩ := Option.bind_eq_some_iff.mp hread
      obtain ⟨v, -, hread⟩ := Option.bind_eq_some_iff.mp hread
      cases hread
      rfl
  exact hS.took hC hun hp (by rw [hmem]; exact .refl)
    (.spent (.inr (hpeek.trans (recalLen_spent Nat.one_pos))))

theorem Settled.release (hz : Settled h b R bs) :
    ∃ b' h', b.release h = some (b', h') ∧ Settled h' b' R bs := by
  obtain ⟨p, l, P, c, hS, hC, hun, rfl⟩ := hz
  obtain ⟨b', h', p', hrel, hA, hkept, hmem, hback, hcont, hlater⟩ :=
    release_post (a := .release) hS.buffer hS.safe hS.viewed rfl
  have hpeek : b'.cachePeek = none := by
    cases hq : b'.cachePeek with
    | none => rfl
    | some q => simp [LinkBuffer.kept, hq] at hkept
  have hS' := hS.acted hA rfl (hback ▸ hS.back) (.spent (b := b) (.inl hpeek))
  refine ⟨b', h', hrel, p', l, P, c, hS', hback.trans hC,
    ?_, by rw [hcont, Heap.look, Heap.look, hmem]⟩
  rw [← Heap.later_eq_unflushed hS'.flushed, hlater, Heap.later_eq_unflushed hS.flushed, hun]

theorem Settled.readUntil (hz : Settled h b R bs) (delim : UInt8) :
    delim ∉ bs ∧ b.readUntil h delim =
    some (.error "link buffer read slice cannot find delim", b, h) ∨
      ∃ i s b' h', bs.idxOf? delim = some i ∧ b.readUntil h delim = some (.ok s, b', h') ∧
        Settled h' b' R (bs.drop (i + 1)) ∧ h'.bytes s = bs.take (i + 1) := by
  have hidx : b.indexByte h delim 0 = some (bs.idxOf? delim) := by
    obtain ⟨p, l, P, c, hS, -, -, rfl⟩ := hz
    rw [indexByte_spec hS.buffer hS.safe, Parts.content_live, hS.flushed]
    simp
  cases hi : bs.idxOf? delim with
  | none =>
    refine .inl ⟨List.idxOf?_eq_none_iff.mp hi, ?_⟩
    simp [LinkBuffer.readUntil, hidx, hi]
  | some i =>
    have hlt : i < bs.length := (List.idxOf?_eq_some_iff.mp hi).1
    obtain ⟨s, b', h', hnext, hset, hbytes⟩ := hz.next (k := i + 1) (by omega)
    refine .inr ⟨i, s, b', h', rfl, ?_, hset, hbytes⟩
    simp [LinkBuffer.readUntil, hidx, hi, hnext]

theorem takeSlice_cachePeek
    {rd : LinkBuffer} (hpos : 0 < n) (hr : b.takeSlice h cfg n = some (rd, b', h')) :
    b'.cachePeek = none ∨ b'.cachePeek = b.cachePeek.map fun q => { q with len := 0 } := by
  simp only [takeSlice, Option.bind_eq_bind] at hr
  obtain ⟨⟨single, b₁⟩, hsi, hr⟩ := Option.bind_eq_some_iff.mp hr
  obtain ⟨i, -, hr⟩ := Option.bind_eq_some_iff.mp hr
  split at hr
  · obtain ⟨⟨j, h₁⟩, -, hr⟩ := Option.bind_eq_some_iff.mp hr
    cases hr
    exact .inr ((isSingleNode_cachePeek hsi).trans (recalLen_spent hpos))
  · obtain ⟨⟨j, h₁⟩, -, hr⟩ := Option.bind_eq_some_iff.mp hr
    obtain ⟨⟨read, tail, h₂⟩, -, hr⟩ := Option.bind_eq_some_iff.mp hr
    obtain ⟨⟨b₂, h₃⟩, hrel, hr⟩ := Option.bind_eq_some_iff.mp hr
    cases hr
    simp only [LinkBuffer.release, Option.bind_eq_bind] at hrel
    obtain ⟨read', -, hrel⟩ := Option.bind_eq_some_iff.mp hrel
    obtain ⟨h₄, -, hrel⟩ := Option.bind_eq_some_iff.mp hrel
    obtain ⟨h₅, -, hrel⟩ := Option.bind_eq_some_iff.mp hrel
    obtain ⟨h₆, -, hrel⟩ := Option.bind_eq_some_iff.mp hrel
    cases hrel
    exact .inl rfl

theorem Inv.readable_eq {w : World} (hI : Inv w l P) (hx : (b, p) ∈ l) :
    b.readable w.heap = w.heap.content p.early := by
  obtain ⟨i, hi⟩ := List.mem_iff_getElem?.mp hx
  obtain ⟨q, rest, hF⟩ := hI.focus (i := i) (by rw [hI.bufs, List.getElem?_map, hi]; rfl)
  obtain rfl : p = q := by simpa [hi] using hF.get
  exact hF.buffer.readable_eq hF.safe

theorem Settled.add_new (cfg : Config) (hz : Settled h b R bs) :
    ∃ rd h', newLinkBuffer h cfg 0 = (rd, h') ∧ Settled h' b (R ++ [rd]) bs ∧ rd.length = 0 ∧
    rd.readable h' = [] := by
  obtain ⟨p, l, P, c, hS, hC, hun, rfl⟩ := hz
  obtain ⟨rd, h', q, hnew, hI, hM, hq, -⟩ := hS.inv.add_new cfg (.slice 0 0) 0
  obtain ⟨j, h₁, hnew', -, -, hk, -, hmem, -⟩ := newLinkBuffer_spec hS.inv.safe cfg 0
  obtain ⟨rfl, rfl⟩ : h' = h₁ ∧
    rd = { head := some j, read := some j, flush := some j, write := some j } := by
    simpa [and_comm] using hnew.symm.trans hnew'
  have hbare : ∀ k ∈ p.all, (h'.nodes k).bare = (h.nodes k).bare := fun k hk' =>
    hk.node k (List.mem_append_left _ hk')
  have hcont : h'.content p.early = h.content p.early :=
    Heap.content_bare fun k hk => hbare k (Parts.mem_all_of_live (Parts.mem_live_of_early hk))
  have hlook : h'.look (h'.content p.early) = h.look (h.content p.early) := by
    rw [hcont, Heap.look, Heap.look, hmem]
  have hS' : Serves h' b p (R ++ [_]) (l ++ [(_, q)]) P :=
    ⟨hI, hM.idle rfl rfl hS.idle, hM.unsplit rfl hS.unsplit, hS.back,
      hS.cached.grow rfl (fun q _ => by rw [Heap.bytes, Heap.bytes, hmem])
      (hlook ▸ List.prefix_refl _)⟩
  refine ⟨_, h', hnew, ⟨p, _, P, c, hS', hC, ?_, hlook⟩, rfl, ?_⟩
  · rw [Heap.unflushed_bare fun k hk => hbare k (Parts.mem_all_of_back hk), hun]
  · rw [hI.readable_eq (p := q) (by simp)]
    exact Heap.content_eq_nil
      fun k hk => (hq k (Parts.mem_all_of_live (Parts.mem_live_of_early hk))).ready

theorem Settled.slice (cfg : Config) (hz : Settled h b R bs) (hk : k ≤ bs.length) : ∃ rd b' h',
    b.slice h cfg k = some (.ok rd, b', h') ∧ Settled h' b' (R ++ [rd]) (bs.drop k.toNat) ∧
      rd.length = k.toNat ∧ h'.look (rd.readable h') = bs.take k.toNat := by
  by_cases h0 : k ≤ 0
  · obtain ⟨rd, h', hnew, hset, hlen, hread⟩ := hz.add_new cfg
    rw [Int.toNat_of_nonpos h0]
    exact ⟨rd, b, h', by simp [LinkBuffer.slice, h0, hnew], hset, hlen, by rw [hread]; rfl⟩
  · obtain ⟨n, rfl⟩ : ∃ n : Nat, k = n := ⟨k.toNat, by omega⟩
    obtain ⟨p, l, P, c, hS, hC, hun, rfl⟩ := hz
    obtain ⟨rd, b', h', p', X, htake, hp⟩ :=
      takeSlice_spec cfg hS.buffer hS.safe hS.viewed (n := n) (by omega) (by simpa using hk)
    have hlen : ¬ b.length < n := by
      rw [hS.length]
      simpa using hk
    have hM := hp.moved (j := 0) (m := n) hS.focus
    have hI := hp.inv hS.focus hS.inv
    have hS' : Serves h' b' p' (R ++ [rd]) (l ++ [(rd, ⟨[], X, [], []⟩)]) P :=
      ⟨hI, hM.idle rfl rfl hS.idle, hM.unsplit rfl hS.unsplit, hp.back ▸ hS.back,
        .spent (takeSlice_cachePeek (by omega) htake)⟩
    refine ⟨rd, b',
      h', by
      rw [LinkBuffer.slice, if_neg h0, if_neg hlen, Int.toNat_natCast, htake]; rfl,
        ⟨p', _, P, c, hS', hp.back.trans hC, ?_, ?_⟩, ?_, ?_⟩
    · rw [← Heap.later_eq_unflushed hS'.flushed, hp.later, Heap.later_eq_unflushed hS.flushed, hun]
    · rw [hp.readable, Heap.look, Heap.look, hp.mem, Memory.look_drop, Int.toNat_natCast]
    · rw [hp.reader.length, Parts.live, List.append_nil, hp.content, List.length_take]
      simp at hk
      omega
    · have hread := hI.readable_eq (b := rd) (p := ⟨[], X, [], []⟩) (by simp)
      rw [show rd.readable h' = _ from hread, Parts.early, List.take_nil, List.append_nil,
        hp.content, Heap.look, Heap.look, hp.mem, Memory.look_take, Int.toNat_natCast]

end Reads

namespace ZcReader

variable {z z' : ZcReader} {src : Source} {bs : List UInt8}

def Holds (z : ZcReader) (bs : List UInt8) : Prop := Settled z.heap z.buf z.slices bs

theorem Holds.held (hz : z.Holds bs) : z.held = bs := by
  obtain ⟨p, l, P, c, hS, -, -, rfl⟩ := hz
  rw [ZcReader.held, hS.buffer.readable_eq hS.safe]

theorem Holds.len (hz : z.Holds bs) : z.len = bs.length := by
  obtain ⟨p, l, P, c, hS, -, -, rfl⟩ := hz
  rw [ZcReader.len, hS.length, Heap.length_look]

theorem holds_newZCReader (cfg : Config) (mem : Nat → Nat → UInt8) (picks : Nat → Nat) :
    (newZCReader (World.start mem picks).heap cfg).Holds [] := by
  obtain ⟨i, h', hnew, hb, hs, -, -, -, hi⟩ := newLinkBuffer_spec (Inv.start mem picks).safe cfg 0
  have hz : newZCReader (World.start mem picks).heap cfg =
      ⟨h', { head := some i, read := some i, flush := some i, write := some i }, [], 0⟩ := by
    simp [newZCReader, hnew]
  rw [hz]
  refine ⟨⟨[], [], [i], []⟩, [], _, i, ⟨⟨rfl, ?_, hs⟩, ?_, ?_, by simp, fun q hq => by cases hq⟩,
    rfl, ?_, ?_⟩
  · rintro x hx
    rw [List.mem_singleton.mp hx]
    exact hb
  · rintro x hx k hk
    rw [List.mem_singleton.mp hx] at hk
    cases hk
  · intro k hk hv
    obtain rfl : k = i := by simpa [Layout.nodes, Parts.all] using hk
    rcases hi.block with h0 | ⟨hro, -⟩
    · exact absurd hv.2.2 (by simp [h0])
    · exact absurd hv.2.1 (by simp [hro])
  · simp [hi.pending]
  · simp [Parts.early, hi.ready]

def Read.Sane (rd : Read) : Prop := 0 ≤ rd.num ∧ rd.num ≤ rd.data.length ∧ rd.data.length ≤ block4k

theorem Read.Sane.settled {rd : Read} (hr : rd.Sane) : rd.settled = (rd.num, rd.err) := by
  simp [Read.settled, Int.not_lt.mpr hr.1]

theorem Holds.cycle (hz : z.Holds bs) (cfg : Config) (hr : (src z.reads).Sane) :
    ∃ z' extra, z.cycle cfg src = some ((src z.reads).err, z') ∧ z'.Holds (bs ++ extra) ∧
      z'.reads = z.reads + 1 ∧ (((src z.reads).num = 0 → ¬ z.fits) → extra = (src z.reads).bytes) ∧
      ((src z.reads).num = 0 → z.fits → extra ≠ []) := by
  obtain ⟨p, l, P, c, hS, hC, hun, rfl⟩ := hz
  generalize hrd : src z.reads = rd at hr ⊢
  obtain ⟨k, hk⟩ : ∃ k : Nat, rd.num = k := ⟨rd.num.toNat, (Int.toNat_of_nonneg hr.1).symm⟩
  obtain ⟨s, b₁, h₁, p₁, hma, hlen, hS₁, hlook, hun₁⟩ :=
    hS.reserve cfg (n := block4k) (by decide) rd.data
  obtain ⟨hflush, hroom⟩ := hS.malloc_room hC hun (by decide) hma
  have hsize : s.cells.length = block4k := by simp [Slice.cells, hlen]
  rw [hun, List.nil_append] at hun₁
  have hfits : (h₁.copy s rd.data).pending c = [] ↔ ¬ z.fits := by
    refine hroom.trans (not_congr ?_)
    simp [fits, hS.buffer.rep.write, hC]
  obtain ⟨b₂, h₂, b', h', m, hack, hfl, hset, hexact, hmore⟩ := hS₁.commit cfg (n := k)
    (by rw [← hflush, hS₁.buffer.rep.flush]) (by
      rw [hun₁, hsize]
      have := hr.2.1
      have := hr.2.2
      omega)
  rw [hlook, hun₁] at hset
  refine ⟨{ z with heap := h', buf := b', reads := z.reads + 1 }, _, ?_, hset, rfl, fun hne => ?_,
    fun h0 hfit => ?_⟩
  · simp [ZcReader.cycle, hma, hrd, hr.settled, hk, hack, hfl]
  · obtain rfl := hexact fun hz => hfits.mpr (hne (by omega))
    have hle := hr.2.1
    rw [Heap.look_copy (by rw [hlen]; exact hr.2.2) (by omega), Read.bytes, hk, Int.toNat_natCast]
  · obtain ⟨hpos, hle⟩ := hmore (by omega) fun hnil => hfits.mp hnil hfit
    rw [hun₁] at hle
    intro hnil
    have := congrArg List.length hnil
    simp only [Heap.length_look, List.length_take, List.length_nil] at this
    omega

end ZcReader

end Netpoll.Nocopy
