import Netpoll.Nocopy.Contents

namespace Netpoll.Nocopy

open Netpoll.Lib Netpoll.Lib.Memory Netpoll.Lib.Transition LinkBuffer

variable {w : World} {l : Layout} {P : Nat → Prop} {h h' : Heap} {b : LinkBuffer} {p : Parts}
  {U L : List Nat} {K : List Slice} {i k c n room size fuel : Nat} {node : Option Nat}
  {vs : List Slice} {bs : List UInt8} {cfg : Config} {mem : Nat → Nat → UInt8} {picks : Nat → Nat}

def Node.unread (node : Node) :
    Slice := ⟨node.buf.blk, node.buf.off + node.off, node.len, node.buf.cap - node.off⟩

theorem Node.after_off {node : Node} (hf : node.Fit) :
    node.buf.after node.off = some node.unread := by
  simp [Slice.after, hf.off, Node.unread, Node.len]

theorem Heap.bytes_unread (h : Heap) (i : Nat) : h.bytes (h.nodes i).unread = h.look (h.ready i) :=
  Heap.bytes_eq

def Heap.pieces (h : Heap) (L : List Nat) (c : Nat) : List Slice :=
  (L.filter fun i => decide (0 < (h.nodes i).len)).map (fun i => (h.nodes i).unread) ++
    [(h.nodes c).unread]

theorem Heap.pieces_cons : h.pieces (i :: L) c =
    if 0 < (h.nodes i).len then (h.nodes i).unread :: h.pieces L c else h.pieces L c := by
  by_cases hl : 0 < (h.nodes i).len <;> simp [Heap.pieces, hl]

theorem getBytesLoop_spec (hL : Chain.Seg (fun i => (h.nodes i).next) node L (some c)) (hc : c ∉ L)
    (hfit : ∀ i ∈ L ++ [c], (h.nodes i).Fit) (hf : L.length < fuel) (hroom : vs.length ≤ room) :
    getBytesLoop h (some c) fuel node room vs =
    some (vs ++ (h.pieces L c).take (room - vs.length)) := by
  induction L generalizing node fuel vs with
  | nil =>
    obtain ⟨f, rfl⟩ := Nat.exists_eq_add_of_lt hf
    obtain rfl : node = some c := hL
    by_cases hlt : vs.length < room
    · have hone : room - vs.length ≠ 0 := by omega
      simp [getBytesLoop, hlt, Node.after_off (hfit c (by simp)), Heap.pieces,
        List.take_of_length_le, Nat.one_le_iff_ne_zero.mpr hone]
    · have hzero : room - vs.length = 0 := by omega
      simp [getBytesLoop, hlt, hzero]
  | cons i L ih =>
    obtain ⟨f, rfl, hB⟩ := Chain.steps_of_length_lt hf
    obtain ⟨rfl, hL⟩ := hL
    have hic : i ≠ c := fun he => hc (by simp [he])
    have ih : ∀ vs : List Slice, vs.length ≤ room → _ := fun vs hv =>
      ih hL (fun hm => hc (by simp [hm])) (fun k hk => hfit k (by simp at hk ⊢; tauto)) hB hv
    rw [Heap.pieces_cons]
    by_cases hlt : vs.length < room
    · by_cases hl : 0 < (h.nodes i).len
      · obtain ⟨r, hr⟩ : ∃ r, room - vs.length = r + 1 := ⟨room - vs.length - 1, by omega⟩
        have hr' : room - (vs.length + 1) = r := by omega
        have hstep := ih (vs ++ [(h.nodes i).unread]) (by simpa using Nat.succ_le_of_lt hlt)
        simp [getBytesLoop, hic, hlt, hl, Node.after_off (hfit i (by simp)), hstep, hr, hr']
      · simp [getBytesLoop, hic, hlt, hl, ih vs hroom]
    · have hzero : room - vs.length = 0 := by omega
      simp [getBytesLoop, hlt, hzero]

theorem countLoop_spec (hL : Chain.Seg (fun i => (h.nodes i).next) node L (some c)) (hc : c ∉ L)
    (hf : L.length < fuel) : countLoop h (some c) fuel node n = some (n + L.length) := by
  induction L generalizing node fuel n with
  | nil =>
    obtain ⟨f, rfl⟩ := Nat.exists_eq_add_of_lt hf
    obtain rfl : node = some c := hL
    simp [countLoop]
  | cons i L ih =>
    obtain ⟨f, rfl, hB⟩ := Chain.steps_of_length_lt hf
    obtain ⟨rfl, hL⟩ := hL
    have hic : i ≠ c := fun he => hc (by simp [he])
    rw [countLoop, if_neg (by simpa using hic)]
    simp only [Option.bind_eq_bind, Option.bind_some]
    rw [ih hL (fun hm => hc (by simp [hm])) hB, List.length_cons]
    congr 1
    omega

theorem bytesLoop_spec (hL : Chain.Seg (fun i => (h.nodes i).next) node L (some c)) (hc : c ∉ L)
    (hfit : ∀ i ∈ L ++ [c], (h.nodes i).Fit) (hf : L.length < fuel)
    (hsize : bs.length + (h.content (L ++ [c])).length ≤ size) :
    bytesLoop h (some c) size fuel node bs = some (bs ++ h.look (h.content (L ++ [c]))) := by
  induction L generalizing node fuel bs with
  | nil =>
    obtain ⟨f, rfl⟩ := Nat.exists_eq_add_of_lt hf
    obtain rfl : node = some c := hL
    have hle : (h.look (h.ready c)).length ≤ size - bs.length := by
      simp at hsize ⊢
      omega
    simp [bytesLoop, Node.after_off (hfit c (by simp)), Heap.bytes_unread,
      List.take_of_length_le hle]
  | cons i L ih =>
    obtain ⟨f, rfl, hB⟩ := Chain.steps_of_length_lt hf
    obtain ⟨rfl, hL⟩ := hL
    have hic : i ≠ c := fun he => hc (by simp [he])
    simp only [List.cons_append, Heap.content_cons, List.length_append, Heap.length_ready] at hsize
    have ih : ∀ bs : List UInt8, bs.length + (h.content (L ++ [c])).length ≤ size → _ :=
      fun bs hv =>
      ih hL (fun hm => hc (by simp [hm])) (fun k hk => hfit k (by simp at hk ⊢; tauto)) hB hv
    by_cases hl : 0 < (h.nodes i).len
    · have hle : (h.look (h.ready i)).length ≤ size - bs.length := by
        simp
        omega
      rw [bytesLoop, if_neg (by simpa using hic)]
      simp only [Option.bind_eq_bind, Option.bind_some, if_pos hl,
        Node.after_off (hfit i (by simp)), Heap.bytes_unread, List.take_of_length_le hle]
      rw [ih _
        (by
          simp only [List.length_append, Heap.look, Memory.length_look, Heap.length_ready]; omega)]
      simp
    · have hnil : h.ready i = [] := List.eq_nil_of_length_eq_zero (by simp; omega)
      rw [bytesLoop, if_neg (by simpa using hic)]
      simp only [Option.bind_eq_bind, Option.bind_some, if_neg hl]
      rw [ih _ (by omega)]
      simp [hnil]

section Flushed

variable (hb : Buffer h b p) (hs : Safe h (p.all ++ U) K P) {C : List Nat} (hC : p.back = c :: C)
include hb hs hC

theorem Buffer.seg_flush :
    Chain.Seg (fun i => (h.nodes i).next) b.read p.front
      (some c) ∧ c ∉ p.front ∧ (∀ i ∈ p.front ++ [c], (h.nodes i).Fit) ∧
      p.front.length < h.fresh + 1 ∧ b.flush = some c := by
  have hflush : b.flush = some c := by rw [hb.rep.flush, hC]; rfl
  obtain ⟨e, hseg⟩ := hb.rep.seg_early
  rw [hC] at hseg
  obtain ⟨d, hfront, hd, -⟩ := Chain.seg_append.mp hseg
  have hnd := hs.nodup.of_append_left.of_append_left
  have hlen := Parts.length_all hs
  rw [hC] at hnd
  simp only [Parts.all, List.length_append] at hlen
  refine ⟨hd ▸ hfront, fun hm => (List.nodup_append.mp hnd).2.2 c (by simp [hm]) c (by simp) rfl,
    fun k hk => ?_, by omega, hflush⟩
  refine hb.rep.fit k ?_
  rw [hC]
  simp only [List.mem_append, List.mem_cons, List.not_mem_nil, or_false] at hk ⊢
  tauto

omit hb hs in
theorem Parts.early_flush : p.early = p.front ++ [c] := by
  rw [Parts.early, hC]
  rfl

theorem Buffer.getBytes_eq (room : Nat) : b.getBytes h room =
    some ((h.pieces p.front c).take (if room = 0 then p.front.length else room)) := by
  obtain ⟨hseg, hnot, hfit, hfuel, hflush⟩ := hb.seg_flush hs hC
  have hloop : ∀ room, getBytesLoop h (some c) (h.fresh + 1) b.read room [] = _ := fun room =>
    getBytesLoop_spec hseg hnot hfit hfuel (Nat.zero_le room)
  by_cases h0 : room = 0
  · simp [getBytes, h0, hflush, countLoop_spec hseg hnot hfuel, hloop]
  · simp [getBytes, h0, hflush, hloop]

theorem Buffer.bytes_eq : b.bytes h = some (h.look (h.content p.early)) := by
  obtain ⟨hseg, hnot, hfit, hfuel, hflush⟩ := hb.seg_flush hs hC
  have hread : b.read = (p.front ++ [c]).head? := by
    rw [hb.rep.read, hC]
    cases p.front <;> rfl
  rw [Parts.early_flush hC]
  by_cases hnil : p.front = []
  · rw [LinkBuffer.bytes, hread, hnil, hflush]
    simp [Node.after_off (hfit c (by simp)), Heap.bytes_unread]
  · obtain ⟨i, L, hL⟩ := List.exists_cons_of_ne_nil hnil
    have hne : b.read ≠ b.flush := by
      rw [hread, hflush, hL]
      simp only [List.cons_append, List.head?_cons, ne_eq, Option.some.injEq]
      exact fun he => hnot (by simp [hL, he])
    have hlen : (h.content (p.front ++ [c])).length ≤ b.length.toNat := by
      have := congrArg List.length (Parts.content_live (h := h) (p := p))
      rw [hb.length, this, Parts.early_flush hC, List.length_append]
      omega
    rw [LinkBuffer.bytes, if_neg hne, if_neg (by have := hb.length; omega), hflush,
      bytesLoop_spec hseg hnot hfit hfuel (by simpa using hlen), List.nil_append]

end Flushed

theorem Heap.pieces_bytes : (h.pieces L c).flatMap h.bytes = h.look (h.content (L ++ [c])) := by
  induction L with
  | nil => simp [Heap.pieces, Heap.bytes_unread]
  | cons i L ih =>
    rw [Heap.pieces_cons, List.cons_append, Heap.content_cons, Heap.look_append, ← ih]
    split
    · rw [List.flatMap_cons, Heap.bytes_unread]
    · have hnil : h.ready i = [] := List.eq_nil_of_length_eq_zero (by simp; omega)
      simp [hnil]

theorem Heap.take_pieces_initial :
    ((h.pieces L c).take n).flatMap h.bytes <+: h.look (h.content (L ++ [c])) := by
  rw [← Heap.pieces_bytes]
  nth_rewrite 2 [← List.take_append_drop n (h.pieces L c)]
  rw [List.flatMap_append]
  exact List.prefix_append _ _

theorem Heap.take_pieces_ne_nil (hn : 0 < n) (hne : h.content (L ++ [c]) ≠ []) :
    ((h.pieces L c).take n).flatMap h.bytes ≠ [] := by
  obtain ⟨m, rfl⟩ : ∃ m, n = m + 1 := ⟨n - 1, by omega⟩
  induction L with
  | nil =>
    intro he
    simp only [Heap.pieces, List.filter_nil, List.map_nil, List.nil_append, List.take_succ_cons,
      List.take_nil, List.flatMap_cons, List.flatMap_nil, List.append_nil, Heap.bytes_unread] at he
    have := congrArg List.length he
    exact hne (List.eq_nil_of_length_eq_zero (by simpa [Heap.look] using this))
  | cons i L ih =>
    rw [Heap.pieces_cons]
    split
    · next hl =>
      intro he
      rw [List.take_succ_cons, List.flatMap_cons, Heap.bytes_unread, List.append_eq_nil_iff] at he
      have := congrArg List.length he.1
      simp [Heap.look] at this
      omega
    · have hnil : h.ready i = [] := List.eq_nil_of_length_eq_zero (by simp; omega)
      exact ih (by simpa [hnil] using hne)

theorem Heap.pieces_all :
    ((h.pieces L c).take L.length).flatMap h.bytes = h.look
    (h.content (L ++ [c])) ↔ (∃ k ∈ L, h.ready k = []) ∨ h.ready c = [] := by
  have hready : ∀ k, h.ready k = [] ↔ ¬ 0 < (h.nodes k).len := fun k => by
    rw [← List.length_eq_zero_iff, Heap.length_ready]
    omega
  by_cases hex : ∃ k ∈ L, h.ready k = []
  · refine iff_of_true ?_ (.inl hex)
    have hlt : (L.filter fun i => decide (0 < (h.nodes i).len)).length < L.length := by
      refine List.length_filter_lt_length_iff_exists.mpr ?_
      simpa [hready] using hex
    have hlen : (h.pieces L c).length ≤ L.length := by
      simp only [Heap.pieces, List.length_append, List.length_map, List.length_singleton]
      omega
    rw [List.take_of_length_le hlen, Heap.pieces_bytes]
  · have hall : (L.filter fun i => decide (0 < (h.nodes i).len)) = L := by
      rw [List.filter_eq_self]
      exact fun k hk => decide_eq_true (not_not.mp fun h0 => hex ⟨k, hk, (hready k).mpr h0⟩)
    have htake : ((h.pieces L c).take L.length).flatMap h.bytes = h.look (h.content L) := by
      rw [Heap.pieces, hall, List.take_left' (by simp)]
      simp only [List.flatMap_map, Heap.bytes_unread, Heap.content, Heap.look, Memory.look,
        List.map_flatMap]
    rw [htake, Heap.content_append, Heap.look_append]
    simp [hex, Heap.look, Memory.look]

/-- `GetBytes()` has a slot for the flush node, or needs none. -/
def LinkBuffer.Slotted (b : LinkBuffer) (h : Heap) : Prop :=
  (∃ k ∈ (b.early h).dropLast, h.ready k = []) ∨ ∀ c ∈ b.flush, h.ready c = []

instance (b : LinkBuffer) (h : Heap) : Decidable (b.Slotted h) :=
  inferInstanceAs (Decidable ((∃ k ∈ (b.early h).dropLast, _) ∨ ∀ c ∈ b.flush, _))

/-- In every run `GetBytes(p)` agrees with `Bytes` if and only if, for an empty `p`, the flush node
needs no slot or an empty node before it leaves one. -/
theorem getBytes_agrees (hw : Reach (World.step cfg) (fun w op => w.legal op ∧ w.Careful op)
      (World.start mem picks) w) (hi : w.bufs[i]? = some b) (hb : b.flush ≠ none)
    (hf : w.heap.content (b.back w.heap).tail = []) (room : Nat) :
    ∃ vs bs, b.getBytes w.heap room = some vs ∧ b.bytes w.heap = some bs ∧
      (((room = 0 ∨ (b.early w.heap).length < room → vs.flatMap w.heap.bytes = bs) ∧
        (room ≠ 0 → vs.flatMap w.heap.bytes <+: bs ∧
          (0 < b.length → vs.flatMap w.heap.bytes ≠ []))) ↔
        (room = 0 → b.Slotted w.heap)) := by
  obtain ⟨l, hI, -⟩ := run_inv (I := fun _ _ => True) hw trivial (fun _ _ hop => hop)
    fun _ _ _ => trivial
  obtain ⟨p, rest, hF⟩ := hI.focus hi
  obtain ⟨c, C, hC⟩ : ∃ c C, p.back = c :: C :=
    List.exists_cons_of_ne_nil fun he => hb (write_none hF.buffer he).2
  have hearly : b.early w.heap = p.front ++ [c] := by
    rw [hF.buffer.early_eq hF.safe, Parts.early_flush hC]
  have hslot : b.Slotted w.heap ↔ (∃ k ∈ p.front, w.heap.ready k = []) ∨ w.heap.ready c = [] := by
    rw [LinkBuffer.Slotted, hearly, List.dropLast_concat, (hF.buffer.seg_flush hF.safe hC).2.2.2.2]
    simp
  refine ⟨_, _, hF.buffer.getBytes_eq hF.safe hC room, hF.buffer.bytes_eq hF.safe hC, ?_⟩
  rw [Parts.early_flush hC, hslot, hearly]
  by_cases h0 : room = 0
  · simp only [h0, if_true, true_or, forall_const, ne_eq, not_true_eq_false, false_implies,
      and_true, Heap.pieces_all]
  · have hmany : (p.front ++ [c]).length < room →
      ((w.heap.pieces p.front c).take room).flatMap w.heap.bytes =
        w.heap.look (w.heap.content (p.front ++ [c])) := fun hlt => by
      have hle := List.length_filter_le (fun i => decide (0 < (w.heap.nodes i).len)) p.front
      rw [List.take_of_length_le (by simp [Heap.pieces] at hlt ⊢; omega), Heap.pieces_bytes]
    have hsome : 0 < b.length → w.heap.content (p.front ++ [c]) ≠ [] := fun hpos he => by
      rw [hF.buffer.back_eq hF.safe] at hf
      rw [hF.buffer.length, Parts.content_live, Parts.early_flush hC, he, hf] at hpos
      simp at hpos
    simp only [if_neg h0]
    exact iff_of_true ⟨fun hr => hmany (hr.resolve_left h0),
      fun _ => ⟨Heap.take_pieces_initial, fun hpos =>
      Heap.take_pieces_ne_nil (by omega) (hsome hpos)⟩⟩ fun hr => absurd hr h0

/-- With everything in one node `GetBytes()` makes no slot. -/
theorem getBytes_misses : ∃ w b, World.after (fun w op => w.legal op)
      [.new 1, .act 0 (.malloc 2), .act 0 .flush] = some w ∧ w.bufs[0]? = some b ∧
    b.getBytes w.heap 0 = some [] ∧ b.bytes w.heap = some [0, 0] :=
  ⟨_, _, rfl, rfl, rfl, by decide⟩

theorem getBytes_agrees_two : ∃ w b vs, World.after (fun w op => w.legal op ∧ w.Careful op)
      [.new 1, .act 0 (.malloc 6), .act 0 (.fill (0, 0) 3), .act 0 (.malloc 6), .act 0 .flush] =
      some w ∧
    w.bufs[0]? = some b ∧ b.getBytes w.heap 1 = some vs ∧
    vs.flatMap w.heap.bytes <+: [3, 0, 0, 0, 0, 0, 0, 0, 0, 0, 0, 0] ∧
    vs.flatMap w.heap.bytes ≠ [] := by
  obtain ⟨w, b, hw, hi, hb, hf, hlen, hbs⟩ : ∃ w b,
    World.after (fun w op => w.legal op ∧ w.Careful op)
        [.new 1, .act 0 (.malloc 6), .act 0 (.fill (0, 0) 3), .act 0 (.malloc 6), .act 0 .flush] =
        some w ∧
      w.bufs[0]? = some b ∧ b.flush ≠ none ∧ w.heap.content (b.back w.heap).tail = [] ∧
      0 < b.length ∧ b.bytes w.heap = some [3, 0, 0, 0, 0, 0, 0, 0, 0, 0, 0, 0] :=
    ⟨_, _, rfl, rfl, by decide, rfl, by decide, by decide⟩
  obtain ⟨vs, bs, hv, hbs', hiff⟩ := getBytes_agrees (World.reach_of_after hw) hi hb hf 1
  obtain ⟨hpre, hne⟩ := (hiff.mpr fun h0 => by cases h0).2 (by decide)
  obtain rfl : bs = _ := by simpa [hbs] using hbs'.symm
  exact ⟨w, b, vs, hw, hi, hv, hpre, hne hlen⟩

/-- The addresses of the bytes that `Len` counts. -/
def LinkBuffer.counted (b : LinkBuffer) (h : Heap) :
    List Addr := h.content (LinkBuffer.walk h b.write b.read)

theorem Buffer.counted_eq (hb : Buffer h b p) (hs : Safe h (p.all ++ U) K P) :
    b.counted h = h.content p.live := by
  rw [LinkBuffer.counted]
  congr 1
  have hlen := Parts.length_all hs
  simp only [Parts.all, List.length_append] at hlen
  have hseg := hb.rep.seg_old.2
  by_cases hC : p.back = []
  · rw [hC, hb.rep.reader hC, List.append_nil, List.append_nil] at hseg
    rw [LinkBuffer.walk, hb.rep.write, hC, Parts.live, hC, List.append_nil]
    exact hseg.walk_all (by omega)
  · obtain ⟨M, x, hM⟩ := exists_last hC
    obtain ⟨e, hlive, -⟩ := Chain.seg_append.mp hseg
    have hnd := hs.nodup.of_append_left.of_append_left
    rw [hM, ← List.append_assoc] at hlive hnd
    rw [LinkBuffer.walk, hb.rep.write, Parts.live, hM, List.getLast?_concat, ← List.append_assoc]
    refine hlive.walk_eq (fun hm => ?_) ?_
    · exact (List.nodup_append.mp hnd).2.2 x (by simp at hm ⊢; tauto) x (by simp) rfl
    · rw [hM] at hlen
      simp only [List.length_append, List.length_singleton] at hlen ⊢
      omega

theorem idxOf?_drop_eq_none {l : List UInt8} {c : UInt8} {skip : Nat} :
    ((l.drop skip).idxOf? c).map (skip + ·) = none ↔ ∀ j, skip ≤ j → l[j]? ≠ some c := by
  rw [Option.map_eq_none_iff, List.idxOf?_eq_none_iff, List.mem_iff_getElem?]
  simp only [List.getElem?_drop, not_exists]
  constructor
  · intro hk j hj
    obtain ⟨k, rfl⟩ := Nat.exists_eq_add_of_le hj
    exact hk k
  · exact fun hj k => hj (skip + k) (by omega)

theorem idxOf?_drop_eq_some {l : List UInt8} {c : UInt8} {skip n : Nat} :
    ((l.drop skip).idxOf? c).map (skip + ·) = some n ↔
      skip ≤ n ∧ l[n]? = some c ∧ ∀ j, skip ≤ j → j < n → l[j]? ≠ some c := by
  have hget : ∀ k, (l.drop skip)[k]? = l[skip + k]? := fun k => List.getElem?_drop
  simp only [Option.map_eq_some_iff, List.idxOf?_eq_some_iff]
  constructor
  · rintro ⟨k, ⟨hk, hc, hlt⟩, rfl⟩
    refine ⟨by omega, by rw [← hget, List.getElem?_eq_getElem hk, hc], fun j hj hjk => ?_⟩
    obtain ⟨i, rfl⟩ := Nat.exists_eq_add_of_le hj
    have hik : i < k := by omega
    rw [← hget, List.getElem?_eq_getElem (hik.trans hk)]
    simpa using hlt i hik
  · rintro ⟨hle, hc, hlt⟩
    obtain ⟨k, rfl⟩ := Nat.exists_eq_add_of_le hle
    rw [← hget] at hc
    obtain ⟨hk, hc⟩ := List.getElem?_eq_some_iff.mp hc
    refine ⟨k, ⟨hk, hc, fun j hj he => ?_⟩, rfl⟩
    refine hlt (skip + j) (by omega) (by omega) ?_
    rw [← hget, List.getElem?_eq_getElem (hj.trans hk), he]

/-- In every run `indexByte` finds the first occurrence, and looks at no bytes but those that are
counted. -/
theorem indexByte_first (hw : Reach (World.step cfg) (fun w op => w.legal op ∧ w.Careful op)
      (World.start mem picks) w) (hi : w.bufs[i]? = some b) (c : UInt8) (skip : Nat) :
    ∃ r, b.indexByte w.heap c skip = some r ∧
      (∀ n, r = some n ↔ skip ≤ n ∧ (w.heap.look (b.counted w.heap))[n]? = some c ∧
        ∀ j, skip ≤ j → j < n → (w.heap.look (b.counted w.heap))[j]? ≠ some c) ∧
      (r = none ↔ ∀ j, skip ≤ j → (w.heap.look (b.counted w.heap))[j]? ≠ some c) ∧
      (b.counted w.heap).length = b.length ∧
      (w.heap.content (b.back w.heap).tail = [] → b.counted w.heap = b.readable w.heap) ∧
      ∀ m, (∀ x ∈ b.counted w.heap, m x.1 x.2 = w.heap.mem x.1 x.2) →
        b.indexByte { w.heap with mem := m } c skip = some r := by
  obtain ⟨l, hI, -⟩ := run_inv (I := fun _ _ => True) hw trivial (fun _ _ hop => hop)
    fun _ _ _ => trivial
  obtain ⟨p, rest, hF⟩ := hI.focus hi
  have hcount := hF.buffer.counted_eq hF.safe
  refine ⟨_, indexByte_spec hF.buffer hF.safe, ?_⟩
  rw [hcount]
  refine ⟨fun n => idxOf?_drop_eq_some, idxOf?_drop_eq_none, hF.buffer.length.symm, fun hf => ?_,
    fun m hm => ?_⟩
  · rw [hF.buffer.back_eq hF.safe] at hf
    rw [hF.buffer.readable_eq hF.safe, Parts.content_live, hf, List.append_nil]
  · have hb' : Buffer { w.heap with mem := m } b p := hF.buffer.of_bare (fun _ => id) fun _ _ => rfl
    rw [indexByte_spec hb' hF.safe.store]
    have hlook : Heap.look { w.heap with mem := m } (w.heap.content p.live) =
      w.heap.look (w.heap.content p.live) :=
      Memory.look_congr hm
    exact congrArg (fun l => some (((List.drop skip l).idxOf? c).map (skip + ·))) hlook

/-- Bytes that `MallocAck` has dropped are still counted: the search runs off the end of the chain.
-/
theorem indexByte_panics : ∃ w b, World.after (fun w op => w.legal op)
      [.new 1, .new 1, .act 1 (.malloc 2), .act 1 .flush, .act 0 (.malloc 1), .append 0 1,
        .act 0 (.mallocAck 1), .act 0 .flush] = some w ∧ w.bufs[0]? = some b ∧ b.length = 3 ∧
    w.heap.look (b.readable w.heap) = [0] ∧ b.indexByte w.heap 1 0 = none :=
  ⟨_, _, rfl, rfl, rfl, rfl, rfl⟩

theorem indexByte_first_second : ∃ w b, World.after (fun w op => w.legal op ∧ w.Careful op)
      [.new 1, .act 0 (.malloc 6), .act 0 (.fill (0, 1) 3), .act 0 (.fill (0, 3) 3),
        .act 0 (.malloc 6), .act 0 .flush] = some w ∧
    w.bufs[0]? = some b ∧ b.indexByte w.heap 3 2 = some (some 3) := by
  obtain ⟨w, b, hw, hi, hlook⟩ : ∃ w b, World.after (fun w op => w.legal op ∧ w.Careful op)
        [.new 1, .act 0 (.malloc 6), .act 0 (.fill (0, 1) 3), .act 0 (.fill (0, 3) 3),
          .act 0 (.malloc 6), .act 0 .flush] = some w ∧
      w.bufs[0]? = some b ∧ w.heap.look (b.counted w.heap) = [0, 3, 0, 3, 0, 0, 0, 0, 0, 0, 0, 0] :=
    ⟨_, _, rfl, rfl, by decide⟩
  obtain ⟨r, hr, hsome, -⟩ := indexByte_first (World.reach_of_after hw) hi 3 2
  rw [hlook] at hsome
  have h3 := (hsome 3).mpr ⟨by decide, rfl, by decide⟩
  exact ⟨w, b, hw, hi, h3 ▸ hr⟩

end Netpoll.Nocopy
