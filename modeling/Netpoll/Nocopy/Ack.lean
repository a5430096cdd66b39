import Netpoll.Nocopy.Writer

namespace Netpoll.Nocopy

open Netpoll.Lib Netpoll.Lib.Memory LinkBuffer

variable {h h' : Heap} {b b' : LinkBuffer} {p p' : Parts} {U X Y : List Nat}
  {K : List Slice} {P : Nat → Prop} {A B C D L M N : List Nat} {i j k n m fuel : Nat}

/-- The nodes that `MallocAck(n)` keeps and those that it empties. -/
def ackSplit (h : Heap) : List Nat → Nat → List Nat × List Nat
  | [], _ => ([], [])
  | i :: L, n =>
    let l := (h.nodes i).malloc - (h.nodes i).buf.len
    if n ≤ l then ([i], L) else (i :: (ackSplit h L (n - l)).1, (ackSplit h L (n - l)).2)

def Heap.trim (h : Heap) (i n : Nat) : Heap :=
  h.set i { h.nodes i with malloc := n + (h.nodes i).buf.len }

def Node.reset (node : Node) : Node :=
  { node with off := 0, malloc := 0, refer := 1, buf := { node.buf with len := 0 } }

def Heap.discardAll (h : Heap) (L : List Nat) : Heap :=
  { h with nodes := fun k => if k ∈ L then (h.nodes k).reset else h.nodes k }

theorem ackLoop_spec {node e : Option Nat} (hL : Chain.Seg (fun i => (h.nodes i).next) node L e)
    (hpos : 0 < n) (hn : n ≤ (h.unflushed L).length) (hf : L.length < fuel) :
    ∃ M i N m, L = M ++ i :: N ∧ ackSplit h L n = (M ++ [i], N) ∧
      ackLoop fuel h node n = some (some i, h.trim i m) ∧ m ≤ (h.pending i).length ∧
      (h.unflushed M).length + m = n := by
  induction L generalizing node n fuel with
  | nil =>
    simp at hn
    omega
  | cons i L ih =>
    obtain ⟨f, rfl, hB⟩ := Chain.steps_of_length_lt hf
    obtain ⟨rfl, hL⟩ := hL
    by_cases hle : n ≤ (h.nodes i).malloc - (h.nodes i).buf.len
    · refine ⟨[], i, L, n, rfl, by simp [ackSplit, hle], ?_, by simpa using hle, by simp⟩
      simp [ackLoop, Nat.ne_of_gt hpos, hle, Heap.trim]
    · obtain ⟨M, j, N, m, rfl, hsplit, hloop, hm, hsum⟩ :=
        ih (n := n - ((h.nodes i).malloc - (h.nodes i).buf.len)) hL (by omega)
          (by simp [Heap.unflushed_cons] at hn; omega) hB
      refine ⟨i :: M, j, N, m, rfl, by simp [ackSplit, hle, hsplit], ?_, hm, ?_⟩
      · simpa [ackLoop, Nat.ne_of_gt hpos, hle] using hloop
      · simp only [Heap.unflushed_cons, List.length_append, Heap.length_pending]
        omega

theorem discard_spec {node : Option Nat} (hL : Chain.Seg (fun i => (h.nodes i).next) node L none)
    (hnd : L.Nodup) (hf : L.length < fuel) :
    LinkBuffer.discard fuel h node = some (h.discardAll L) := by
  induction L generalizing h node fuel with
  | nil =>
    obtain ⟨f, rfl⟩ := Nat.exists_eq_add_of_lt hf
    simp only [Chain.seg_nil] at hL
    simp [LinkBuffer.discard, hL, Heap.discardAll]
  | cons i L ih =>
    obtain ⟨f, rfl, hB⟩ := Chain.steps_of_length_lt hf
    obtain ⟨rfl, hL⟩ := hL
    have hiL := (List.nodup_cons.mp hnd).1
    have hki : ∀ k ∈ L, k ≠ i := by
      rintro k hk rfl
      exact hiL hk
    have hstep : LinkBuffer.discard (f + 1) h (some i) =
        LinkBuffer.discard f (h.set i (h.nodes i).reset) (h.nodes i).next := rfl
    rw [hstep, ih (hL.congr fun k hk => by simp [hki k hk]) (List.nodup_cons.mp hnd).2 hB]
    refine congrArg some ?_
    simp only [Heap.discardAll, Heap.set, Heap.mk.injEq, and_true]
    funext k
    by_cases hk : k = i
    · subst hk
      simp [hiL]
    · simp [hk]

theorem Node.Kin.reset (node : Node) : node.Kin node.reset := ⟨rfl, rfl, rfl, rfl, id, rfl⟩

theorem Heap.discardAll_kin : (h.nodes k).Kin ((h.discardAll L).nodes k) := by
  by_cases hk : k ∈ L
  · simpa [Heap.discardAll, hk] using Node.Kin.reset _
  · simpa [Heap.discardAll, hk] using (Node.Like.refl _).kin

theorem Heap.discardAll_of_notMem (hk : k ∉ L) : (h.discardAll L).nodes k = h.nodes k := by
  simp [Heap.discardAll, hk]

theorem Heap.discardAll_of_mem (hk : k ∈ L) : (h.discardAll L).nodes k = (h.nodes k).reset := by
  simp [Heap.discardAll, hk]

theorem Safe.discardAll (hs : Safe h (X ++ Y) K P)
    (hone : ∀ j ∈ Y, ∀ k ∈ X ++ Y, (h.nodes k).origin ≠ some j)
    (hpart : ∀ j ∈ Y, (h.nodes j).root → ∀ i ∈ X, (h.nodes i).view →
      (h.nodes i).buf.blk ≠ (h.nodes j).buf.blk) : Safe (h.discardAll Y) (X ++ Y) K P := by
  have hkin : ∀ k, (h.nodes k).Kin ((h.discardAll Y).nodes k) := fun k => Heap.discardAll_kin
  have hrefs : refs (h.discardAll Y) (X ++ Y) = refs h (X ++ Y) :=
    refs_congr fun k _ => (hkin k).origin
  have hX : ∀ i ∈ X ++ Y, i ∉ Y → i ∈ X := fun i hi hY => (List.mem_append.mp hi).resolve_right hY
  refine ⟨hs.nodup, ?_, ?_⟩
  · rw [hrefs]
    refine hs.counted.congr rfl rfl rfl rfl (fun _ => id) (fun k _ => hkin k) (fun k hk => ?_)
      fun k hk => ?_
    · by_cases hkY : k ∈ Y
      · rw [Heap.discardAll_of_mem hkY]
        have hcnt : (X ++ Y).count k ≤ 1 := List.nodup_iff_count_le_one.mp hs.nodup k
        have h0 : ((X ++ Y).countP fun j => decide ((h.nodes j).origin = some k)) = 0 :=
          List.countP_eq_zero.mpr fun j hj => by simpa using hone k hkY j hj
        simp only [refs, h0, Node.reset]
        omega
      · rw [Heap.discardAll_of_notMem hkY]
        exact hs.counted.refer k hk
    · refine Heap.discardAll_of_notMem fun hkY => ?_
      exact hs.counted.unpooled k (refs_pos_of_mem (List.mem_append_right _ hkY)) hk
  · refine ⟨fun i hi r hr => ?_, hs.woven.viewed.kin (fun _ => id) fun k _ => hkin k,
      fun i hi j hj hij hv ho hcap hblk hne => ?_, fun i hi j hj r hv ho hro hblk => ?_⟩
    · rw [(hkin i).origin] at hr
      have hrY : r ∉ Y := fun hrY => hone r hrY i hi hr
      have hsl := hs.sliced hi hr
      rw [Heap.discardAll_of_notMem hrY]
      exact ⟨hsl.origin, (hkin i).readonly.trans hsl.readonly, (hkin i).blk.trans hsl.blk,
        (hkin i).off ▸ hsl.start, by rw [(hkin i).off, (hkin i).cap]; exact hsl.fits, hsl.len,
        (hkin i).cap ▸ hsl.pos⟩
    · have hv' := (hkin i).view.mp hv
      have hoff : (h.nodes i).Parted (h.nodes j) := by
        refine hs.woven.parted i hi j hj hij hv' ((hkin j).origin ▸ ho) ((hkin j).cap ▸ hcap) ?_ ?_
        · rw [← (hkin i).blk, ← (hkin j).blk, hblk]
        · rw [← (hkin i).blk]
          exact hne
      refine ⟨by rw [(hkin i).off, (hkin j).off, hoff.1], ?_⟩
      by_cases hiY : i ∈ Y
      · left
        rw [Heap.discardAll_of_mem hiY]
        exact Nat.zero_le _
      · by_cases hjY : j ∈ Y
        · -- a part that stays, and the node that owns the block is emptied: excluded
          right
          rw [Heap.discardAll_of_mem hjY]
          refine ⟨?_, Nat.zero_le _⟩
          by_contra hro
          refine hpart j hjY ⟨(hkin j).origin ▸ ho, ?_, (hkin j).cap ▸ hcap⟩ i (hX i hi hiY) hv' ?_
          · simpa [Node.reset] using hro
          · rw [← (hkin i).blk, ← (hkin j).blk, hblk]
        · rw [Heap.discardAll_of_notMem hiY, Heap.discardAll_of_notMem hjY]
          exact hoff.2
    · rw [(hkin j).origin] at ho
      rw [(hkin r).readonly] at hro
      have hclear := hs.woven.clear i hi j hj r ((hkin i).view.mp hv) ho hro
        (by rw [← (hkin i).blk, ← (hkin j).blk, hblk])
      rw [(hkin i).off, (hkin j).off]
      by_cases hiY : i ∈ Y
      · rw [Heap.discardAll_of_mem hiY]
        simp only [Node.reset]
        omega
      · rw [Heap.discardAll_of_notMem hiY]
        exact hclear

theorem Heap.trim_like (hf : (h.nodes i).Fit) (ho : (h.nodes i).origin = none)
    (hm : m ≤ (h.pending i).length) : (h.nodes k).Like ((h.trim i m).nodes k) := by
  by_cases hk : k = i
  · subst hk
    have hg := hf.grown ho
    rw [Heap.length_pending] at hm
    simp only [Heap.trim, Heap.set_nodes, Function.update_self]
    exact ⟨rfl, rfl, rfl, le_rfl, id, rfl, id, rfl, le_rfl, fun _ => by simp only; omega⟩
  · simp [Heap.trim, hk, Node.Like.refl]

theorem Heap.trim_next : ((h.trim i m).nodes k).next = (h.nodes k).next := by
  by_cases hk : k = i
  · subst hk
    simp [Heap.trim]
  · simp [Heap.trim, hk]

theorem Heap.trim_buf : ((h.trim i m).nodes k).buf = (h.nodes k).buf := by
  by_cases hk : k = i
  · subst hk
    simp [Heap.trim]
  · simp [Heap.trim, hk]

theorem Heap.trim_ready : (h.trim i m).ready k = h.ready k := by
  by_cases hk : k = i
  · subst hk
    simp [Heap.ready, Heap.trim, Node.len]
  · simp [Heap.ready, Heap.trim, hk]

theorem Heap.trim_pending_of_ne (hk : k ≠ i) : (h.trim i m).pending k = h.pending k := by
  simp [Heap.pending, Heap.trim, hk]

theorem Heap.trim_pending (hm : m ≤ (h.pending i).length) :
    (h.trim i m).pending i = (h.pending i).take m := by
  rw [Heap.length_pending] at hm
  simp only [Heap.pending, Heap.trim, Heap.set_nodes, Function.update_self, Nat.add_sub_cancel]
  rw [take_cells hm]

theorem Heap.trim_zero (hf : (h.nodes i).Fit) (ho : (h.nodes i).origin = none)
    (hp : h.pending i = []) : h.trim i 0 = h := by
  have hg := hf.grown ho
  have h0 : (h.nodes i).malloc - (h.nodes i).buf.len = 0 := by
    rw [← Heap.length_pending, hp, List.length_nil]
  have he : 0 + (h.nodes i).buf.len = (h.nodes i).malloc := by omega
  simp [Heap.trim, he, Heap.set]

theorem ack_stop (hb : Buffer h b p) (hs : Safe h (p.all ++ U) K P) (hback : p.back ≠ [])
    (hn : n ≤ (h.unflushed p.back).length)
    (hz : n = 0 → ∀ c, p.back.head? = some c → h.pending c = []) :
    ∃ M i N m, p.back = M ++ i :: N ∧ ackSplit h p.back n = (M ++ [i], N) ∧
      ackLoop (h.fresh + 1) h b.flush n = some (some i, h.trim i m) ∧
      m ≤ (h.pending i).length ∧ (h.unflushed M).length + m = n := by
  have hfuel : p.back.length < h.fresh + 1 := by
    have := hs.length_le
    simp only [Parts.all, List.length_append] at this
    omega
  by_cases hpos : 0 < n
  · exact ackLoop_spec (hb.rep.seg_back hback) hpos hn hfuel
  · obtain rfl : n = 0 := by omega
    cases hC : p.back with
    | nil => exact absurd hC hback
    | cons c C =>
      have hc : c ∈ p.all := Parts.mem_all_of_back (by simp [hC])
      have hp := hz rfl c (by simp [hC])
      refine ⟨[], c, C, 0, rfl, by simp [ackSplit], ?_, by simp, by simp⟩
      rw [Heap.trim_zero (hb.rep.fit c hc) (hb.plain hback c hc) hp]
      simp [ackLoop, hb.rep.flush, hC]

structure AckPost (h h' : Heap) (b b' : LinkBuffer) (p p' : Parts) (n : Nat) (U : List Nat)
    (K : List Slice) (P : Nat → Prop) : Prop where
  post : Post h h' b b' p p' U K P P
  still : Still h h'
  mem : h'.mem = h.mem
  kept : b'.kept = b.kept
  readable : h'.content p'.early = h.content p.early
  ready : ∀ k ∈ p'.back, h'.ready k = h.ready k
  pending : h'.unflushed p'.back = (h.unflushed p.back).take n
  later : n = (h.unflushed p.back).length → h'.later p'.back = h.later p.back
  parts : p' = ⟨p.old, p.front, (ackSplit h p.back n).1, (ackSplit h p.back n).2 ++ p.spare⟩
  kin : ∀ k, (h.nodes k).Kin (h'.nodes k)
  len : ∀ k, (h'.nodes k).buf.len ≤ (h.nodes k).buf.len
  back : p'.back ≠ []

theorem Owned.of_parts (ho : Owned h (X ++ Y)) (hpart : ∀ j ∈ Y, (h.nodes j).root → ∀ i ∈ X,
    (h.nodes i).view → (h.nodes i).buf.blk ≠ (h.nodes j).buf.blk) : Owned h X := by
  induction X with
  | nil => trivial
  | cons x X ih =>
    refine ⟨fun hv => (ho.1 hv).imp_right fun ⟨L₁, k, L₂, he, hro, hroot, hblk⟩ => ?_,
      ih ho.2 fun j hj hr i hi => hpart j hj hr i (by simp [hi])⟩
    rcases List.append_eq_append_iff.mp he with ⟨l, rfl, hl⟩ | ⟨l, rfl, hl⟩
    · exact absurd hblk.symm (hpart k (by simp [hl]) hroot x (by simp) hv)
    · cases l with
      | nil =>
        have hk : k ∈ Y := by simp [show Y = k :: L₂ by simpa using hl.symm]
        exact absurd hblk.symm (hpart k hk hroot x (by simp) hv)
      | cons y l =>
        obtain ⟨rfl, -⟩ := List.cons.inj hl
        exact ⟨L₁, k, l, rfl, hro, hroot, hblk⟩

def Heap.acked (h : Heap) (i m : Nat) (Y : List Nat) : Heap := (h.trim i m).discardAll Y

section Acked

theorem Heap.acked_of_mem (hk : k ∈ Y) : (h.acked i m Y).nodes k = ((h.trim i m).nodes k).reset :=
  Heap.discardAll_of_mem hk

theorem Heap.acked_of_notMem (hk : k ∉ Y) : (h.acked i m Y).nodes k = (h.trim i m).nodes k :=
  Heap.discardAll_of_notMem hk

theorem Heap.acked_next : ((h.acked i m Y).nodes k).next = (h.nodes k).next := by
  by_cases hk : k ∈ Y
  · rw [Heap.acked_of_mem hk]
    exact Heap.trim_next
  · rw [Heap.acked_of_notMem hk]
    exact Heap.trim_next

theorem Heap.acked_ready (hk : k ∉ Y) : (h.acked i m Y).ready k = h.ready k := by
  rw [Heap.ready, Heap.acked_of_notMem hk]
  exact Heap.trim_ready

theorem Heap.acked_pending (hk : k ∉ Y) (hki : k ≠ i) :
    (h.acked i m Y).pending k = h.pending k := by
  rw [Heap.pending, Heap.acked_of_notMem hk]
  exact Heap.trim_pending_of_ne hki

theorem Heap.acked_pending_self (hi : i ∉ Y) (hm : m ≤ (h.pending i).length) :
    (h.acked i m Y).pending i = (h.pending i).take m := by
  rw [Heap.pending, Heap.acked_of_notMem hi]
  exact Heap.trim_pending hm

theorem Heap.acked_len : ((h.acked i m Y).nodes k).buf.len ≤ (h.nodes k).buf.len := by
  by_cases hk : k ∈ Y
  · rw [Heap.acked_of_mem hk]
    exact Nat.zero_le _
  · rw [Heap.acked_of_notMem hk, Heap.trim_buf]

end Acked

structure StopsAt (h : Heap) (p : Parts) (M : List Nat) (i : Nat) (N : List Nat) (m : Nat) :
    Prop where
  back : p.back = M ++ i :: N
  nodup : p.all.Nodup
  fit : ∀ k ∈ p.all, (h.nodes k).Fit
  plain : ∀ k ∈ p.all, (h.nodes k).origin = none
  room : m ≤ (h.pending i).length

namespace StopsAt

theorem all (hst : StopsAt h p M i N m) :
    p.all = p.old ++ p.front ++ (M ++ [i]) ++ (N ++ p.spare) := by
  simp [Parts.all, hst.back]

theorem mem (hst : StopsAt h p M i N m) : i ∈ p.all := by
  simp [hst.all]

theorem notMem (hst : StopsAt h p M i N m) (hk : k ∈ p.old ++ p.front ++ (M ++ [i])) :
    k ∉ N ++ p.spare :=
  fun hk' => (List.nodup_append.mp (hst.all ▸ hst.nodup)).2.2 k hk k hk' rfl

theorem ne (hst : StopsAt h p M i N m) (hk : k ∈ p.old ++ p.front ++ M) : k ≠ i := by
  rintro rfl
  have hnd := (List.nodup_append.mp (hst.all ▸ hst.nodup)).1
  rw [← List.append_assoc] at hnd
  exact (List.nodup_append.mp hnd).2.2 k hk k (by simp) rfl

theorem head (hst : StopsAt h p M i N m) : (M ++ [i]).head? = p.back.head? := by
  rw [hst.back]
  cases M <;> rfl

theorem take_one (hst : StopsAt h p M i N m) : (M ++ [i]).take 1 = p.back.take 1 := by
  rw [hst.back]
  cases M <;> simp

theorem perm (hst : StopsAt h p M i N m) (U : List Nat) :
    (p.all ++ U).Perm (p.old ++ p.front ++ (M ++ [i]) ++ U ++ (N ++ p.spare)) :=
  List.perm_iff_count.mpr fun a => by
    simp only [hst.all, List.count_append]
    omega

theorem like (hst : StopsAt h p M i N m) (k : Nat) : (h.nodes k).Like ((h.trim i m).nodes k) :=
  Heap.trim_like (hst.fit i hst.mem) (hst.plain i hst.mem) hst.room

theorem kin (hst : StopsAt h p M i N m) (k : Nat) :
    (h.nodes k).Kin ((h.acked i m (N ++ p.spare)).nodes k) :=
  (hst.like k).kin.trans Heap.discardAll_kin

theorem ready (hst : StopsAt h p M i N m) (hk : k ∈ p.old ++ p.front ++ (M ++ [i])) :
    (h.acked i m (N ++ p.spare)).ready k = h.ready k :=
  Heap.acked_ready (hst.notMem hk)

theorem pending (hst : StopsAt h p M i N m) (hk : k ∈ p.old ++ p.front ++ M) :
    (h.acked i m (N ++ p.spare)).pending k = h.pending k :=
  Heap.acked_pending (hst.notMem (by rw [← List.append_assoc]; exact List.mem_append_left _ hk))
    (hst.ne hk)

theorem pending_self (hst : StopsAt h p M i N m) :
    (h.acked i m (N ++ p.spare)).pending i = (h.pending i).take m :=
  Heap.acked_pending_self (hst.notMem (by simp)) hst.room

theorem discard (hst : StopsAt h p M i N m) (hb : Buffer h b p) (hf : p.all.length < fuel) :
    LinkBuffer.discard fuel (h.trim i m) ((h.trim i m).nodes i).next =
      some (h.acked i m (N ++ p.spare)) := by
  have hseg := hb.rep.seg
  rw [← Parts.all, hst.all, ← List.append_assoc (p.old ++ p.front), List.append_assoc _ [i]] at hseg
  obtain ⟨c, -, hc, hrest⟩ := Chain.seg_append.mp hseg
  refine discard_spec ?_ (List.nodup_append.mp (hst.all ▸ hst.nodup)).2.1 ?_
  · rw [Heap.trim_next]
    exact hrest.congr fun k _ => Heap.trim_next
  · rw [hst.all, List.length_append] at hf
    omega

theorem acked_fit (hst : StopsAt h p M i N m) (hk : k ∈ p.all) :
    ((h.acked i m (N ++ p.spare)).nodes k).Fit := by
  have hf := hst.fit k hk
  by_cases hkY : k ∈ N ++ p.spare
  · rw [Heap.acked_of_mem hkY]
    constructor <;> simp [Node.reset]
  · rw [Heap.acked_of_notMem hkY]
    by_cases hki : k = i
    · subst hki
      have hg := hf.grown (hst.plain k hk)
      have hmal := hf.malloc
      have hm := hst.room
      rw [Heap.length_pending] at hm
      constructor <;> simp only [Heap.trim, Heap.set_nodes, Function.update_self]
      exacts [hf.off, hf.len, by omega, fun _ => by omega]
    · simpa [Heap.trim, hki] using hf

theorem rep (hst : StopsAt h p M i N m) (hb : Buffer h b p) :
    Rep (h.acked i m (N ++ p.spare)) { b with mallocSize := n, write := some i } p.old p.front
      (M ++ [i]) (N ++ p.spare) where
  seg := by
    rw [← hst.all]
    exact hb.rep.seg.congr fun k _ => Heap.acked_next
  read := by
    refine hb.rep.read.trans ?_
    rw [List.head?_append, List.head?_append, hst.head]
  flush := by
    rw [hst.head]
    exact hb.rep.flush
  write := by simp
  fit k hk := hst.acked_fit (hst.all ▸ hk)
  submitted k hk := by
    rw [hst.pending (by simp [hk])]
    exact hb.rep.submitted k hk
  spare k hk := by
    rw [Heap.ready, Heap.pending, Heap.acked_of_mem hk]
    simp [Node.reset, Node.len]
  reader := by simp

theorem unflushed (hst : StopsAt h p M i N m) (hsum : (h.unflushed M).length + m = n) :
    (h.acked i m (N ++ p.spare)).unflushed (M ++ [i]) = (h.unflushed p.back).take n := by
  have hM : (h.acked i m (N ++ p.spare)).unflushed M = h.unflushed M :=
    Heap.unflushed_congr fun k hk =>
    hst.pending (by simp [hk])
  rw [hst.back, ← hsum, Heap.unflushed_append, Heap.unflushed_append, Heap.unflushed_cons (l := N),
    List.take_length_add_append, List.take_append_of_le_length hst.room, hM]
  simp [hst.pending_self]

theorem content_back (hst : StopsAt h p M i N m) :
    (h.acked i m (N ++ p.spare)).content (M ++ [i]) ++ h.content N = h.content p.back := by
  rw [Heap.content_congr (h := h) fun k hk => hst.ready (List.mem_append_right _ hk), hst.back]
  simp

theorem content_front (hst : StopsAt h p M i N m) :
    (h.acked i m (N ++ p.spare)).content p.front = h.content p.front :=
  Heap.content_congr fun k hk => hst.ready (by simp [hk])

theorem content_early (hst : StopsAt h p M i N m) :
    (h.acked i m (N ++ p.spare)).content (Parts.early ⟨p.old, p.front, M ++ [i], N ++ p.spare⟩) =
      h.content p.early := by
  rw [Parts.early, Parts.early, hst.take_one]
  refine Heap.content_congr fun k hk => hst.ready ?_
  rw [← hst.take_one] at hk
  have := fun hk : k ∈ (M ++ [i]).take 1 => List.mem_of_mem_take hk
  simp only [List.mem_append] at hk this ⊢
  tauto

theorem later (hst : StopsAt h p M i N m) (hempty : h.content N = [])
    (hsum : (h.unflushed M).length + m = (h.unflushed p.back).length) :
    (h.acked i m (N ++ p.spare)).later (M ++ [i]) = h.later p.back := by
  rw [hst.back, Heap.unflushed_append, Heap.unflushed_cons, List.length_append, List.length_append]
    at hsum
  have hroom := hst.room
  have hwN : h.whole N = [] := by
    refine List.eq_nil_of_length_eq_zero ?_
    rw [Heap.length_whole, hempty, List.length_nil]
    omega
  have hsame : (h.acked i m (N ++ p.spare)).later (M ++ [i]) = h.later (M ++ [i]) :=
    Heap.later_congr (fun k hk => hst.ready (List.mem_append_right _ (List.mem_of_mem_tail hk)))
      fun k hk => by
        rcases List.mem_append.mp hk with hk | hk
        · exact hst.pending (by simp [hk])
        · rw [List.mem_singleton.mp hk, hst.pending_self, List.take_of_length_le (by omega)]
  rw [hsame, hst.back, show M ++ i :: N = M ++ [i] ++ N by simp,
    Heap.later_append (L := M ++ [i]) (by simp), hwN, List.append_nil]

theorem apart (hst : StopsAt h p M i N m) (hs : Safe h (p.all ++ U) K P) (hv : Viewed h U)
    (hj : j ∈ N ++ p.spare) (hroot : (h.nodes j).root) (hk : k ∈ U) (hview : (h.nodes k).view) :
    (h.nodes k).buf.blk ≠ (h.nodes j).buf.blk := by
  intro he
  have hjall : j ∈ p.all := hst.all ▸ List.mem_append_right _ hj
  have hj' : 0 < refs h (p.all ++ U) j := refs_pos_of_mem (List.mem_append_left _ hjall)
  rcases hv k hk hview with hlent | ⟨r, hr, hrr, hblk⟩
  · exact (Owner.held_ne (hs.counted.live j hj' hroot)).2 (he ▸ hlent)
  · obtain rfl := hs.counted.distinct r j (refs_pos_of_mem (List.mem_append_right _ hr)) hj' hrr
      hroot (hblk.trans he)
    exact (List.nodup_append.mp hs.nodup).2.2 r hjall r hr rfl

theorem safe (hst : StopsAt h p M i N m) (hs : Safe h (p.all ++ U) K P) (hv : Viewed h U)
    (hone : ∀ j ∈ N ++ p.spare, ∀ k ∈ p.all ++ U, (h.nodes k).origin ≠ some j)
    (hpart : ∀ j ∈ N ++ p.spare, (h.nodes j).root → ∀ k ∈ p.old ++ p.front ++ (M ++ [i]),
      (h.nodes k).view → (h.nodes k).buf.blk ≠ (h.nodes j).buf.blk) :
    Safe (h.acked i m (N ++ p.spare)) (p.all ++ U) K P := by
  have hs₁ : Safe (h.trim i m) (p.all ++ U) K P :=
    hs.set (List.mem_append_left _ hst.mem) (by simpa [Heap.trim] using hst.like i) rfl
  refine ((hs₁.perm (hst.perm U)).discardAll (fun j hj k hk => ?_)
    fun j hj hroot k hk hview => ?_).perm (hst.perm U).symm
  · rw [(hst.like k).origin]
    exact hone j hj k ((hst.perm U).mem_iff.mpr hk)
  · rw [(hst.like k).blk, (hst.like j).blk]
    have hroot := (hst.like j).root.mp hroot
    have hview := (hst.like k).view.mp hview
    rcases List.mem_append.mp hk with hk | hk
    · exact hpart j hj hroot k hk hview
    · exact hst.apart hs hv hj hroot hk hview

theorem keeps (hst : StopsAt h p M i N m) (hnd : (p.all ++ U).Nodup)
    (hone : ∀ j ∈ N ++ p.spare, ∀ k ∈ p.all ++ U, (h.nodes k).origin ≠ some j) :
    Keeps h (h.acked i m (N ++ p.spare)) U K P := by
  have hout : ∀ k ∈ U, k ∉ p.all := fun k hk hk' => (List.nodup_append.mp hnd).2.2 k hk' k hk rfl
  refine .of_like ⟨fun _ _ => rfl, rfl, le_rfl, le_rfl⟩ (fun k hk => ?_) fun k hk r hr => ?_
  · have hki : k ≠ i := fun he => hout k hk (he ▸ hst.mem)
    rw [Heap.acked_of_notMem fun hkY => hout k hk (hst.all ▸ List.mem_append_right _ hkY)]
    simp [Heap.trim, hki]
  · rw [Heap.acked_of_notMem fun hrY => hone r hrY k (List.mem_append_right _ hk) hr]
    exact hst.like r

theorem post (hst : StopsAt h p M i N m) (hb : Buffer h b p)
    (hs : Safe h (p.all ++ U) (b.kept ++ K) P) (hv : Viewed h U) (hback : p.back ≠ [])
    (hn : n ≤ (h.unflushed p.back).length) (hsum : (h.unflushed M).length + m = n)
    (hone : ∀ j ∈ N ++ p.spare, ∀ k ∈ p.all ++ U, (h.nodes k).origin ≠ some j)
    (hpart : ∀ j ∈ N ++ p.spare, (h.nodes j).root → ∀ k ∈ p.old ++ p.front ++ (M ++ [i]),
      (h.nodes k).view → (h.nodes k).buf.blk ≠ (h.nodes j).buf.blk) :
    Post h (h.acked i m (N ++ p.spare)) b { b with
      length := b.length - (h.content N).length, mallocSize := n, write := some i } p
      ⟨p.old, p.front, M ++ [i], N ++ p.spare⟩ U K P P := by
  have hrep := hst.rep (n := n) hb
  refine ⟨⟨hrep.of_eq rfl rfl rfl rfl, ?_, ?_, ?_, ?_, hb.peek, fun _ k hk => ?_⟩, ?_,
    hst.keeps hs.nodup hone, fun _ hx => hx, fun q hq => .inl ⟨q, hq, rfl⟩⟩
  · have hback := congrArg List.length hst.content_back
    rw [Parts.live, Heap.content_append, hst.content_front, List.length_append]
    rw [List.length_append] at hback
    simp only [hb.length, Parts.live, Heap.content_append, List.length_append, ← hback]
    omega
  · have hlen := congrArg List.length (hst.unflushed hsum)
    rw [List.length_take, Nat.min_eq_left hn] at hlen
    rw [Parts.live, hrep.unflushed_live, hlen]
  · exact (Owned.of_parts (Y := N ++ p.spare) (hst.all ▸ hb.owned_all) hpart).kin (fun _ => id)
      fun k _ => hst.kin k
  · rw [Parts.all, ← hst.all]
    exact hb.owned_all.kin (fun _ => id) fun k _ => hst.kin k
  · rw [Parts.all, ← hst.all] at hk
    rw [(hst.kin k).origin]
    exact hb.plain hback k hk
  · rw [Parts.all, ← hst.all]
    exact hst.safe hs hv hone hpart

end StopsAt

theorem mallocAck_stops (hb : Buffer h b p) (hs : Safe h (p.all ++ U) K P) (hback : p.back ≠ [])
    (hn : n ≤ (h.unflushed p.back).length)
    (hz : n = 0 → ∀ c, p.back.head? = some c → h.pending c = []) :
    ∃ M i N m, StopsAt h p M i N m ∧ ackSplit h p.back n = (M ++ [i], N) ∧
      (h.unflushed M).length + m = n ∧
      b.mallocAck h n = some (.ok (), { b with mallocSize := n, write := some i },
        h.acked i m (N ++ p.spare)) := by
  obtain ⟨M, i, N, m, hsp, hsplit, hloop, hm, hsum⟩ := ack_stop hb hs hback hn hz
  have hst : StopsAt h p M i N m :=
    ⟨hsp, hs.nodup.of_append_left, hb.rep.fit, hb.plain hback, hm⟩
  refine ⟨M, i, N, m, hst, hsplit, hsum, ?_⟩
  have hneg : ¬ (n : Int) < 0 := by omega
  have hfuel : p.all.length < (h.trim i m).fresh + 1 := by
    have := hs.length_le
    rw [List.length_append] at this
    change p.all.length < h.fresh + 1
    omega
  simp only [LinkBuffer.mallocAck, if_neg hneg, Int.toNat_natCast, hloop, Option.bind_eq_bind,
    Option.bind_some, Option.pure_def, hst.discard hb hfuel]

theorem mallocAck_spec (hb : Buffer h b p) (hs : Safe h (p.all ++ U) (b.kept ++ K) P)
    (hv : Viewed h U) (hback : p.back ≠ []) (hn : n ≤ (h.unflushed p.back).length)
    (hz : n = 0 → ∀ c, p.back.head? = some c → h.pending c = [])
    (hempty : h.content (ackSplit h p.back n).2 = [])
    (hone : ∀ j ∈ (ackSplit h p.back n).2 ++ p.spare, ∀ k ∈ p.all ++ U, (h.nodes k).origin ≠ some j)
    (hpart : ∀ j ∈ (ackSplit h p.back n).2 ++ p.spare, (h.nodes j).root →
      ∀ i ∈ p.old ++ p.front ++ (ackSplit h p.back n).1, (h.nodes i).view →
        (h.nodes i).buf.blk ≠ (h.nodes j).buf.blk) :
    ∃ b' h' p', b.mallocAck h n = some (.ok (), b', h') ∧ AckPost h h' b b' p p' n U K P := by
  obtain ⟨M, i, N, m, hst, hsplit, hsum, hrun⟩ := mallocAck_stops hb hs hback hn hz
  rw [hsplit] at hempty hone hpart
  simp only at hempty hone hpart
  have hpost := hst.post hb hs hv hback hn hsum hone hpart
  rw [hempty, List.length_nil, Int.natCast_zero, Int.sub_zero] at hpost
  exact ⟨_, _, ⟨p.old, p.front, M ++ [i], N ++ p.spare⟩, hrun, hpost,
    ⟨fun _ _ => rfl, rfl, le_rfl, le_rfl⟩, rfl, rfl, hst.content_early,
    fun k hk => hst.ready (List.mem_append_right _ hk), hst.unflushed hsum,
    fun hall => hst.later hempty (hsum.trans hall), by rw [hsplit], hst.kin,
    fun k => Heap.acked_len, by simp⟩

end Netpoll.Nocopy
