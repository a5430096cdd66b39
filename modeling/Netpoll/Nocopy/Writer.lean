import Netpoll.Nocopy.Growth

namespace Netpoll.Nocopy

open Netpoll.Lib Netpoll.Lib.Memory LinkBuffer

variable {h h' : Heap} {b b' : LinkBuffer} {p p' : Parts} {U : List Nat}
  {K : List Slice} {P : Nat → Prop} {A B C D L M : List Nat} {i j k n w : Nat} {s : Slice}
  {l : List Addr} {cfg : Config}

def Heap.reserve (h : Heap) (i n : Nat) : Heap :=
  h.set i { h.nodes i with malloc := (h.nodes i).malloc + n }

def Node.room (node : Node) (n : Nat) : Slice := ⟨node.buf.blk, node.buf.off + node.malloc, n, n⟩

theorem Heap.nodeMalloc_eq (hn : (h.nodes i).malloc + n ≤ (h.nodes i).buf.cap) :
    h.nodeMalloc i n = some ((h.nodes i).room n, h.reserve i n) := by
  simp [Heap.nodeMalloc, Slice.cut_eq (Nat.le_add_right _ _) hn, Node.room, Heap.reserve]

structure Gave (h h' : Heap) (w : Nat) (l : List Addr) : Prop where
  others : ∀ k, k ≠ w → h'.nodes k = h.nodes k
  len : (h'.nodes w).buf.len = (h.nodes w).buf.len
  ready : h'.ready w = h.ready w
  pending : h'.pending w = h.pending w ++ l
  fit : (h'.nodes w).Fit
  next : (h'.nodes w).next = (h.nodes w).next
  origin : (h'.nodes w).origin = (h.nodes w).origin

theorem gave_reserve (hf : (h.nodes w).Fit) (ho : (h.nodes w).origin = none)
    (hn : (h.nodes w).malloc + n ≤ (h.nodes w).buf.cap) :
    Gave h (h.reserve w n) w ((h.nodes w).room n).cells := by
  have hg := hf.grown ho
  refine ⟨fun k hk => by simp [Heap.reserve, hk], by simp [Heap.reserve], ?_, ?_,
    ?_, by simp [Heap.reserve], by simp [Heap.reserve]⟩
  · simp [Heap.ready, Heap.reserve, Node.len]
  · have hsum : (h.nodes w).malloc + n - (h.nodes w).buf.len =
        (h.nodes w).malloc - (h.nodes w).buf.len + n := by omega
    have hpos : (h.nodes w).buf.off + (h.nodes w).buf.len +
        ((h.nodes w).malloc - (h.nodes w).buf.len) = (h.nodes w).buf.off + (h.nodes w).malloc := by
      omega
    simp only [Heap.pending, Heap.reserve, Heap.set_nodes, Function.update_self, hsum, cells_add,
      hpos, Slice.cells, Node.room]
  · constructor <;> simp only [Heap.reserve, Heap.set_nodes, Function.update_self]
    exacts [hf.off, hf.len, hn, fun _ => Nat.le_add_right_of_le hg]

theorem Heap.reserve_like (hro : (h.nodes i).readonly = false) :
    (h.nodes k).Like ((h.reserve i n).nodes k) := by
  by_cases hk : k = i
  · subst hk
    simp only [Heap.reserve, Heap.set_nodes, Function.update_self]
    exact ⟨rfl, rfl, rfl, le_rfl, id, rfl, id, rfl, le_rfl, fun hr => absurd hr (by simp [hro])⟩
  · simp [Heap.reserve, hk, Node.Like.refl]

theorem Gave.ready_eq (hg : Gave h h' w l) (k : Nat) : h'.ready k = h.ready k := by
  by_cases hk : k = w
  · rw [hk, hg.ready]
  · simp only [Heap.ready, hg.others k hk]

theorem Gave.pending_of_ne (hg : Gave h h' w l) (hk : k ≠ w) : h'.pending k = h.pending k := by
  simp only [Heap.pending, hg.others k hk]

theorem Gave.unflushed (hg : Gave h h' w l) (hw : w ∉ M) :
    h'.unflushed (M ++ [w]) = h.unflushed (M ++ [w]) ++ l := by
  have hM : h'.unflushed M = h.unflushed M := Heap.unflushed_congr fun k hk =>
    hg.pending_of_ne fun he => hw (he ▸ hk)
  simp [Heap.unflushed_append, hM, hg.pending]

theorem Gave.later (hg : Gave h h' w l) (hw : w ∉ M) :
    h'.later (M ++ [w]) = h.later (M ++ [w]) ++ l := by
  have hM : ∀ k ∈ M, h'.pending k = h.pending k := fun k hk =>
    hg.pending_of_ne fun he => hw (he ▸ hk)
  by_cases hnil : M = []
  · subst hnil
    simp [Heap.later, hg.pending]
  · rw [Heap.later_append hnil, Heap.later_append hnil,
      Heap.later_congr (fun k _ => hg.ready_eq k) hM]
    simp [hg.ready_eq, hg.pending]

theorem Gave.rep (hg : Gave h h' w l) (hr : Rep h b A B C D) (hw : w ∈ C)
    (hnd : (A ++ B ++ C ++ D).Nodup) : Rep h' b A B C D where
  seg := hr.seg.congr fun k _ => by
    by_cases hk : k = w
    · rw [hk, hg.next]
    · rw [hg.others k hk]
  read := hr.read
  flush := hr.flush
  write := hr.write
  fit k hk := by
    by_cases hkw : k = w
    · exact hkw ▸ hg.fit
    · rw [hg.others k hkw]
      exact hr.fit k hk
  submitted k hk := by
    rw [hg.pending_of_ne, hr.submitted k hk]
    rintro rfl
    exact (List.nodup_append.mp hnd.of_append_left).2.2 k (by simp [hk]) k hw rfl
  spare k hk := by
    rw [hg.ready_eq, hg.pending_of_ne]
    · exact hr.spare k hk
    · rintro rfl
      exact (List.nodup_append.mp hnd).2.2 k (by simp [hw]) k hk rfl
  reader := hr.reader

structure Wrote (h h' : Heap) (b b' : LinkBuffer) (p p' : Parts) (l : List Addr)
    (U : List Nat) (K : List Slice) (P : Nat → Prop) : Prop where
  post : Post h h' b b' p p' U K P P
  still : Still h h'
  kept : b'.kept = b.kept
  readable : h'.content p'.early = h.content p.early
  later : h'.later p'.back = h.later p.back ++ l
  pending : h'.unflushed p'.back = h.unflushed p.back ++ l
  adds : Adds h h' p.all p'.all
  stay : Stay h h' p p'
  back : p'.back ≠ []
  idle : Idle h p → Idle h' p'

theorem Grown.later (hg : Grown h h' b b' A B C D L M w U K P) (hC : C ≠ []) :
    h'.later (C ++ L) = h.later C := by
  have hsame : ∀ k ∈ C, Linked h h' k := fun k hk => hg.same k (by simp [hk])
  have hL : h'.whole L = [] := Heap.whole_eq_nil hg.empty
  rw [Heap.later_append hC, hL, List.append_nil,
    Heap.later_congr (fun k hk => (hsame k (List.mem_of_mem_tail hk)).ready)
      fun k hk => (hsame k hk).pending]

theorem Grown.unflushed (hg : Grown h h' b b' A B C D L M w U K P) :
    h'.unflushed (C ++ L) = h.unflushed C := by
  rw [Heap.unflushed_append, Heap.unflushed_eq_nil fun k hk => (hg.empty k hk).2, List.append_nil]
  exact Heap.unflushed_congr fun k hk => (hg.same k (by simp [hk])).pending

theorem Grown.content (hg : Grown h h' b b' A B C D L M w U K P) :
    h'.content (B ++ (C ++ L)) = h.content (B ++ C) := by
  have hL : h'.content L = [] := by
    simpa [Heap.content, List.flatMap_eq_nil_iff] using fun k hk => (hg.empty k hk).1
  rw [← List.append_assoc, Heap.content_append, hL, List.append_nil]
  exact Heap.content_congr fun k hk => (hg.same k (by simp at hk ⊢; tauto)).ready

theorem Grown.early (hg : Grown h h' b b' A B C D L M w U K P) (hC : C ≠ []) :
    h'.content (B ++ (C ++ L).take 1) = h.content (B ++ C.take 1) := by
  rw [List.take_append_of_le_length (List.length_pos_iff.mpr hC)]
  refine Heap.content_congr fun k hk => (hg.same k ?_).ready
  have := fun hk : k ∈ C.take 1 => List.mem_of_mem_take hk
  simp only [List.mem_append] at hk ⊢
  tauto

theorem Grown.node (hg : Grown h h' b b' A B C D L M w U K P) (hk : k ∈ A ++ B ++ (C ++ L) ++ M) :
    k ∈ A ++ B ++ C ++ D ∧ Linked h h' k ∨ New h h' k := by
  have hk : k ∈ A ++ B ++ C ∨ k ∈ L ∨ k ∈ M := by
    simp only [List.mem_append] at hk ⊢
    tauto
  rcases hk with hk | hk | hk
  · exact .inl ⟨List.mem_append_left _ hk, hg.same k hk⟩
  · exact (hg.added k hk).imp_left fun ⟨hD, hl⟩ => ⟨List.mem_append_right _ hD, hl⟩
  · exact .inl ⟨List.mem_append_right _ (hg.rest k hk).1, (hg.rest k hk).2⟩

theorem Grown.wrote {h₁ : Heap} (hb : Buffer h b p) (hback : p.back ≠ [])
    (hg : Grown h h₁ { b with mallocSize := b.mallocSize + l.length } b' p.old p.front p.back
      p.spare L D w U (b.kept ++ K) P)
    (hgv : Gave h₁ h' w l)
    (hs : Safe h' (p.old ++ p.front ++ (p.back ++ L) ++ D ++ U) (b.kept ++ K) P)
    (hk : Keeps h₁ h' U K P) (hst : Still h₁ h') (ho : Owned h' (p.old ++ p.front ++ (p.back ++ L)))
    (hoa : Owned h' (p.old ++ p.front ++ (p.back ++ L) ++ D))
    (hw : (h₁.nodes w).Like (h'.nodes w) ∨ w ∉ p.used ∧ h.owner (h'.nodes w).buf.blk = .lent) :
    Wrote h h' b b' p ⟨p.old, p.front, p.back ++ L, D⟩ l U K P := by
  have hlast := hg.last
  have hwC : w ∈ p.back ++ L := List.mem_of_getLast? hlast
  obtain ⟨M, hM⟩ : ∃ M, p.back ++ L = M ++ [w] := by
    obtain ⟨M, x, hM⟩ := exists_last (C := p.back ++ L) (by simp [hback])
    rw [hM] at hlast
    exact ⟨M, by simpa [hM] using hlast⟩
  have hnd : (p.old ++ p.front ++ (p.back ++ L) ++ D).Nodup := hs.nodup.of_append_left
  have hwM : w ∉ M := by
    have := (List.nodup_append.mp hnd.of_append_left).2.1
    rw [hM] at this
    exact fun hm => (List.nodup_append.mp this).2.2 w hm w (by simp) rfl
  have hready := hgv.ready_eq
  have hpend : h'.unflushed (p.back ++ L) = h.unflushed p.back ++ l := by
    rw [hM, hgv.unflushed hwM, ← hM, hg.unflushed]
  have hrep := hgv.rep hg.rep hwC hnd
  have hnode : ∀ k ∈ p.old ++ p.front ++ (p.back ++ L) ++ D,
      (h'.nodes k).origin = (h₁.nodes k).origin := fun k _ => by
    by_cases hkw : k = w
    · rw [hkw, hgv.origin]
    · rw [hgv.others k hkw]
  have hkept : b'.kept = b.kept := by
    rw [hg.ptr]
    rfl
  refine ⟨⟨⟨hrep, ?_, ?_, ho, hoa, ?_, fun _ k hk => ?_⟩, ?_, ?_, fun _ hx => hx, fun q hq => ?_⟩,
    hg.still.trans hst, hkept, ?_, ?_, hpend,
    fun k hk => ?_, fun k hk => ⟨?_, ?_⟩, by simp [hback], fun hi k hk => ?_⟩
  · have : b'.length = b.length := by rw [hg.ptr]
    rw [this, hb.length, Parts.live, Parts.live, ← hg.content]
    exact congrArg _ (congrArg _ (Heap.content_congr fun k _ => hready k)).symm
  · have : b'.mallocSize = b.mallocSize + l.length := by rw [hg.ptr]
    rw [this, hb.malloc, Parts.live, Parts.live, hb.rep.unflushed_live, hrep.unflushed_live, hpend]
    simp
  · rw [hg.ptr]
    exact hb.peek
  · rw [hnode k hk]
    rcases hg.node hk with ⟨hk, hl⟩ | hn
    · rw [hl.like.origin]
      exact hb.plain hback k hk
    · exact hn.origin
  · rw [hkept]
    exact hs
  · exact (hg.keeps.mono (fun _ hi => hi) (fun _ hq => List.mem_append_right _ hq)
      fun _ hx => hx).trans hk
  · exact .inl ⟨q, hkept ▸ hq, rfl⟩
  · rw [Parts.early, Parts.early, ← hg.early hback]
    exact Heap.content_congr fun k _ => hready k
  · rw [hM, hgv.later hwM, ← hM, hg.later hback]
  · -- a node is one of the buffer, or new, or has been lent by a user
    have hlike : (h₁.nodes k).Like (h'.nodes k) ∨ h.owner (h'.nodes k).buf.blk = .lent := by
      by_cases hkw : k = w
      · exact hkw ▸ hw.imp_right And.right
      · rw [hgv.others k hkw]
        exact .inl (.refl _)
    rcases hlike with hlike | hlent
    · rcases hg.node hk with ⟨hk, hl⟩ | hn
      · exact .inl ⟨hk, hl.like.trans hlike⟩
      · rw [hlike.blk, hlike.cap, hlike.readonly]
        exact .inr (hn.block.imp_right .inl)
    · exact .inr (.inr (.inr hlent))
  · simp only [Parts.used, List.mem_append] at hk ⊢
    tauto
  · refine (hg.same k hk).like.trans ?_
    by_cases hkw : k = w
    · subst hkw
      exact hw.resolve_right fun hw => hw.1 hk
    · rw [hgv.others k hkw]
      exact .refl _
  · have hlen : (h'.nodes k).buf.len = (h₁.nodes k).buf.len := by
      by_cases hkw : k = w
      · rw [hkw, hgv.len]
      · rw [hgv.others k hkw]
    have hsame : ∀ {k}, Linked h h₁ k → k ∈ p.back.tail ++ p.spare → (h₁.nodes k).buf.len = 0 := by
      rintro k ⟨_, he⟩ hk
      rw [he]
      exact hi _ hk
    rw [hlen]
    rw [List.tail_append_of_ne_nil hback, List.append_assoc, List.mem_append, List.mem_append] at hk
    rcases hk with hk | hk | hk
    · exact hsame (hg.same k (List.mem_append_right _ (List.mem_of_mem_tail hk)))
        (List.mem_append_left _ hk)
    · rcases hg.added k hk with ⟨hD, hl⟩ | hn
      · exact hsame hl (List.mem_append_right _ hD)
      · exact hn.len
    · exact hsame (hg.rest k hk).2 (List.mem_append_right _ (hg.rest k hk).1)

theorem Grown.reserved {h₁ : Heap} (hb : Buffer h b p) (hback : p.back ≠ [])
    (hg : Grown h h₁ { b with mallocSize := b.mallocSize + n } b' p.old p.front p.back p.spare L D w
      U (b.kept ++ K) P)
    (hro : (h₁.nodes w).readonly = false) (hroom : (h₁.nodes w).malloc + n ≤ (h₁.nodes w).buf.cap) :
    Wrote h (h₁.reserve w n) b b' p ⟨p.old, p.front, p.back ++ L, D⟩
      ((h₁.nodes w).room n).cells U K P ∧
      (h₁.reserve w n).pending w = h₁.pending w ++ ((h₁.nodes w).room n).cells ∧
      ∀ a ∈ ((h₁.nodes w).room n).cells, Loose h p.all [] a := by
  have hwC : w ∈ p.back ++ L := List.mem_of_getLast? hg.last
  have hw : w ∈ p.old ++ p.front ++ (p.back ++ L) ++ D :=
    List.mem_append_left _ (List.mem_append_right _ hwC)
  have hor : (h₁.nodes w).origin = none := by
    rcases hg.node hw with ⟨hw, hl⟩ | hn
    · rw [hl.like.origin]
      exact hb.plain hback w hw
    · exact hn.origin
  have hlike : ∀ k, (h₁.nodes k).Like ((h₁.reserve w n).nodes k) := fun k => Heap.reserve_like hro
  have hwU : w ∉ U := fun hwU => (List.nodup_append.mp hg.safe.nodup).2.2 w hw w hwU rfl
  have hlen : ((h₁.nodes w).room n).cells.length = n := by simp [Slice.cells, Node.room]
  have hst : Still h₁ (h₁.reserve w n) := ⟨fun _ _ => rfl, rfl, le_rfl, le_rfl⟩
  have hgv := gave_reserve (hg.rep.fit w hw) hor hroom
  refine ⟨Grown.wrote hb hback (hlen.symm ▸ hg) hgv
      (hg.safe.set (List.mem_append_left _ hw) (by simpa [Heap.reserve] using hlike w) rfl)
      (.set hwU (by simpa [Heap.reserve] using hlike w)) hst
      (hg.owned.like (fun _ => id) fun k _ => hlike k)
      (hg.owned_all.like (fun _ => id) fun k _ => hlike k) (.inl (hlike w)), hgv.pending,
      fun a ha => ?_⟩
  have ha := mem_cells.mp ha
  rcases hg.node hw with ⟨hw, hl⟩ | hn
  · obtain ⟨next, hnode⟩ := hl
    rw [hnode] at hro hroom hor
    simp only [Node.room, hnode] at ha
    refine .inr (.inr ⟨w, hw, ⟨hor, hro, ?_⟩, ha.1.symm, ha.2.1⟩)
    simp only at hroom
    omega
  · refine .inl ?_
    rw [ha.1]
    rcases hn.block with h0 | ⟨-, hm⟩
    · simp only [Node.room] at ha
      omega
    · exact hm

theorem reserve_spec (hb : Buffer h b p) (hs : Safe h (p.all ++ U) (b.kept ++ K) P)
    (hv : Viewed h U) (hback : p.back ≠ []) (cfg : Config) (hpos : 0 < n) :
    ∃ s b' h₁ h' p' w, growth cfg n (h.fresh + 1) { b with mallocSize := b.mallocSize + n } h =
        some (b', h₁) ∧ b'.write = some w ∧ h₁.nodeMalloc w n = some (s, h') ∧
      Wrote h h' b b' p p' s.cells U K P ∧ h'.mem = h.mem ∧ s.len = n ∧
      ∀ a ∈ s.cells, Loose h p.all [] a := by
  have hfuel : p.spare.length < h.fresh + 1 := by
    have := hs.length_le
    simp only [Parts.all, List.length_append] at this
    omega
  obtain ⟨L, D', w, b', h₁, hgrow, hg, hro, hroom⟩ := growth_spec
    (b := { b with mallocSize := b.mallocSize + n }) (hb.rep.of_eq rfl rfl rfl rfl) hback hs
    hb.owned_all hv cfg hpos hfuel
  obtain ⟨hwr, -, hloose⟩ := hg.reserved hb hback hro hroom
  exact ⟨_, b', h₁, _, _, w, hgrow, by rw [hg.ptr], Heap.nodeMalloc_eq hroom, hwr, hg.mem, rfl,
    hloose⟩

theorem malloc_spec (hb : Buffer h b p) (hs : Safe h (p.all ++ U) (b.kept ++ K) P)
    (hv : Viewed h U) (hback : p.back ≠ []) (cfg : Config) (hpos : 0 < n) :
    ∃ s b' h' p', b.malloc h cfg n = some (s, b', h') ∧ Wrote h h' b b' p p' s.cells U K P ∧
      h'.mem = h.mem ∧ s.len = n ∧ ∀ a ∈ s.cells, Loose h p.all [] a := by
  obtain ⟨s, b', h₁, h', p', w, hgrow, hw, hma, hwr⟩ := reserve_spec hb hs hv hback cfg hpos
  refine ⟨s, b', h', p', ?_, hwr⟩
  simp [LinkBuffer.malloc, Nat.ne_of_gt hpos, hgrow, hw, hma]

theorem Wrote.store {m : Nat → Nat → UInt8} (hw : Wrote h h' b b' p p' l U K P) :
    Wrote h { h' with mem := m } b b' p p' l U K P where
  post := ⟨hw.post.buffer.of_bare (fun _ => id) fun _ _ => rfl, hw.post.safe.store,
    hw.post.keeps.trans .store, hw.post.pins, hw.post.caches⟩
  still := hw.still.trans ⟨fun _ _ => rfl, rfl, le_rfl, le_rfl⟩
  kept := hw.kept
  readable := hw.readable
  later := hw.later
  pending := hw.pending
  adds := hw.adds
  stay := hw.stay
  back := hw.back
  idle := hw.idle

theorem gave_lay (hn : New h h' j) (hcap : s.len ≤ s.cap) : Gave h' (h'.lay j s) j s.cells where
  others k hk := by simp [Heap.lay, hk]
  len := by simp [Heap.lay, hn.len]
  ready := by
    rw [hn.ready]
    simp [Heap.ready, Heap.lay, Node.len]
  pending := by
    rw [hn.pending]
    simp [Heap.pending, Heap.lay, Slice.cells]
  fit := by constructor <;> simp [Heap.lay, hn.off, hcap]
  next := by simp [Heap.lay]
  origin := by simp [Heap.lay]

theorem Owned.lay (ho : Owned h (A ++ [j])) (hj : j ∉ A) (hro : (h.nodes j).readonly = true)
    (hl : h.owner s.blk = .lent) : Owned (h.lay j s) (A ++ [j]) := by
  induction A with
  | nil => exact ⟨fun _ => .inl (by simpa [Heap.lay] using hl), trivial⟩
  | cons i A ih =>
    have hsame : ∀ k, k ≠ j → (h.lay j s).nodes k = h.nodes k := fun k hk => by simp [Heap.lay, hk]
    have hij : i ≠ j := fun he => hj (by simp [he])
    refine ⟨fun hv => ?_, ih ho.2 fun hA => hj (by simp [hA])⟩
    rw [hsame i hij] at hv ⊢
    refine (ho.1 hv).imp_right ?_
    rintro ⟨L₁, k, L₂, he, hro', hroot, hblk⟩
    have hkj : k ≠ j := by
      rintro rfl
      exact absurd hroot.2.1 (by simp [hro])
    refine ⟨L₁, k, L₂, he, fun x hx => ?_, by rwa [hsame k hkj], by rwa [hsame k hkj]⟩
    by_cases hxj : x = j
    · rw [hxj]
      simpa [Heap.lay] using hro
    · rw [hsame x hxj]
      exact hro' x hx

theorem lay_spec (hb : Buffer h b p) (hs : Safe h (p.all ++ U) (b.kept ++ K) P) (hv : Viewed h U)
    (hback : p.back ≠ []) (cfg : Config) (hlen : s.len ≤ s.cap) (hl : h.owner s.blk = .lent) :
    ∃ j b' h₁ p', { b with mallocSize := b.mallocSize + s.len }.addTail h cfg 0 =
        some (j, b', h₁) ∧ Wrote h (h₁.lay j s) b b' p p' s.cells U K P ∧
      (h₁.lay j s).mem = h.mem := by
  obtain ⟨j, b', h₁, htail, hg, hn, hro, -, hcap⟩ := addTail_spec
    (b := { b with mallocSize := b.mallocSize + s.len }) (hb.rep.of_eq rfl rfl rfl rfl) hback hs
    hb.owned hv cfg 0
  have hl₁ := hg.still.lent _ hl
  have hperm : (p.old ++ p.front ++ (p.back ++ [j]) ++ [] ++ U).Perm
      (j :: (p.old ++ p.front ++ p.back ++ U)) := List.perm_iff_count.mpr fun a => by
    simp only [List.count_append, List.count_cons, List.count_nil]
    omega
  obtain ⟨hs', hk'⟩ := (hg.safe.perm hperm).lay hn.origin (by simpa using hro)
    (hcap (Int.le_refl _))
    hn.refer hl₁
  have hjA : j ∉ p.old ++ p.front ++ p.back := fun hm =>
    (List.nodup_cons.mp hs'.nodup).1 (List.mem_append_left _ hm)
  have ho : Owned (h₁.lay j s) (p.old ++ p.front ++ p.back ++ [j]) := by
    refine Owned.lay ?_ hjA (by simpa using hro) hl₁
    simpa using hg.owned
  have hcells : s.cells.length = s.len := by simp [Slice.cells]
  refine ⟨j, b', h₁, _, htail, Grown.wrote hb hback (hcells.symm ▸ hg) (gave_lay hn hlen)
    (hs'.perm hperm.symm) (hk'.mono (fun _ hi => by simp [hi]) (fun _ hq => by simp [hq])
      fun _ hx => hx)
    ⟨fun _ _ => rfl, rfl, le_rfl, le_rfl⟩ (by simpa using ho) (by simpa using ho)
    (.inr ⟨hjA, by simpa [Heap.lay] using hl⟩), hg.mem⟩

theorem writeBinary_spec (hb : Buffer h b p) (hs : Safe h (p.all ++ U) (b.kept ++ K) P)
    (hv : Viewed h U) (hback : p.back ≠ []) (cfg : Config) (hpos : 0 < s.len) (hlen : s.len ≤ s.cap)
    (hl : h.owner s.blk = .lent) :
    ∃ b' h' p' l, b.writeBinary h cfg s = some (s.len, b', h') ∧ Wrote h h' b b' p p' l U K P ∧
      Calm h h' p.all ∧ h'.look l = h.bytes s := by
  by_cases hbig : binaryInplaceThreshold < s.len
  · obtain ⟨j, b', h₁, p', htail, hw, hmem⟩ := lay_spec hb hs hv hback cfg hlen hl
    refine ⟨b', _, p', s.cells, ?_, hw, .of_mem hmem, ?_⟩
    · simp [LinkBuffer.writeBinary, Nat.ne_of_gt hpos, hbig, htail, Heap.lay]
    · rw [Heap.bytes_eq, Heap.look, hmem, Heap.look]
  · obtain ⟨q, b', h₁, h', p', w, hgrow, hw, hma, hwr, hmem, hq, hloose⟩ :=
      reserve_spec hb hs hv hback cfg hpos
    have hbytes : h'.bytes s = h.bytes s := by simp only [Heap.bytes, hmem]
    have hlen' : (h.bytes s).length = q.len := by simp [Heap.bytes, hq]
    refine ⟨b', h'.copy q (h'.bytes s), p', q.cells, ?_, hwr.store, ?_, ?_⟩
    · simp [LinkBuffer.writeBinary, Nat.ne_of_gt hpos, hbig, hgrow, hw, hma, hq]
    · rw [Calm, Heap.copy, hbytes, List.take_of_length_le hlen'.le, ← hmem]
      refine writes_store.mono fun a ha => hloose a ?_
      rwa [hlen'] at ha
    · rw [← Heap.bytes_eq, Heap.copy, hbytes, List.take_of_length_le hlen'.le, Heap.bytes, ← hlen',
        load_store_self]

theorem writeByte_spec {c : UInt8} (hb : Buffer h b p) (hs : Safe h (p.all ++ U) (b.kept ++ K) P)
    (hv : Viewed h U) (hback : p.back ≠ []) (cfg : Config) :
    ∃ b' h' p' l, b.writeByte h cfg c = some (b', h') ∧ Wrote h h' b b' p p' l U K P ∧
      Calm h h' p.all ∧ h'.look l = [c] := by
  obtain ⟨s, b', h', p', hma, hw, hmem, hlen, hloose⟩ := malloc_spec hb hs hv hback cfg Nat.one_pos
  have hma : b.malloc h cfg 1 = some (s, b', h') := hma
  refine ⟨b', h'.copy s [c], p', s.cells, by simp [LinkBuffer.writeByte, hma, hlen], hw.store, ?_,
    ?_⟩
  · rw [Calm, Heap.copy, hlen, ← hmem]
    refine writes_store.mono fun a ha => hloose a ?_
    simpa [Slice.cells, hlen] using ha
  · rw [← Heap.bytes_eq, Heap.copy, hlen, Heap.bytes, hlen]
    exact load_store_self

def Node.flushed (node : Node) : Node :=
  { node with buf := { node.buf with len := max node.buf.len node.malloc } }

def Heap.flush (h : Heap) (L : List Nat) : Heap :=
  { h with nodes := fun k => if k ∈ L then (h.nodes k).flushed else h.nodes k }

theorem Node.Fit.flushed {node : Node} (hf : node.Fit) (ho : node.origin = none) :
    node.flushed.Fit := by
  have h1 := hf.grown ho
  have h2 := hf.off
  have h3 := hf.malloc
  constructor <;> simp only [Node.flushed] <;> omega

theorem flushLoop_spec {stop node : Option Nat} {total fuel : Nat}
    (hL : Chain.Seg (fun i => (h.nodes i).next) node L stop) (hnd : L.Nodup)
    (hstop : ∀ i ∈ L, stop ≠ some i) (hfit : ∀ i ∈ L, (h.nodes i).Fit) (hf : L.length < fuel) :
    flushLoop stop fuel h node total = some (total + (h.unflushed L).length, h.flush L) := by
  induction L generalizing h node total fuel with
  | nil =>
    obtain ⟨f, rfl⟩ := Nat.exists_eq_add_of_lt hf
    simp only [Chain.seg_nil] at hL
    simp [flushLoop, hL, Heap.flush]
  | cons i L ih =>
    obtain ⟨f, rfl, hB⟩ := Chain.steps_of_length_lt hf
    obtain ⟨rfl, hL⟩ := hL
    have hne : some i ≠ stop := (hstop i (by simp)).symm
    have hiL := (List.nodup_cons.mp hnd).1
    have hm := (hfit i (by simp)).malloc
    have hki : ∀ k ∈ L, k ≠ i := by
      rintro k hk rfl
      exact hiL hk
    have hset : ∀ node, h.set i node = { h with nodes := Function.update h.nodes i node } :=
      fun _ => rfl
    have hstep : flushLoop stop (f + 1) h (some i) total =
        flushLoop stop f (h.set i (h.nodes i).flushed) (h.nodes i).next
          (total + (h.pending i).length) := by
      by_cases hlt : (h.nodes i).buf.len < (h.nodes i).malloc
      · have hmax : max (h.nodes i).buf.len (h.nodes i).malloc = (h.nodes i).malloc := by omega
        simp [flushLoop, hne, hlt, Slice.upto, hm, Node.flushed, hmax]
      · have hmax : max (h.nodes i).buf.len (h.nodes i).malloc = (h.nodes i).buf.len := by omega
        have hz : (h.nodes i).malloc - (h.nodes i).buf.len = 0 := by omega
        simp [flushLoop, hne, hlt, Node.flushed, hmax, hz, Heap.set]
    have hunf : (h.set i (h.nodes i).flushed).unflushed L = h.unflushed L :=
      Heap.unflushed_congr fun k hk => by simp [Heap.pending, hki k hk]
    rw [hstep, ih (hL.congr fun k hk => by simp [hki k hk]) (List.nodup_cons.mp hnd).2
      (fun k hk => hstop k (by simp [hk]))
      (fun k hk => by simpa [hki k hk] using hfit k (by simp [hk])) hB, hunf]
    refine congrArg some (Prod.ext (by simp [Heap.unflushed]; omega) ?_)
    simp only [Heap.flush, Heap.set, Heap.mk.injEq, and_true]
    funext k
    by_cases hk : k = i
    · subst hk
      simp [hiL]
    · simp [hk]

theorem Node.Like.flushed {node : Node} (hf : node.Fit) : node.Like node.flushed := by
  have h2 := hf.len
  have h3 := hf.malloc
  refine ⟨rfl, rfl, rfl, ?_, fun _ => ?_, rfl, id, rfl, le_rfl, fun _ => le_rfl⟩ <;>
    simp only [Node.flushed] <;> omega

theorem Heap.flush_of_notMem (hk : k ∉ L) : (h.flush L).nodes k = h.nodes k := by
  simp [Heap.flush, hk]

theorem Heap.flush_like (hfit : ∀ i ∈ L, (h.nodes i).Fit) :
    (h.nodes k).Like ((h.flush L).nodes k) := by
  by_cases hk : k ∈ L
  · simpa [Heap.flush, hk] using Node.Like.flushed (hfit k hk)
  · rw [Heap.flush_of_notMem hk]
    exact .refl _

theorem Heap.flush_pending (hk : k ∈ L) : (h.flush L).pending k = [] := by
  have hz : (h.nodes k).malloc - max (h.nodes k).buf.len (h.nodes k).malloc = 0 := by omega
  simp [Heap.pending, Heap.flush, hk, Node.flushed, hz]

theorem Heap.flush_ready (hk : k ∈ L) (hf : (h.nodes k).Fit) (ho : (h.nodes k).origin = none) :
    (h.flush L).ready k = h.ready k ++ h.pending k := by
  have h1 := hf.grown ho
  have h2 := hf.off
  have hmax : max (h.nodes k).buf.len (h.nodes k).malloc = (h.nodes k).malloc := by omega
  have hlen : (h.nodes k).malloc - (h.nodes k).off =
      ((h.nodes k).buf.len - (h.nodes k).off) + ((h.nodes k).malloc - (h.nodes k).buf.len) := by
        omega
  have hpos : (h.nodes k).buf.off + (h.nodes k).off + ((h.nodes k).buf.len - (h.nodes k).off) =
      (h.nodes k).buf.off + (h.nodes k).buf.len := by omega
  simp only [Heap.ready, Heap.pending, Heap.flush, if_pos hk, Node.flushed, Node.len, hmax]
  rw [hlen, cells_add, hpos]

structure FlushPost (h h' : Heap) (b b' : LinkBuffer) (p p' : Parts) (U : List Nat) (K : List Slice)
    (P : Nat → Prop) : Prop where
  post : Post h h' b b' p p' U K P P
  still : Still h h'
  mem : h'.mem = h.mem
  kept : b'.kept = b.kept
  readable : h'.content p'.early = h.content p.early ++ h.later p.back
  later : h'.later p'.back = []
  pending : h'.unflushed p'.back = []
  adds : Adds h h' p.all p'.all
  stay : Stay h h' p p'
  back : p'.back ≠ []
  idle : Idle h p → Idle h' p'

theorem Heap.content_flush (hL : ∀ k ∈ L, (h.nodes k).Fit ∧ (h.nodes k).origin = none) :
    (h.flush L).content L = h.whole L := by
  simp only [Heap.content, Heap.whole, List.flatMap_def]
  rw [List.map_congr_left fun k hk => Heap.flush_ready hk (hL k hk).1 (hL k hk).2]

theorem Heap.whole_eq (hC : C ≠ []) : h.whole C = h.content (C.take 1) ++ h.later C := by
  cases C with
  | nil => exact absurd rfl hC
  | cons c C => simp [Heap.later]

theorem Heap.length_whole : (h.whole L).length = (h.content L).length + (h.unflushed L).length := by
  induction L with
  | nil => rfl
  | cons i L ih =>
    simp only [Heap.whole_cons, Heap.content_cons, Heap.unflushed_cons, List.length_append, ih]
    omega

theorem Rep.seg_back (hr : Rep h b A B C D) (hC : C ≠ []) :
    Chain.Seg (fun i => (h.nodes i).next) b.flush C D.head? := by
  have hseg := hr.seg
  rw [List.append_assoc] at hseg
  obtain ⟨c, -, hrest⟩ := Chain.seg_append.mp hseg
  have hc : c = b.flush := by
    rw [hrest.head, hr.flush]
    cases C with
    | nil => exact absurd rfl hC
    | cons x C => rfl
  obtain ⟨e, hCs, hD⟩ := Chain.seg_append.mp hrest
  rw [← hc, ← hD.head]
  exact hCs

theorem Rep.next_write (hr : Rep h b A B (C ++ [w]) D) : (h.nodes w).next = D.head? := by
  have hseg := hr.seg
  rw [← List.append_assoc, List.append_assoc _ [w]] at hseg
  simpa using hseg.next_eq

structure Flushing (h : Heap) (b : LinkBuffer) (p : Parts) (w : Nat) : Prop where
  buffer : Buffer h b p
  nodup : p.all.Nodup
  last : p.back.dropLast ++ [w] = p.back

namespace Flushing

variable {w : Nat}

theorem back (hf : Flushing h b p w) : p.back ≠ [] := by
  rw [← hf.last]
  simp

theorem write (hf : Flushing h b p w) : b.write = some w := by
  rw [hf.buffer.rep.write, ← hf.last]
  simp

theorem all (hf : Flushing h b p w) :
    p.old ++ (p.front ++ p.back.dropLast) ++ [w] ++ p.spare = p.all := by
  rw [← List.append_assoc p.old, List.append_assoc (p.old ++ p.front), hf.last, Parts.all]

theorem fit (hf : Flushing h b p w) (hk : k ∈ p.back) :
    (h.nodes k).Fit ∧ (h.nodes k).origin = none :=
  ⟨hf.buffer.rep.fit k (Parts.mem_all_of_back hk),
    hf.buffer.plain hf.back k (Parts.mem_all_of_back hk)⟩

theorem like (hf : Flushing h b p w) (k : Nat) : (h.nodes k).Like ((h.flush p.back).nodes k) :=
  Heap.flush_like fun _ hk => (hf.fit hk).1

theorem old (hf : Flushing h b p w) (hk : k ∈ p.old ++ p.front) :
    (h.flush p.back).nodes k = h.nodes k :=
  Heap.flush_of_notMem fun hk' => (List.nodup_append.mp hf.nodup.of_append_left).2.2 k hk k hk' rfl

theorem notMem_spare (hf : Flushing h b p w) (hk : k ∈ p.spare) : k ∉ p.back := fun hk' =>
  (List.nodup_append.mp hf.nodup).2.2 k (List.mem_append_right _ hk') k hk rfl

theorem spare (hf : Flushing h b p w) (hk : k ∈ p.spare) : (h.flush p.back).nodes k = h.nodes k :=
  Heap.flush_of_notMem (hf.notMem_spare hk)

theorem loop (hf : Flushing h b p w) (hfuel : p.back.length < fuel) :
    flushLoop (h.nodes w).next fuel h b.flush 0 =
    some ((h.unflushed p.back).length, h.flush p.back) := by
  have hnext : (h.nodes w).next = p.spare.head? := (hf.last.symm ▸ hf.buffer.rep).next_write
  have hnd : p.back.Nodup := (List.nodup_append.mp hf.nodup.of_append_left).2.1
  rw [hnext, flushLoop_spec (hf.buffer.rep.seg_back hf.back) hnd (fun k hk he =>
    hf.notMem_spare (List.mem_of_mem_head? (Option.mem_def.mpr he)) hk) (fun k hk => (hf.fit hk).1)
    hfuel, Nat.zero_add]

theorem content (hf : Flushing h b p w) :
    (h.flush p.back).content (p.front ++ p.back.dropLast ++ [w]) = h.content p.front ++
    h.whole p.back := by
  have hfront : (h.flush p.back).content p.front = h.content p.front :=
    Heap.content_congr fun k hk => by
    simp only [Heap.ready, hf.old (List.mem_append_right _ hk)]
  rw [List.append_assoc, hf.last, Heap.content_append, hfront,
    Heap.content_flush fun k hk => hf.fit hk]

theorem pending (hf : Flushing h b p w) : (h.flush p.back).pending w = [] :=
  Heap.flush_pending (by rw [← hf.last]; simp)

theorem rep (hf : Flushing h b p w) {b' : LinkBuffer} (hhead : b'.head = b.head)
    (hread : b'.read = b.read) (hflush : b'.flush = some w) (hwrite : b'.write = b.write) :
    Rep (h.flush p.back) b' p.old (p.front ++ p.back.dropLast) [w] p.spare where
  seg := by
    rw [hf.all, hhead]
    refine hf.buffer.rep.seg.congr fun k _ => ?_
    by_cases hk : k ∈ p.back <;> simp [Heap.flush, hk, Node.flushed]
  read := by
    rw [hread, hf.buffer.rep.read, List.append_assoc, hf.last]
  flush := hflush
  write := hwrite.trans hf.write
  fit k hk := by
    rw [hf.all] at hk
    by_cases hkb : k ∈ p.back
    · simpa [Heap.flush, hkb] using (hf.fit hkb).1.flushed (hf.fit hkb).2
    · rw [Heap.flush_of_notMem hkb]
      exact hf.buffer.rep.fit k hk
  submitted k hk := by
    rcases List.mem_append.mp hk with hk | hk
    · rw [Heap.pending, hf.old (List.mem_append_right _ hk)]
      exact hf.buffer.rep.submitted k hk
    · exact Heap.flush_pending ((List.dropLast_sublist _).subset hk)
  spare k hk := by
    rw [Heap.ready, Heap.pending, hf.spare hk]
    exact hf.buffer.rep.spare k hk
  reader := by simp

theorem buffer_flush (hf : Flushing h b p w) :
    Buffer (h.flush p.back)
      ({ b with mallocSize := 0, flush := some w }.recalLen (h.unflushed p.back).length)
      ⟨p.old, p.front ++ p.back.dropLast, [w], p.spare⟩ := by
  have hrep : Rep (h.flush p.back)
      ({ b with mallocSize := 0, flush := some w }.recalLen (h.unflushed p.back).length)
      p.old (p.front ++ p.back.dropLast) [w] p.spare := hf.rep rfl rfl rfl rfl
  refine ⟨hrep, ?_, ?_, ?_, ?_, hf.buffer.peek, fun _ k hk => ?_⟩
  · have hlen := hf.buffer.length
    rw [Parts.live, Heap.content_append, List.length_append] at hlen
    rw [Parts.live, hf.content, List.length_append, Heap.length_whole]
    simp only [LinkBuffer.recalLen, hlen]
    omega
  · rw [Parts.live, hrep.unflushed_live]
    simp [LinkBuffer.recalLen, hf.pending]
  · rw [← List.append_assoc p.old, List.append_assoc (p.old ++ p.front), hf.last]
    exact hf.buffer.owned.like (fun _ => id) fun k _ => hf.like k
  · rw [Parts.all, hf.all]
    exact hf.buffer.owned_all.like (fun _ => id) fun k _ => hf.like k
  · rw [Parts.all, hf.all] at hk
    rw [(hf.like k).origin]
    exact hf.buffer.plain hf.back k hk

theorem safe (hf : Flushing h b p w) (hs : Safe h (p.all ++ U) K P) :
    Safe (h.flush p.back) (p.all ++ U) K P := by
  refine hs.congr rfl rfl rfl rfl (fun k _ _ => ⟨hf.like k, ?_⟩) fun k hk => ?_
  · by_cases hk : k ∈ p.back <;> simp [Heap.flush, hk, Node.flushed]
  · refine Heap.flush_of_notMem fun hkb => ?_
    exact hs.counted.unpooled k
      (refs_pos_of_mem (List.mem_append_left _ (Parts.mem_all_of_back hkb))) hk

end Flushing

theorem flush_core (hb : Buffer h b p) (hs : Safe h (p.all ++ U) (b.kept ++ K) P)
    (hback : p.back ≠ []) :
    ∃ w, b.write = some w ∧ flushLoop (h.nodes w).next (h.fresh + 1) h b.flush 0 =
        some ((h.unflushed p.back).length, h.flush p.back) ∧
      FlushPost h (h.flush p.back) b
        ({ b with mallocSize := 0, flush := some w }.recalLen (h.unflushed p.back).length) p
        ⟨p.old, p.front ++ p.back.dropLast, [w], p.spare⟩ U K P ∧
      (⟨p.old, p.front ++ p.back.dropLast, [w], p.spare⟩ : Parts).all = p.all ∧
      ∀ k, (h.nodes k).Like ((h.flush p.back).nodes k) := by
  obtain ⟨M, w, hM⟩ := exists_last hback
  have hf : Flushing h b p w := ⟨hb, hs.nodup.of_append_left, by simp [hM]⟩
  have hfuel : p.back.length < h.fresh + 1 := by
    have := hs.length_le
    simp only [Parts.all, List.length_append] at this
    omega
  have hkept := recalLen_kept (b := { b with mallocSize := 0, flush := some w })
    (h.unflushed p.back).length
  refine ⟨w, hf.write, hf.loop hfuel, ⟨⟨hf.buffer_flush, ?_, ?_, fun _ hx => hx, fun q hq => ?_⟩,
    ⟨fun _ _ => rfl, rfl, le_rfl, le_rfl⟩, rfl, hkept, ?_, by simpa [Heap.later] using hf.pending,
    by simpa using hf.pending, ?_, fun k hk => ⟨?_, hf.like k⟩, by simp, fun hi k hk => ?_⟩, hf.all,
    hf.like⟩
  · rw [hkept, Parts.all, hf.all]
    exact hf.safe hs
  · refine .of_like ⟨fun _ _ => rfl, rfl, le_rfl, le_rfl⟩ (fun k hk => ?_) fun _ _ r _ => hf.like r
    rw [Heap.flush_of_notMem fun hkb =>
      (List.nodup_append.mp hs.nodup).2.2 k (Parts.mem_all_of_back hkb) k hk rfl]
  · exact .inl ⟨q, hkept ▸ hq, rfl⟩
  · rw [Parts.early, Parts.early, List.take_of_length_le (by simp), hf.content, Heap.content_append,
      List.append_assoc, Heap.whole_eq hback]
  · exact .of_like fun k hk => ⟨by rwa [Parts.all, hf.all] at hk, hf.like k⟩
  · rwa [Parts.used, ← List.append_assoc p.old, List.append_assoc (p.old ++ p.front), hf.last]
  · have hk : k ∈ p.spare := by simpa using hk
    rw [hf.spare hk]
    exact hi k (List.mem_append_right _ hk)

theorem FlushPost.after {h₁ : Heap} {b₁ : LinkBuffer} {p₁ : Parts}
    (hw : Wrote h h₁ b b₁ p p₁ [] U K P) (hm : h₁.mem = h.mem)
    (hf : FlushPost h₁ h' b₁ b' p₁ p' U K P)
    (ha : p'.all = p₁.all) (hl : ∀ k, (h₁.nodes k).Like (h'.nodes k)) :
    FlushPost h h' b b' p p' U K P where
  post := hw.post.trans hw.still hf.post
  still := hw.still.trans hf.still
  mem := hf.mem.trans hm
  kept := hf.kept.trans hw.kept
  readable := by rw [hf.readable, hw.readable, hw.later, List.append_nil]
  later := hf.later
  pending := hf.pending
  adds := hw.adds.trans_like fun k hk => ⟨ha ▸ hk, hl k⟩
  stay := hw.stay.trans hf.stay
  back := hf.back
  idle hi := hf.idle (hw.idle hi)

theorem emptyTail_spec (hb : Buffer h b p) (hs : Safe h (p.all ++ U) (b.kept ++ K) P)
    (hv : Viewed h U) (hback : p.back ≠ []) (cfg : Config) :
    ∃ j h₁,
    (∀ b₁ : LinkBuffer, b₁.write = b.write →
      b₁.addTail h cfg 0 = some (j, { b₁ with write := some j }, h₁)) ∧ Wrote h h₁ b
        { b with write := some j } p ⟨p.old, p.front, p.back ++ [j], []⟩ [] U K P ∧
      h₁.mem = h.mem ∧ New h h₁ j ∧ (h₁.nodes j).buf.cap = 0 ∧
      ∀ k ∈ p.old ++ p.front ++ p.back, Linked h h₁ k := by
  obtain ⟨C, x, hC⟩ := exists_last hback
  have hr : Rep h { b with mallocSize := b.mallocSize + ([] : List Addr).length } p.old p.front
    (C ++ [x]) p.spare :=
    hC ▸ hb.rep.of_eq rfl rfl rfl rfl
  have hs' : Safe h (p.old ++ p.front ++ (C ++ [x]) ++ p.spare ++ U) (b.kept ++ K) P := by
    rw [← hC]
    exact hs
  obtain ⟨j, h₀, h₁, hnew, hlink, hg, hn, -, -, hcap⟩ := tail_spec hr hs' (hC ▸ hb.owned) hv cfg 0
  rw [← hC] at hg
  have hwr := hg.wrote hb hback ⟨fun _ _ => rfl, rfl, rfl, (List.append_nil _).symm, hn.fit, rfl,
    rfl⟩
    hg.safe .refl .refl hg.owned hg.owned_all (.inl (.refl _))
  have hcount : b.mallocSize + (([] : List Addr).length : Int) = b.mallocSize := by simp
  rw [hcount] at hwr
  refine ⟨j, h₁, fun b₁ hb₁ => ?_, hwr, hg.mem, hn, hcap (Int.le_refl 0), hg.same⟩
  have hw : b.write = some x := hr.write_last
  simp [addTail, hb₁, hw, hnew, hlink]

theorem doFlush_spec (hb : Buffer h b p) (hs : Safe h (p.all ++ U) (b.kept ++ K) P)
    (hv : Viewed h U) (hback : p.back ≠ []) (cfg : Config) :
    ∃ b' h' p', b.doFlush h cfg = some (b', h') ∧ FlushPost h h' b b' p p' U K P := by
  obtain ⟨w, hw, hloop, hf, -⟩ := flush_core hb hs hback
  by_cases hbig : pagesize < (h.nodes w).buf.cap
  · -- the last node is too large to be used again: an empty one is put behind it
    obtain ⟨j, h₁, htail, hwr, hmem, -⟩ := emptyTail_spec hb hs hv hback cfg
    obtain ⟨w', hw', hloop', hf', hall, hlike⟩ := flush_core hwr.post.buffer hwr.post.safe (by simp)
    cases hw'
    refine ⟨_, _, _, ?_, hf'.after hwr hmem hall hlike⟩
    have htail := htail { b with mallocSize := 0 } rfl
    rw [hw] at htail
    simp only [LinkBuffer.doFlush, LinkBuffer.flushTail, hw, hbig, htail, Option.bind_eq_bind,
      Option.bind_some, if_true, Option.pure_def]
    exact congrArg (Option.bind · _) hloop'
  · refine ⟨_, _, _, ?_, hf⟩
    simp [LinkBuffer.doFlush, LinkBuffer.flushTail, hw, hbig, hloop]

theorem doFlush_length {cfg : Config} {n : Int}
    (hfl : { b with length := n }.doFlush h cfg = some (b', h')) :
    ∃ m, b.doFlush h cfg = some ({ b' with length := m }, h') := by
  unfold LinkBuffer.doFlush LinkBuffer.flushTail LinkBuffer.addTail at hfl ⊢
  cases hw : b.write with
  | none => simp [hw] at hfl
  | some i =>
    by_cases hbig : pagesize < (h.nodes i).buf.cap
    · simp only [hw, hbig, if_true, Option.bind_eq_bind, Option.bind_some, Option.pure_def,
        Option.bind_eq_some_iff, Option.some.injEq, Prod.mk.injEq] at hfl ⊢
      obtain ⟨⟨k, h₁⟩, hloop, rfl, rfl⟩ := hfl
      exact ⟨_, _, hloop, rfl, rfl⟩
    · simp only [hw, hbig, if_false, Option.bind_eq_bind, Option.bind_some, Option.pure_def,
        Option.bind_eq_some_iff, Option.some.injEq, Prod.mk.injEq] at hfl ⊢
      obtain ⟨⟨k, h₁⟩, hloop, rfl, rfl⟩ := hfl
      exact ⟨_, _, hloop, rfl, rfl⟩

end Netpoll.Nocopy
