import Netpoll.Nocopy.Ack

namespace Netpoll.Nocopy

open Netpoll.Lib Netpoll.Lib.Memory LinkBuffer

variable {h h' h'' : Heap} {b buf : LinkBuffer} {p q : Parts} {U L : List Nat}
  {K : List Slice} {P : Nat → Prop} {A B C D : List Nat} {i j k w : Nat} {next : Option Nat}

def Relinked (h h' : Heap) (k : Nat) : Prop :=
  ∃ next, (h'.nodes k).bare = { (h.nodes k).bare with next := next }

theorem Relinked.of_bare (hb : (h'.nodes k).bare = (h.nodes k).bare) : Relinked h h' k := ⟨_, hb⟩

theorem Relinked.trans (h₁ : Relinked h h' k) (h₂ : Relinked h' h'' k) : Relinked h h'' k := by
  obtain ⟨n₁, e₁⟩ := h₁
  obtain ⟨n₂, e₂⟩ := h₂
  exact ⟨n₂, by rw [e₂, e₁]⟩

theorem Relinked.link : Relinked h (h.link i next) k := by
  refine ⟨if k = i then next else (h.nodes k).next, ?_⟩
  rw [Heap.link_nodes]
  rfl

theorem Relinked.like (hr : Relinked h h' k) : (h.nodes k).Like (h'.nodes k) := by
  obtain ⟨n, e⟩ := hr
  exact (Node.Like.next (n := n) _).trans (.of_bare e)

theorem Relinked.ready (hr : Relinked h h' k) : h'.ready k = h.ready k := by
  obtain ⟨n, e⟩ := hr
  have h1 := congrArg Node.buf e
  have h2 := congrArg Node.off e
  simp only [Node.bare] at h1 h2
  simp only [Heap.ready, Node.len, h1, h2]

theorem Relinked.pending (hr : Relinked h h' k) : h'.pending k = h.pending k := by
  obtain ⟨n, e⟩ := hr
  have h1 := congrArg Node.buf e
  have h2 := congrArg Node.malloc e
  simp only [Node.bare] at h1 h2
  simp only [Heap.pending, h1, h2]

theorem Relinked.fit (hr : Relinked h h' k) (hf : (h.nodes k).Fit) : (h'.nodes k).Fit := by
  obtain ⟨n, e⟩ := hr
  simp only [Node.bare, Node.mk.injEq] at e
  obtain ⟨h1, h2, h3, -, -, -, h4, -⟩ := e
  constructor <;> simp only [h1, h2, h3, h4]
  exacts [hf.off, hf.len, hf.malloc, hf.grown]

structure AppendPost (h h' : Heap) (b b' buf buf' : LinkBuffer) (p q p' : Parts) (U : List Nat)
    (K : List Slice) (P : Nat → Prop) : Prop where
  buffer : Buffer h' b' p'
  donor : buf' = { caches := buf.caches, cachePeek := buf.cachePeek }
  safe : Safe h' (p'.all ++ U) (b.kept ++ buf.kept ++ K) P
  keeps : Keeps h h' U K P
  kept : b'.kept = b.kept
  mem : h'.mem = h.mem
  readable : h'.content p'.early = h.content p.early
  later : h'.later p'.back = h.later p.back ++ (h.content q.early ++ h.later q.back)
  pending : h'.unflushed p'.back = h.unflushed p.back ++ h.unflushed q.back
  parts : p' = ⟨p.old, p.front, p.back ++ (q.front ++ q.back), []⟩
  nodes : ∀ k ∈ p'.all, (k ∈ p.all ∨ k ∈ q.all) ∧ Relinked h h' k

theorem Rep.whole_live (hr : Rep h b A B C D) (hC : C ≠ []) :
    h.whole (B ++ C) = h.content (B ++ C.take 1) ++ h.later C := by
  have hB : h.whole B = h.content B := by
    simp only [Heap.whole, Heap.content, List.flatMap_def]
    rw [List.map_congr_left fun k hk => by rw [hr.submitted k hk, List.append_nil]]
  rw [Heap.whole_append, hB, Heap.whole_eq hC, Heap.content_append, List.append_assoc]

theorem append_release (hq : Buffer h buf q) (hs : Safe h (q.all ++ U) K P) (hv : Viewed h U)
    (hback : q.back = L ++ [j]) :
    ∃ h₁ h', h.releaseTo (h.fresh + 1) buf.read buf.head = some h₁ ∧
      h₁.releaseTo (h₁.fresh + 1) none (h₁.nodes j).next = some h' ∧
      Safe h' (q.front ++ q.back ++ U) K P ∧ Keeps h h' (q.front ++ q.back ++ U) K P ∧
      h'.mem = h.mem := by
  have hne : q.back ≠ [] := by simp [hback]
  obtain ⟨hseg, -⟩ := hq.rep.seg_old
  have hall : q.all = q.old ++ (q.front ++ q.back ++ q.spare) := by simp [Parts.all]
  have ho : Owned h (q.old ++ (q.front ++ q.back ++ q.spare)) := hall ▸ hq.owned_all
  have hs₀ : Safe h (q.old ++ (q.front ++ q.back ++ q.spare) ++ U) K P := hall ▸ hs
  have hstop : ∀ i ∈ q.old, buf.read ≠ some i := by
    intro i hi he
    have hm := List.mem_of_mem_head? (Option.mem_def.mpr (hq.rep.read ▸ he))
    have hnd := hs₀.nodup.of_append_left
    exact (List.nodup_append.mp hnd).2.2 i hi i (List.mem_append_left _ hm) rfl
  have hlen := hs₀.length_le
  simp only [List.length_append] at hlen
  have hf : q.old.length < h.fresh + 1 := by omega
  obtain ⟨h₁, hrel₁, hs₁, hg₁, hb₁⟩ := hs₀.releaseTo hseg hstop hf ho hv
  have hk₁ : Keeps h h₁ (q.front ++ q.back ++ q.spare ++ U) K P :=
    hg₁.keeps (hs₀.sublist (by simp) (ho.right.viewed.append hv)) hb₁
  have hbare : ∀ k ∈ q.front ++ q.back ++ q.spare ++ U, (h.nodes k).Like (h₁.nodes k) := fun k hk =>
    .of_bare (hk₁.node k hk)
  have hlike : ∀ k ∈ q.front ++ q.back ++ q.spare, (h.nodes k).Like (h₁.nodes k) := fun k hk =>
    hbare k (List.mem_append_left _ hk)
  have ho₁ : Owned h₁ (q.spare ++ []) := by
    rw [List.append_nil]
    exact (ho.right.like hg₁.lent hlike).right
  have hof : Owned h (q.front ++ q.back) := by
    have := hq.owned
    rw [List.append_assoc] at this
    exact this.right
  have hv₁ : Viewed h₁ (q.front ++ q.back ++ U) := by
    refine (hof.viewed.append hv).like hg₁.lent fun k hk => hbare k ?_
    simp only [List.mem_append] at hk ⊢
    tauto
  have hs₁' : Safe h₁ (q.spare ++ [] ++ (q.front ++ q.back ++ U)) K P :=
    hs₁.perm (List.perm_iff_count.mpr fun a => by
      simp only [List.count_append, List.count_nil]
      omega)
  have hnext : ∀ k ∈ q.front ++ q.back ++ q.spare, (h₁.nodes k).next = (h.nodes k).next :=
    fun k hk => by
    have := congrArg Node.next (hk₁.node k (List.mem_append_left _ hk))
    exact this
  have hseg₁ : Chain.Seg (fun k => (h₁.nodes k).next) (h₁.nodes j).next q.spare none := by
    have hrep : Rep h buf q.old q.front (L ++ [j]) q.spare := hback ▸ hq.rep
    obtain ⟨c, -, hc⟩ := Chain.seg_append.mp hrep.seg
    rw [hnext j (by simp [hback]), hrep.next_write, ← hc.head]
    exact hc.congr fun k hk => hnext k (by simp [hk])
  have hf₁ : q.spare.length < h₁.fresh + 1 := by
    rw [hg₁.fresh]
    omega
  obtain ⟨h', hrel₂, hs₂, hg₂, hb₂⟩ := hs₁'.releaseTo hseg₁ (by simp) hf₁ ho₁ hv₁
  have hk₂ : Keeps h₁ h' (q.front ++ q.back ++ U) K P :=
    hg₂.keeps (hs₁'.sublist (List.sublist_append_right _ _) hv₁) hb₂
  refine ⟨h₁, h', hrel₁, hrel₂, by simpa using hs₂, (hk₁.mono (fun k hk => ?_) (fun _ hq => hq)
    fun _ hx => hx).trans hk₂, hg₂.mem.trans hg₁.mem⟩
  simp only [List.mem_append] at hk ⊢
  tauto

theorem append_seg {A B : List Nat} {a c d e : Option Nat}
    (hA : Chain.Seg (fun k => (h.nodes k).next) a (A ++ [w]) c)
    (hB : Chain.Seg (fun k => (h.nodes k).next) d (B ++ [j]) e)
    (hnd : (A ++ [w] ++ (B ++ [j])).Nodup)
    (hn : ∀ k ∈ A ++ [w] ++ (B ++ [j]), (h'.nodes k).next =
      if k = w then d else if k = j then none else (h.nodes k).next) :
    Chain.Seg (fun k => (h'.nodes k).next) a (A ++ [w] ++ (B ++ [j])) none := by
  have hAw := (List.nodup_append.mp hnd).1
  have hBj := (List.nodup_append.mp hnd).2.1
  have hdis := (List.nodup_append.mp hnd).2.2
  have hw : w ∉ A := fun hm => (List.nodup_append.mp hAw).2.2 w hm w (by simp) rfl
  have hj : j ∉ B := fun hm => (List.nodup_append.mp hBj).2.2 j hm j (by simp) rfl
  have hend : Chain.Seg (fun k => (h.nodes k).next) none [] none := Chain.seg_nil.mpr rfl
  have hB' := hB.set_next hj hend (by simp)
  rw [List.append_nil] at hB'
  have hA' := hA.update (v := none) fun hm => hdis j hm j (by simp) rfl
  have hall := hA'.set_next hw hB' fun hm => hdis w (by simp) w hm rfl
  refine hall.congr fun k hk => ?_
  rw [hn k hk]
  by_cases hkw : k = w <;> by_cases hkj : k = j <;> simp [hkw, hkj, Function.update_apply]

structure Joined (h h' : Heap) (b buf : LinkBuffer) (p q : Parts) : Prop where
  left : Buffer h b p
  right : Buffer h buf q
  back : p.back ≠ []
  qback : q.back ≠ []
  lent : ∀ x, h.owner x = .lent → h'.owner x = .lent
  nodup : (p.old ++ p.front ++ (p.back ++ (q.front ++ q.back))).Nodup
  relinked : ∀ k ∈ p.old ++ p.front ++ (p.back ++ (q.front ++ q.back)), Relinked h h' k
  next : ∀ k ∈ p.old ++ p.front ++ (p.back ++ (q.front ++ q.back)), (h'.nodes k).next =
    if some k = b.write then buf.read else if some k = buf.write then none else (h.nodes k).next

namespace Joined

theorem mem (_ : Joined h h' b buf p q)
    (hk : k ∈ p.old ++ p.front ++ (p.back ++ (q.front ++ q.back))) :
    k ∈ p.all ∨ k ∈ q.all := by
  simp only [Parts.all, List.mem_append] at hk ⊢
  tauto

theorem relinked_back (hj : Joined h h' b buf p q) (hk : k ∈ p.back ++ (q.front ++ q.back)) :
    Relinked h h' k :=
  hj.relinked k (List.mem_append_right _ hk)

theorem owned (hj : Joined h h' b buf p q) :
    Owned h' (p.old ++ p.front ++ (p.back ++ (q.front ++ q.back))) := by
  have hoq : Owned h (q.front ++ q.back) := by
    have := hj.right.owned
    rw [List.append_assoc] at this
    exact this.right
  rw [← List.append_assoc (p.old ++ p.front)]
  refine (hj.left.owned.append hoq).like hj.lent fun k hk => (hj.relinked k ?_).like
  rwa [← List.append_assoc (p.old ++ p.front)]

theorem seg (hj : Joined h h' b buf p q) :
    Chain.Seg (fun k => (h'.nodes k).next) b.head
      (p.old ++ p.front ++ (p.back ++ (q.front ++ q.back))) none := by
  obtain ⟨M, w, hM⟩ := exists_last hj.back
  obtain ⟨L, j, hL⟩ := exists_last hj.qback
  have hw : b.write = some w := by rw [hj.left.rep.write, hM]; simp
  have hjw : buf.write = some j := by rw [hj.right.rep.write, hL]; simp
  have e : p.old ++ p.front ++ (p.back ++ (q.front ++ q.back)) =
      p.old ++ p.front ++ M ++ [w] ++ (q.front ++ L ++ [j]) := by simp [hM, hL]
  obtain ⟨c, hA, -⟩ := Chain.seg_append.mp hj.left.rep.seg
  obtain ⟨d, hB, -⟩ := Chain.seg_append.mp hj.right.rep.seg_old.2
  rw [hM, ← List.append_assoc] at hA
  rw [hL, ← List.append_assoc] at hB
  rw [e]
  refine append_seg hA hB (e ▸ hj.nodup) fun k hk => ?_
  rw [hj.next k (e ▸ hk), hw, hjw]
  simp only [Option.some.injEq]

theorem rep (hj : Joined h h' b buf p q) (len ms : Int) :
    Rep h' { b with write := buf.write, length := len, mallocSize := ms } p.old p.front
      (p.back ++ (q.front ++ q.back)) [] where
  seg := by simpa using hj.seg
  read := by
    refine hj.left.rep.read.trans ?_
    rw [← List.append_assoc p.front,
      List.head?_append_of_ne_nil (p.front ++ p.back) (by simp [hj.back])]
  flush := by
    refine hj.left.rep.flush.trans ?_
    rw [List.head?_append_of_ne_nil _ hj.back]
  write := by
    refine hj.right.rep.write.trans ?_
    rw [List.getLast?_append_of_ne_nil _ (by simp [hj.qback]),
      List.getLast?_append_of_ne_nil _ hj.qback]
  fit k hk := by
    rw [List.append_nil] at hk
    refine (hj.relinked k hk).fit ?_
    rcases hj.mem hk with hk | hk
    · exact hj.left.rep.fit k hk
    · exact hj.right.rep.fit k hk
  submitted k hk := by
    rw [(hj.relinked k (by simp [hk])).pending]
    exact hj.left.rep.submitted k hk
  spare := by simp
  reader := by simp

theorem unflushed (hj : Joined h h' b buf p q) :
    h'.unflushed (p.back ++ (q.front ++ q.back)) = h.unflushed p.back ++ h.unflushed q.back := by
  rw [Heap.unflushed_congr fun k hk => (hj.relinked_back hk).pending, Heap.unflushed_append,
    hj.right.rep.unflushed_live]

theorem content (hj : Joined h h' b buf p q) :
    h'.content (p.front ++ (p.back ++ (q.front ++ q.back))) = h.content p.live ++
    h.content q.live := by
  have hready : ∀ k ∈ p.front ++ (p.back ++ (q.front ++ q.back)), h'.ready k = h.ready k :=
    fun k hk =>
    (hj.relinked k (by simp only [List.mem_append] at hk ⊢; tauto)).ready
  rw [Heap.content_congr hready, ← List.append_assoc, Heap.content_append, Parts.live, Parts.live]

theorem content_early (hj : Joined h h' b buf p q) :
    h'.content (p.front ++ (p.back ++ (q.front ++ q.back)).take 1) = h.content p.early := by
  rw [Parts.early, List.take_append_of_le_length (List.length_pos_iff.mpr hj.back)]
  refine Heap.content_congr fun k hk => (hj.relinked k ?_).ready
  have := fun hk : k ∈ p.back.take 1 => List.mem_of_mem_take hk
  simp only [List.mem_append] at hk ⊢
  tauto

theorem later (hj : Joined h h' b buf p q) :
    h'.later (p.back ++ (q.front ++ q.back)) = h.later p.back ++
    (h.content q.early ++ h.later q.back) := by
  rw [Heap.later_congr (h := h) (fun k hk => (hj.relinked_back (List.mem_of_mem_tail hk)).ready)
    fun k hk =>
    (hj.relinked_back hk).pending, Heap.later_append hj.back, hj.right.rep.whole_live hj.qback]
  rfl

theorem buffer (hj : Joined h h' b buf p q) :
    Buffer h' { b with
      write := buf.write, length := b.length + buf.length,
      mallocSize := b.mallocSize +
      buf.mallocSize } ⟨p.old, p.front, p.back ++ (q.front ++ q.back), []⟩ where
  rep := hj.rep _ _
  length := by
    rw [Parts.live, hj.content, List.length_append, hj.left.length, hj.right.length]
    simp
  malloc := by
    rw [Parts.live, (hj.rep 0 0).unflushed_live, hj.unflushed, List.length_append, hj.left.malloc,
      hj.right.malloc, Parts.live, Parts.live, hj.left.rep.unflushed_live,
      hj.right.rep.unflushed_live]
    simp
  owned := hj.owned
  owned_all := by
    rw [Parts.all, List.append_nil]
    exact hj.owned
  peek := hj.left.peek
  plain := by
    intro _ k hk
    rw [Parts.all, List.append_nil] at hk
    rw [(hj.relinked k hk).like.origin]
    rcases hj.mem hk with hk | hk
    · exact hj.left.plain hj.back k hk
    · exact hj.right.plain hj.qback k hk

end Joined

theorem writeBuffer_spec (hb : Buffer h b p) (hq : Buffer h buf q)
    (hs : Safe h (p.all ++ q.all ++ U) (b.kept ++ buf.kept ++ K) P) (hv : Viewed h U)
    (hback : p.back ≠ []) (hqb : q.back ≠ []) (hpos : 0 < buf.length + buf.mallocSize) :
    ∃ b' buf' h' p', b.writeBuffer buf h = some (b', buf', h') ∧
      AppendPost h h' b b' buf buf' p q p' U K P := by
  obtain ⟨M, w, hM⟩ := exists_last hback
  obtain ⟨L, j, hL⟩ := exists_last hqb
  have hw : w ∈ p.all := Parts.mem_all_of_back (by simp [hM])
  have hj : j ∈ q.all := Parts.mem_all_of_back (by simp [hL])
  have hwrite : b.write = some w := by rw [hb.rep.write, hM]; simp
  have hwritej : buf.write = some j := by rw [hq.rep.write, hL]; simp
  have hnd := hs.nodup
  have hdis : ∀ k ∈ p.all, k ∉ q.all := fun k hk hk' =>
    (List.nodup_append.mp hnd.of_append_left).2.2 k hk k hk' rfl
  have hU : ∀ k ∈ U, k ∉ p.all ++ q.all :=
    fun k hk hk' => (List.nodup_append.mp hnd).2.2 k hk' k hk rfl
  have hs₁ : Safe (h.link w buf.read) (q.all ++ (p.all ++ U)) (b.kept ++ buf.kept ++ K) P :=
    (hs.link (by simp [hw])).perm (List.perm_iff_count.mpr fun a => by
      simp only [List.count_append]
      omega)
  have hq₁ : Buffer (h.link w buf.read) buf q := hq.of_bare (fun _ => id) fun k hk => by
    have hkw : k ≠ w := by
      rintro rfl
      exact hdis k hw hk
    simp [Heap.link, hkw]
  have hv₁ : Viewed (h.link w buf.read) (p.all ++ U) :=
    (hb.owned_all.viewed.append hv).like (fun _ => id) fun k _ => Relinked.link.like
  obtain ⟨h₂, h₃, hrel₁, hrel₂, hs₃, hk₃, hmem⟩ := append_release hq₁ hs₁ hv₁ hL
  have hnode : ∀ k ∈ q.front ++ q.back ++ (p.all ++ U), Relinked h (h₃.link j none) k := fun k hk =>
    (Relinked.link.trans (.of_bare (hk₃.node k hk))).trans .link
  have hlent : ∀ x, h.owner x = .lent → (h₃.link j none).owner x = .lent := hk₃.later.lent
  have hperm : (q.front ++ q.back ++ (p.all ++ U)).Perm
      (p.spare ++ (p.old ++ p.front ++ (p.back ++ (q.front ++ q.back)) ++ U)) :=
    List.perm_iff_count.mpr fun a => by
      simp only [Parts.all, List.count_append]
      omega
  have hsub : ∀ k ∈ p.old ++ p.front ++ (p.back ++ (q.front ++ q.back)),
      k ∈ q.front ++ q.back ++ (p.all ++ U) := fun k hk =>
    hperm.mem_iff.mpr (List.mem_append_right _ (List.mem_append_left _ hk))
  have hjoin : Joined h (h₃.link j none) b buf p q := by
    refine ⟨hb, hq, hback, hqb, hlent, ?_, fun k hk => hnode k (hsub k hk), fun k hk => ?_⟩
    · exact ((hperm.nodup_iff.mp hs₃.nodup).of_append_right).of_append_left
    · have hwj : w ≠ j := by
        rintro rfl
        exact hdis w hw hj
      have hn := congrArg Node.next (hk₃.node k (hsub k hk))
      simp only [Node.bare] at hn
      simp only [hwrite, hwritej, Option.some.injEq]
      by_cases hkj : k = j
      · subst hkj
        simp [Heap.link, Ne.symm hwj]
      · have : ((h₃.link j none).nodes k).next = (h₃.nodes k).next := by simp [Heap.link, hkj]
        rw [this, hn]
        by_cases hkw : k = w
        · subst hkw
          simp [Heap.link]
        · simp [Heap.link, hkw, hkj]
  have hvU : Viewed (h₃.link j none) U := hv.like hlent fun k hk => (hnode k (by simp [hk])).like
  have hs' : Safe (h₃.link j none) (p.old ++ p.front ++ (p.back ++ (q.front ++ q.back)) ++ U)
      (b.kept ++ buf.kept ++ K) P :=
    ((hs₃.link (by simp [hL])).perm hperm).sublist (List.sublist_append_right _ _)
      (hjoin.owned.viewed.append hvU)
  have hlen : 0 ≤ buf.length := by
    rw [hq.length]
    exact Int.natCast_nonneg _
  have hb' : b.writeBuffer buf h = some ({ b with
      write := buf.write, length := b.length + buf.length,
        mallocSize := b.mallocSize + buf.mallocSize },
      { caches := buf.caches, cachePeek := buf.cachePeek }, h₃.link j none) := by
    have hne : ¬ buf.length + buf.mallocSize ≤ 0 := by omega
    have hneg : ¬ buf.length < 0 := by omega
    simp only [LinkBuffer.writeBuffer, if_neg hne, hwrite, hwritej, hrel₁, hrel₂,
      Option.bind_eq_bind, Option.bind_some, Option.pure_def, LinkBuffer.recalLen, if_neg hneg]
    by_cases h0 : 0 < buf.length
    · simp only [if_pos h0]
    · have : buf.length = 0 := by omega
      simp only [this, Int.lt_irrefl, if_false, Int.add_zero]
  refine ⟨_, _, _, ⟨p.old, p.front, p.back ++ (q.front ++ q.back), []⟩, hb',
    ⟨hjoin.buffer, rfl, ?_, ?_, rfl, hmem, hjoin.content_early, hjoin.later, hjoin.unflushed, rfl,
      fun k hk => ?_⟩⟩
  · rw [Parts.all, List.append_nil]
    exact hs'
  · have hwU : w ∉ U := fun hm => hU w hm (List.mem_append_left _ hw)
    have hjU : j ∉ U := fun hm => hU j hm (List.mem_append_right _ hj)
    exact (Keeps.link hwU).trans ((hk₃.mono (fun k hk => by simp [hk]) (fun _ hq => by simp [hq])
      fun _ hx => hx).trans (.link hjU))
  · rw [Parts.all, List.append_nil] at hk
    exact ⟨hjoin.mem hk, hjoin.relinked k hk⟩

end Netpoll.Nocopy
