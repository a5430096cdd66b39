import Netpoll.Nocopy.PeekCache
import Netpoll.Nocopy.ZcReader

namespace Netpoll.Nocopy

open Netpoll.Lib Netpoll.Lib.Memory LinkBuffer

variable {h h' h'' : Heap} {b b' : LinkBuffer} {p : Parts} {U V : List Nat} {K K' : List Slice}
  {P : Nat → Prop} {i j k n m fuel : Nat} {s q : Slice} {x : Addr} {cfg : Config}
  {read : Option Nat}

structure Frame (h h' : Heap) : Prop where
  fresh : h.fresh ≤ h'.fresh
  pool : ∀ k ∈ h'.linkedPool, k < h.fresh → k ∈ h.linkedPool
  kin : ∀ k < h.fresh, k ∉ h.linkedPool → (h.nodes k).Kin (h'.nodes k)

namespace Frame

theorem refl : Frame h h := ⟨le_rfl, fun _ hk _ => hk, fun _ _ _ => (Node.Like.refl _).kin⟩

theorem trans (h₁ : Frame h h') (h₂ : Frame h' h'') : Frame h h'' where
  fresh := h₁.fresh.trans h₂.fresh
  pool k hk hlt := h₁.pool k (h₂.pool k hk (hlt.trans_le h₁.fresh)) hlt
  kin k hlt hk := (h₁.kin k hlt hk).trans
    (h₂.kin k (hlt.trans_le h₁.fresh) fun hm => hk (h₁.pool k hm hlt))

theorem of_nodes (hn : h'.nodes = h.nodes) (hf : h'.fresh = h.fresh)
    (hp : h'.linkedPool = h.linkedPool) :
    Frame h h' :=
  ⟨hf.ge, fun k hk _ => hp ▸ hk, fun k _ _ => by rw [hn]; exact (Node.Like.refl _).kin⟩

theorem set {node : Node} (hk : (h.nodes i).Kin node) : Frame h (h.set i node) := by
  refine ⟨le_rfl, fun _ hk _ => hk, fun k _ _ => ?_⟩
  by_cases hki : k = i
  · subst hki
    simpa using hk
  · rw [Heap.set_nodes, Function.update_of_ne hki]
    exact (Node.Like.refl _).kin

theorem link {next : Option Nat} : Frame h (h.link i next) := .set (Node.Like.next _).kin

theorem mark : Frame h (h.mark i) := .set ⟨rfl, rfl, rfl, rfl, fun _ => rfl, rfl⟩

theorem dirtmake : Frame h (h.dirtmake n m).2 := .of_nodes rfl rfl rfl

theorem malloc : Frame h (h.malloc n m).2 := by
  simp only [Heap.malloc]
  split
  · exact .dirtmake
  · exact .of_nodes rfl rfl rfl

theorem copy {bs : List UInt8} : Frame h (h.copy s bs) := .of_nodes rfl rfl rfl

theorem nodeNext (hr : h.nodeNext i n = some (s, h')) : Frame h h' := by
  obtain ⟨p, -, hr⟩ := Option.bind_eq_some_iff.mp hr
  cases hr
  exact .set ⟨rfl, rfl, rfl, rfl, id, rfl⟩

theorem append {bs : List UInt8} : Frame h (h.append s bs).2 := by
  simp only [Heap.append]
  split
  · exact .of_nodes rfl rfl rfl
  · exact .of_nodes rfl rfl rfl

theorem free (hr : h.free s = some h') : Frame h h' := by
  simp only [Heap.free] at hr
  split_ifs at hr
  · cases hr
    exact .of_nodes rfl rfl rfl
  · cases hr
    exact .of_nodes rfl rfl rfl
  · cases hr
    exact .of_nodes rfl rfl rfl

theorem sound (hf : Frame h h') (hs : Safe h U K P) (hk : k ∈ U)
    (hl : ∀ x, h.owner x = .lent → h'.owner x = .lent) (hsd : Sound h k) : Sound h' k := by
  have hkin : ∀ r, 0 < refs h U r → (h.nodes r).Kin (h'.nodes r) := fun r hr =>
    hf.kin r (hs.counted.lt r hr) (hs.counted.unpooled r hr)
  intro r hr
  rw [(hkin k (refs_pos_of_mem hk)).origin] at hr
  have hr' := hkin r (refs_pos_of_origin hk hr)
  rw [hr'.readonly, hr'.blk]
  exact (hsd r hr).imp_right (hl _)

end Frame

theorem gather_frame {dst : Slice} {ack : Nat} {r : Option Nat}
    (hr : gather fuel h read dst ack = some (r, h')) : Frame h h' := by
  induction fuel generalizing h read dst ack with
  | zero => cases hr
  | succ fuel ih =>
    simp only [gather, Option.bind_eq_bind] at hr
    split_ifs at hr
    · cases hr
      exact .refl
    · obtain ⟨i, -, hr⟩ := Option.bind_eq_some_iff.mp hr
      split_ifs at hr
      · obtain ⟨⟨q, h₁⟩, hn, hr⟩ := Option.bind_eq_some_iff.mp hr
        cases hr
        exact (Frame.nodeNext hn).trans .copy
      · obtain ⟨⟨q, h₁⟩, hn, hr⟩ := Option.bind_eq_some_iff.mp hr
        obtain ⟨d, -, hr⟩ := Option.bind_eq_some_iff.mp hr
        exact ((Frame.nodeNext hn).trans .copy).trans (ih hr)
      · exact ih hr

theorem takeNext_frame (hr : b.takeNext h n = some (s, b', h')) : Frame h h' := by
  simp only [takeNext, Option.bind_eq_bind] at hr
  obtain ⟨⟨single, b₁⟩, -, hr⟩ := Option.bind_eq_some_iff.mp hr
  split_ifs at hr
  · obtain ⟨i, -, hr⟩ := Option.bind_eq_some_iff.mp hr
    obtain ⟨⟨q, h₁⟩, hn, hr⟩ := Option.bind_eq_some_iff.mp hr
    cases hr
    exact .nodeNext hn
  · obtain ⟨⟨r, h₁⟩, hg, hr⟩ := Option.bind_eq_some_iff.mp hr
    cases hr
    exact Frame.malloc.trans (gather_frame hg)
  · obtain ⟨⟨r, h₁⟩, hg, hr⟩ := Option.bind_eq_some_iff.mp hr
    cases hr
    exact Frame.dirtmake.trans (gather_frame hg)

theorem readBinaryN_frame (hr : b.readBinaryN h cfg n = some (s, b', h')) : Frame h h' := by
  simp only [readBinaryN, Option.bind_eq_bind] at hr
  obtain ⟨⟨single, b₁⟩, -, hr⟩ := Option.bind_eq_some_iff.mp hr
  split_ifs at hr
  · obtain ⟨i, -, hr⟩ := Option.bind_eq_some_iff.mp hr
    split_ifs at hr
    all_goals
      obtain ⟨⟨q, h₁⟩, hn, hr⟩ := Option.bind_eq_some_iff.mp hr
      cases hr
    · exact .nodeNext hn
    · exact Frame.mark.trans (.nodeNext hn)
    · exact (Frame.dirtmake.trans (.nodeNext hn)).trans .copy
  · obtain ⟨⟨r, h₁⟩, hg, hr⟩ := Option.bind_eq_some_iff.mp hr
    cases hr
    exact Frame.dirtmake.trans (gather_frame hg)

theorem peekLoop_frame {scanned : Nat} (hr : peekLoop n fuel h scanned read s = some (q, h')) :
    Frame h h' := by
  induction fuel generalizing h scanned read s with
  | zero => cases hr
  | succ fuel ih =>
    simp only [peekLoop, Option.bind_eq_bind] at hr
    split_ifs at hr
    · cases hr
      exact .refl
    · obtain ⟨i, -, hr⟩ := Option.bind_eq_some_iff.mp hr
      split_ifs at hr
      · exact ih hr
      · obtain ⟨v, -, hr⟩ := Option.bind_eq_some_iff.mp hr
        obtain ⟨v, -, hr⟩ := Option.bind_eq_some_iff.mp hr
        exact Frame.append.trans (ih hr)

theorem takePeek_frame (hr : b.takePeek h n = some (s, b', h')) : Frame h h' := by
  simp only [takePeek, Option.bind_eq_bind] at hr
  obtain ⟨⟨single, b₁⟩, -, hr⟩ := Option.bind_eq_some_iff.mp hr
  split_ifs at hr
  · obtain ⟨i, -, hr⟩ := Option.bind_eq_some_iff.mp hr
    obtain ⟨q, -, hr⟩ := Option.bind_eq_some_iff.mp hr
    cases hr
    exact .refl
  · obtain ⟨⟨q, h₁⟩, hc, hr⟩ := Option.bind_eq_some_iff.mp hr
    obtain ⟨⟨q₁, h₂⟩, hl, hr⟩ := Option.bind_eq_some_iff.mp hr
    obtain ⟨q₂, -, hr⟩ := Option.bind_eq_some_iff.mp hr
    cases hr
    refine Frame.trans ?_ (peekLoop_frame hl)
    simp only [peekCache] at hc
    split at hc
    · split_ifs at hc
      · obtain ⟨h₃, hf, hc⟩ := Option.bind_eq_some_iff.mp hc
        rw [← congrArg Prod.snd (Option.some.inj hc)]
        exact (Frame.free hf).trans .malloc
      · cases hc
        exact .refl
    · rw [← congrArg Prod.snd (Option.some.inj hc)]
      exact .malloc

theorem skipLoop_frame {ack : Nat} {r : Option Nat} (hr : skipLoop fuel h read ack = some (r, h')) :
    Frame h h' := by
  induction fuel generalizing read ack with
  | zero => cases hr
  | succ fuel ih =>
    simp only [skipLoop, Option.bind_eq_bind] at hr
    split_ifs at hr
    · cases hr
      exact .refl
    · obtain ⟨i, -, hr⟩ := Option.bind_eq_some_iff.mp hr
      split_ifs at hr
      · cases hr
        exact .set ⟨rfl, rfl, rfl, rfl, id, rfl⟩
      · exact ih hr

theorem readByteLoop_frame {r : Option Nat} (hr : readByteLoop h fuel read = some (s, r, h')) :
    Frame h h' := by
  induction fuel generalizing read with
  | zero => cases hr
  | succ fuel ih =>
    simp only [readByteLoop, Option.bind_eq_bind] at hr
    obtain ⟨i, -, hr⟩ := Option.bind_eq_some_iff.mp hr
    split_ifs at hr
    · obtain ⟨⟨q, h₁⟩, hn, hr⟩ := Option.bind_eq_some_iff.mp hr
      cases hr
      exact .nodeNext hn
    · exact ih hr

theorem Frame.set_new {node : Node} (hf : Frame h h') (hj : j ∈ h.linkedPool ∨ h.fresh ≤ j) :
    Frame h (h'.set j node) := by
  refine ⟨hf.fresh, hf.pool, fun k hlt hk => ?_⟩
  have hkj : k ≠ j := by
    rintro rfl
    exact hj.elim hk fun hle => absurd hlt (by omega)
  rw [Heap.set_nodes, Function.update_of_ne hkj]
  exact hf.kin k hlt hk

theorem newLinkBufferNode_frame {size : Int} (hr : h.newLinkBufferNode cfg size = (j, h')) :
    Frame h h' ∧ (j ∈ h.linkedPool ∨ h.fresh ≤ j) := by
  have hget : Frame h h.poolGet.2 ∧ (h.poolGet.1 ∈ h.linkedPool ∨ h.fresh ≤ h.poolGet.1) := by
    simp only [Heap.poolGet]
    split
    · next i hi =>
      exact ⟨⟨le_rfl, fun k hk _ => List.mem_of_mem_eraseIdx hk,
        fun _ _ _ => (Node.Like.refl _).kin⟩, .inl (List.mem_of_getElem? hi)⟩
    · refine ⟨⟨Nat.le_succ _, fun k hk _ => hk, fun k hk _ => ?_⟩, .inr le_rfl⟩
      have hne : k ≠ h.pick.2.fresh := Nat.ne_of_lt hk
      rw [Heap.set_nodes, Function.update_of_ne hne]
      exact (Node.Like.refl _).kin
  simp only [Heap.newLinkBufferNode] at hr
  split at hr
  · cases hr
    exact ⟨hget.1.set_new hget.2, hget.2⟩
  · cases hr
    exact ⟨(hget.1.trans .malloc).set_new hget.2, hget.2⟩

theorem nodeRefer_frame (hr : h.nodeRefer cfg i n = some (j, h')) : Frame h h' := by
  simp only [Heap.nodeRefer, Option.bind_eq_bind] at hr
  obtain ⟨⟨s, h₁⟩, hn, hr⟩ := Option.bind_eq_some_iff.mp hr
  cases hr
  obtain ⟨hf, hj⟩ := newLinkBufferNode_frame (rfl : h.newLinkBufferNode cfg 0 = _)
  exact ((hf.trans (.nodeNext hn)).set_new hj).trans (.set ⟨rfl, rfl, rfl, rfl, id, rfl⟩)

theorem sliceLoop_frame {tail tail' ack : Nat} {r : Option Nat}
    (hr : sliceLoop cfg fuel h read tail ack = some (r, tail', h')) : Frame h h' := by
  induction fuel generalizing h read tail ack with
  | zero => cases hr
  | succ fuel ih =>
    simp only [sliceLoop, Option.bind_eq_bind] at hr
    split_ifs at hr
    · cases hr
      exact .refl
    · obtain ⟨i, -, hr⟩ := Option.bind_eq_some_iff.mp hr
      split_ifs at hr
      · obtain ⟨⟨j, h₁⟩, hn, hr⟩ := Option.bind_eq_some_iff.mp hr
        cases hr
        exact (nodeRefer_frame hn).trans .link
      · obtain ⟨⟨j, h₁⟩, hn, hr⟩ := Option.bind_eq_some_iff.mp hr
        exact ((nodeRefer_frame hn).trans .link).trans (ih hr)
      · exact ih hr

structure Drops (h h' : Heap) : Prop where
  pool : ∀ k ∈ h.linkedPool, k ∈ h'.linkedPool
  kin : ∀ k, k ∉ h'.linkedPool → (h.nodes k).Kin (h'.nodes k)

namespace Drops

theorem of_nodes (hn : h'.nodes = h.nodes) (hp : h'.linkedPool = h.linkedPool) : Drops h h' :=
  ⟨fun k hk => hp ▸ hk, fun k _ => by rw [hn]; exact (Node.Like.refl _).kin⟩

theorem trans (h₁ : Drops h h') (h₂ : Drops h' h'') : Drops h h'' :=
  ⟨fun k hk => h₂.pool k (h₁.pool k hk),
    fun k hk => (h₁.kin k fun hm => hk (h₂.pool k hm)).trans (h₂.kin k hk)⟩

theorem free (hr : h.free s = some h') : Drops h h' := by
  simp only [Heap.free] at hr
  split_ifs at hr
  · cases hr
    exact .of_nodes rfl rfl
  · cases hr
    exact .of_nodes rfl rfl
  · cases hr
    exact .of_nodes rfl rfl

theorem set {node : Node} (hk : (h.nodes i).Kin node) : Drops h (h.set i node) := by
  refine ⟨fun _ hk => hk, fun k _ => ?_⟩
  by_cases hki : k = i
  · subst hki
    simpa using hk
  · rw [Heap.set_nodes, Function.update_of_ne hki]
    exact (Node.Like.refl _).kin

theorem put {node : Node} : Drops h (h.put i node) := by
  refine ⟨fun k hk => List.mem_cons_of_mem _ hk, fun k hk => ?_⟩
  have hki : k ≠ i := by
    rintro rfl
    exact hk (by simp [Heap.put])
  simp only [Heap.put, Heap.set_nodes, Function.update_of_ne hki]
  exact (Node.Like.refl _).kin

theorem drop (hr : h.drop i = some h') : Drops h h' := by
  have hset : Drops h (h.set i (h.nodes i).unref) := .set ⟨rfl, rfl, rfl, rfl, id, rfl⟩
  simp only [Heap.drop] at hr
  split_ifs at hr
  · obtain ⟨h₁, hf, rfl⟩ := Option.map_eq_some_iff.mp hr
    exact (hset.trans (free hf)).trans put
  · obtain ⟨h₁, hf, rfl⟩ := Option.map_eq_some_iff.mp hr
    cases hf
    exact hset.trans put
  · cases hr
    exact hset

theorem nodeRelease {depth : Nat} (hr : Heap.nodeRelease depth h i = some h') : Drops h h' := by
  induction depth generalizing h h' i with
  | zero => cases hr
  | succ depth ih =>
    simp only [Heap.nodeRelease] at hr
    split at hr
    · exact drop hr
    · obtain ⟨h₁, h1, h2⟩ := Option.bind_eq_some_iff.mp hr
      exact (ih h1).trans (drop h2)

theorem releaseTo {stop head : Option Nat} (hr : Heap.releaseTo fuel h stop head = some h') :
    Drops h h' := by
  induction fuel generalizing h head with
  | zero => cases hr
  | succ fuel ih =>
    simp only [Heap.releaseTo, Option.bind_eq_bind] at hr
    split_ifs at hr
    · cases hr
      exact .of_nodes rfl rfl
    · obtain ⟨i, -, hr⟩ := Option.bind_eq_some_iff.mp hr
      obtain ⟨h₁, h1, h2⟩ := Option.bind_eq_some_iff.mp hr
      exact (nodeRelease h1).trans (ih h2)

theorem freeAll {ss : List Slice} (hr : h.freeAll ss = some h') : Drops h h' := by
  induction ss generalizing h with
  | nil =>
    cases hr
    exact .of_nodes rfl rfl
  | cons s ss ih =>
    obtain ⟨h₁, h1, h2⟩ := Option.bind_eq_some_iff.mp hr
    exact (free h1).trans (ih h2)

theorem release (hr : b.release h = some (b', h')) : Drops h h' := by
  simp only [LinkBuffer.release, Option.bind_eq_bind] at hr
  obtain ⟨r, -, hr⟩ := Option.bind_eq_some_iff.mp hr
  obtain ⟨h₁, h1, hr⟩ := Option.bind_eq_some_iff.mp hr
  obtain ⟨h₂, h2, hr⟩ := Option.bind_eq_some_iff.mp hr
  obtain ⟨h₃, h3, hr⟩ := Option.bind_eq_some_iff.mp hr
  cases hr
  exact ((releaseTo h1).trans (freeAll h2)).trans (freeAll h3)

end Drops

theorem takeSlice_frame {rd : LinkBuffer} (hr : b.takeSlice h cfg n = some (rd, b', h')) :
    ∃ h₁, Frame h h₁ ∧ Drops h₁ h' := by
  simp only [takeSlice, Option.bind_eq_bind] at hr
  obtain ⟨⟨single, b₁⟩, -, hr⟩ := Option.bind_eq_some_iff.mp hr
  obtain ⟨i, -, hr⟩ := Option.bind_eq_some_iff.mp hr
  split_ifs at hr
  · obtain ⟨⟨j, h₁⟩, hn, hr⟩ := Option.bind_eq_some_iff.mp hr
    cases hr
    exact ⟨_, nodeRefer_frame hn, .of_nodes rfl rfl⟩
  · obtain ⟨⟨j, h₁⟩, hn, hr⟩ := Option.bind_eq_some_iff.mp hr
    obtain ⟨⟨r, tail, h₂⟩, hl, hr⟩ := Option.bind_eq_some_iff.mp hr
    obtain ⟨⟨b₂, h₃⟩, hrel, hr⟩ := Option.bind_eq_some_iff.mp hr
    cases hr
    exact ⟨h₂, (nodeRefer_frame hn).trans (sliceLoop_frame hl), .release hrel⟩

theorem takeSlice_sound {rd : LinkBuffer} {K₁ : List Slice}
    (hr : b.takeSlice h cfg n = some (rd, b', h')) (hs : Safe h U K P) (hs' : Safe h' V K₁ P)
    (hl : ∀ x, h.owner x = .lent → h'.owner x = .lent) (hk : k ∈ U) (hk' : k ∈ V)
    (hsd : Sound h k) : Sound h' k := by
  obtain ⟨h₁, hf, hd⟩ := takeSlice_frame hr
  have hkin : ∀ r, 0 < refs h U r → 0 < refs h' V r → (h.nodes r).Kin (h'.nodes r) :=
    fun r hr hr' =>
    (hf.kin r (hs.counted.lt r hr) (hs.counted.unpooled r hr)).trans
    (hd.kin r (hs'.counted.unpooled r hr'))
  intro r hr
  have hr₀ := hr
  rw [(hkin k (refs_pos_of_mem hk) (refs_pos_of_mem hk')).origin] at hr₀
  have hrk := hkin r (refs_pos_of_origin hk hr₀) (refs_pos_of_origin hk' hr)
  rw [hrk.readonly, hrk.blk]
  exact (hsd r hr₀).imp_right (hl _)

theorem Safe.not_written (hs : Safe h (V ++ U) (K ++ K') P) (hi : i ∈ U) (hsd : Sound h i)
    (hf : (h.nodes i).Fit) (hx : x ∈ h.ready i ++ h.pending i) (hV : ∀ k ∈ V, (h.nodes k).Fit) :
    ¬ Written h V K x := by
  have hiU : i ∈ V ++ U := List.mem_append_right _ hi
  rintro (hl | ⟨⟨k, hk, ho, hkx⟩, hne⟩)
  · exact hs.not_loose hiU hsd hf hx (fun k hk => ⟨List.mem_append_left _ hk, hV k hk⟩)
      (fun q hq => List.mem_append_left _ hq) hl
  · have hkU : k ∈ V ++ U := List.mem_append_left _ hk
    have hik : i ≠ k := by
      rintro rfl
      exact (List.nodup_append.mp hs.nodup).2.2 i hk i hi rfl
    have hkx' := List.mem_append_right (h.ready k) hkx
    obtain ⟨hbi, hli, hhi, hci⟩ := hf.mem_bounds hx
    obtain ⟨hbk, hlk, hhk, hck⟩ := (hV k hk).mem_bounds hkx'
    cases hoi : (h.nodes i).origin with
    | none => exact hne (hs.lent_of_shared hiU hkU hik ⟨hoi, ho⟩ ⟨hf, hV k hk⟩ hx hkx')
    | some r =>
      have hsl := hs.sliced hiU hoi
      have h1 := hsl.fits
      have h2 := hsl.start
      have h3 := hsl.len
      have h4 := hsl.pos
      have hfl := hf.len
      have hmal := hf.malloc
      have hlow := (mem_cells.mp hkx).2.1
      have hro : (h.nodes r).readonly = false :=
        (hsd r hoi).resolve_right fun hl => hne (by rw [hbi, hsl.blk]; exact hl)
      have hblk : (h.nodes k).buf.blk = (h.nodes i).buf.blk := hbk.symm.trans hbi
      cases hrk : (h.nodes k).readonly with
      | false =>
        have hkr : k = r := hs.counted.distinct k r (refs_pos_of_mem hkU)
          (refs_pos_of_origin hiU hoi) ⟨ho, hrk, hck⟩ ⟨hsl.origin, hro, by omega⟩
          (hblk.trans hsl.blk)
        subst hkr
        omega
      | true =>
        have := hs.woven.clear k hkU i hiU r ⟨ho, hrk, hck⟩ hoi hro hblk
        have := (hV k hk).grown ho
        omega

theorem Safe.kept_not_written (hs : Safe h (V ++ U) (K ++ K') P) (hq : q ∈ K') (hx : x.1 = q.blk)
    (hV : ∀ k ∈ V, (h.nodes k).Fit) : ¬ Written h V K x := by
  have hqK : q ∈ K ++ K' := List.mem_append_right _ hq
  have hheld := Owner.held_ne (hs.counted.cache q hqK).2.2
  have hroot : ∀ k ∈ V ++ U, (h.nodes k).root → (h.nodes k).buf.blk ≠ q.blk := fun k hk hr =>
    hs.counted.apart k q hqK (refs_pos_of_mem hk) hr
  have hown : ∀ k ∈ V, (h.nodes k).origin = none → 0 < (h.nodes k).buf.cap →
    (h.nodes k).buf.blk ≠ q.blk :=
    fun k hk ho hcap he => by
      cases hro : (h.nodes k).readonly with
      | false => exact hroot k (List.mem_append_left _ hk) ⟨ho, hro, hcap⟩ he
      | true =>
        rcases hs.woven.viewed k (List.mem_append_left _ hk)
          ⟨ho, hro, hcap⟩ with hl | ⟨r, hr, hrr, hre⟩
        · exact hheld.2 (he ▸ hl)
        · exact hroot r hr hrr (hre.trans he)
  rintro ((hm | ⟨r, hr, he⟩ | ⟨k, hk, hr, he, -⟩) | ⟨⟨k, hk, ho, hkx⟩, -⟩)
  · exact hheld.1 (hx ▸ hm)
  · have hnd := hs.counted.cache_nodup
    rw [List.map_append, List.nodup_append] at hnd
    exact hnd.2.2 _ (List.mem_map_of_mem hr) _ (List.mem_map_of_mem hq) (he.trans hx)
  · exact hroot k (List.mem_append_left _ hk) hr (he.trans hx)
  · obtain ⟨he, -, -, hcap⟩ := (hV k hk).mem_bounds (List.mem_append_right _ hkx)
    exact hown k hk ho hcap (he.symm.trans hx)

end Netpoll.Nocopy
