import Netpoll.Nocopy.Regions

namespace Netpoll.Nocopy

open Netpoll.Lib Netpoll.Lib.Memory Netpoll.Lib.Transition

variable {w w' w₁ w₂ : World} {l l' : Layout} {P P' : Nat → Prop} {h h' : Heap} {b rd : LinkBuffer}
  {p q : Parts} {i j k n : Nat} {x : Addr} {s : Slice} {m : Int} {cfg : Config} {a : Act} {o : Out}
  {op : Op} {mem : Nat → Nat → UInt8} {picks : Nat → Nat}

/-- A call on the buffer `i` that neither cuts nodes nor empties them. -/
def Op.on (i : Nat) : Op → Bool
  | .act j a => j == i && !a.splits && !a.acks
  | _ => false

theorem Op.on_iff : op.on i ↔ ∃ a, op = .act i a ∧ a.splits = false ∧ a.acks = false := by
  cases op with
  | act j a =>
    simp only [Op.on, Bool.and_eq_true, beq_iff_eq, Bool.not_eq_true', Op.act.injEq]
    constructor
    · rintro ⟨⟨rfl, hs⟩, ha⟩
      exact ⟨a, ⟨rfl, rfl⟩, hs, ha⟩
    · rintro ⟨a', ⟨rfl, rfl⟩, hs, ha⟩
      exact ⟨⟨rfl, hs⟩, ha⟩
  | _ => simp [Op.on]

theorem Act.remain_of_splits (ha : a.splits = false) : a.remain = 0 := by
  cases a <;> first | rfl | simp [Act.splits] at ha

theorem World.simple_of_splits
    (hl : w.legal (.act i a)) (hs : a.splits = false) (ha : a.acks = false) :
    w.Simple (.act i a) :=
  ⟨hl, ha, rfl, fun b _ hr => by simp [Act.remain_of_splits hs] at hr⟩

theorem act_keeps (hI : Inv w l P) (hf : l.Flushed w.heap) (hop : w.Simple (.act i a))
    (hs : a.splits = false) (hx : w.exec cfg (.act i a) = some (o, w')) (hj : l[j]? = some (rd, q))
    (hij : j ≠ i) :
    ∃ l' P', Inv w' l' P' ∧ l'.Flushed w'.heap ∧ l'[j]? = some (rd, q) ∧
      Keeps w.heap w'.heap q.all [] P := by
  have hc := hop.careful hI hf
  obtain ⟨b, b', h', hi, hrun, rfl⟩ := World.exec_act.mp hx
  obtain ⟨p, rest, hF⟩ := hI.focus hi
  have hl : b.legal w.heap a := by simpa [World.legal, hi] using hop.1
  obtain ⟨p', P', hA⟩ := run_acted hF.buffer hF.safe hF.viewed hl (hc b hi)
    (fun k hk => hI.nodes_eq ▸ (Layout.nodes_perm hF.perm).mem_iff.mpr hk)
    (fun hr => by simp [Act.remain_of_splits hs] at hr) hrun
  have hM : Moved w.heap h' l _ _ (.act i a) := hA.moved hF ⟨rfl, rfl⟩
  refine ⟨_, P', hF.update hI hA.buffer hA.safe hA.node hA.later.lent, hM.flushed rfl hf, ?_, ?_⟩
  · rw [List.getElem?_set_ne hij.symm, hj]
  · exact (hA.keeps hs).mono (fun k hk => Layout.mem_nodes (hF.others hij hj) hk) (by simp)
      fun _ => id

/-- The block behind a reader's bytes is not freed by what happens to the buffer it has been sliced
from, if none of the bytes stand in the first part of a node that has been cut. -/
theorem slice_kept (hw : Reach (World.step cfg) World.Simple (World.start mem picks) w)
    (hi : w.bufs[i]? = some b) (hbase : ∀ k ∈ taken w.heap (b.early w.heap) m.toNat, Based w.heap k)
    (hx : w.exec cfg (.slice i m) = some (.done, w₁)) (hrd : w₁.bufs.getLast? = some rd)
    (hr : Reach (World.step cfg) (fun w op => w.legal op ∧ op.on i) w₁ w₂) :
    ∃ fr, w₂.heap.freed = fr ++ w₁.heap.freed ∧ ∀ k ∈ rd.chain w₁.heap,
      0 < (w₁.heap.nodes k).buf.cap → (w₁.heap.nodes k).buf.blk ∉ fr := by
  obtain ⟨l, hI, hf⟩ := simple_run hw
  obtain ⟨l₁, hI₁, hM, hdone⟩ := slice_inv hI hi (hI.modest hf hi) hx
  obtain ⟨L, rd', q, rfl, hL, hsound⟩ := hdone rfl
  obtain rfl : rd = rd' := by simpa [hI₁.bufs] using hrd.symm
  have hlast : (L ++ [(rd, q)])[L.length]? = some (rd, q) := by simp
  have hne : L.length ≠ i := by
    obtain ⟨hlt, -⟩ := List.getElem?_eq_some_iff.mp hi
    rw [hI.bufs, List.length_map] at hlt
    omega
  obtain ⟨l₂, -, -, -, hk⟩ := hr.invariant
    (I := fun w => ∃ l, Inv w l (fun _ => False) ∧ l.Flushed w.heap ∧ l[L.length]? = some (rd, q) ∧
      Keeps w₁.heap w.heap q.all [] fun _ => False)
    ⟨_, hI₁, hM.flushed rfl hf, hlast, .refl⟩ fun w op w' ⟨l, hI, hf, hj, hk⟩ hop hs => by
      obtain ⟨a, rfl, hsp, hack⟩ := Op.on_iff.mp hop.2
      obtain ⟨o, hx⟩ := exec_of_step hs
      obtain ⟨l', P', hI', hf', hj', hk'⟩ :=
        act_keeps hI hf (w.simple_of_splits hop.1 hsp hack) hsp hx hj hne
      exact ⟨l', hI'.unpin fun _ => False.elim, hf', hj', hk.trans hk'⟩
  have hchain : rd.chain w₁.heap = q.all := by
    obtain ⟨q', rest, hF⟩ := hI₁.focus (i := L.length) (b := rd) (by simp [hI₁.bufs])
    obtain rfl : q' = q := by simpa using hF.get.symm.trans hlast
    exact hF.buffer.chain_eq hF.safe
  obtain ⟨fr, hfr, hnot⟩ := hk.later.freed
  refine ⟨fr, hfr, fun k hkc hcap hmem => ?_⟩
  rw [hchain] at hkc
  exact hnot _ hmem (.inr (.inr (.inr ⟨k, hkc, hsound hbase k hkc, hcap, rfl⟩)))

instance (h : Heap) (i : Nat) : Decidable (Based h i) := inferInstanceAs (Decidable (_ ∨ _))

/-- The right to free the block has moved to the second part, which does not know of a reader of the
first. -/
theorem slice_freed : ∃ w w₁ w₂ rd, World.after (fun w op => w.legal op)
      [.new 1, .act 0 (.malloc 4), .lend [7], .act 0 (.writeDirect ⟨1, 0, 1, 1⟩ 2), .act 0 .flush] =
      some w ∧
    w.exec .small (.slice 0 1) = some (.done, w₁) ∧ w₁.bufs.getLast? = some rd ∧
    (rd.chain w₁.heap).map (fun k => (w₁.heap.nodes k).buf) = [⟨0, 0, 1, 1⟩] ∧
    w₁.exec .small (.act 0 .close) = some (.done, w₂) ∧ w₂.heap.freed = [0] :=
  ⟨_, _, _, _, rfl, rfl, rfl, rfl, rfl, rfl⟩

theorem slice_kept_second : ∃ w w₁ w₂ rd, World.after World.Simple
      [.new 1, .act 0 (.malloc 4), .lend [7], .act 0 (.writeDirect ⟨1, 0, 1, 1⟩ 2), .act 0 .flush,
        .act 0 (.skip 3)] = some w ∧
    w.exec .small (.slice 0 1) = some (.done, w₁) ∧ w₁.bufs.getLast? = some rd ∧
    (rd.chain w₁.heap).map (fun k => (w₁.heap.nodes k).buf) = [⟨0, 2, 1, 1⟩] ∧
    w₁.step .small (.act 0 .close) = some w₂ ∧ 0 ∉ w₂.heap.freed := by
  obtain ⟨w, w₁, w₂, b, rd, hw, hi, hbase, hx, hrd, hbuf, hl, hs, hfr⟩ : ∃ w w₁ w₂ b rd,
      World.after World.Simple [.new 1, .act 0 (.malloc 4), .lend [7],
        .act 0 (.writeDirect ⟨1, 0, 1, 1⟩ 2), .act 0 .flush, .act 0 (.skip 3)] = some w ∧
      w.bufs[0]? = some b ∧ (∀ k ∈ taken w.heap (b.early w.heap) 1, Based w.heap k) ∧
      w.exec .small (.slice 0 1) = some (.done, w₁) ∧ w₁.bufs.getLast? = some rd ∧
      (rd.chain w₁.heap).map (fun k => (w₁.heap.nodes k).buf) = [⟨0, 2, 1, 1⟩] ∧
      w₁.legal (.act 0 .close) ∧ w₁.step .small (.act 0 .close) = some w₂ ∧ w₁.heap.freed = [] :=
    ⟨_, _, _, _, _, rfl, rfl, by decide, rfl, rfl, rfl, rfl, rfl, rfl⟩
  obtain ⟨fr, h1, h2⟩ := slice_kept (m := 1) (World.reach_of_after hw) hi hbase hx hrd
    (.tail .refl ⟨hl, rfl⟩ hs)
  obtain ⟨k, hk, hkb⟩ : ∃ k ∈ rd.chain w₁.heap, (w₁.heap.nodes k).buf = ⟨0, 2, 1, 1⟩ :=
    List.mem_map.mp (hbuf ▸ List.mem_singleton_self _)
  have hnot := h2 k hk (by simp [hkb])
  rw [hkb] at hnot
  exact ⟨w, w₁, w₂, rd, hw, hx, hrd, hbuf, hs, by rwa [h1, hfr, List.append_nil]⟩

def Held (h : Heap) (V : List Nat) (K : List Slice) (s : Slice) : Prop :=
  h.owner s.blk = .lent ∨ h.owner s.blk ≠ .mcache ∧ (∀ q ∈ K, q.blk ≠ s.blk) ∧
    ∀ k ∈ V, (h.nodes k).origin = none → 0 < (h.nodes k).buf.cap → (h.nodes k).buf.blk = s.blk →
      s.off + s.len ≤ (h.nodes k).buf.off + (h.nodes k).buf.len ∨
        (h.nodes k).readonly = true ∧ (h.nodes k).buf.off + (h.nodes k).malloc ≤ s.off

theorem Held.congr {V V' : List Nat} {K K' : List Slice} (hh : Held h V K s)
    (hV : ∀ k ∈ V', k ∈ V) (hK : ∀ q ∈ K', q ∈ K) : Held h V' K' s :=
  hh.imp_right fun ⟨ho, hc, hn⟩ => ⟨ho, fun q hq => hc q (hK q hq), fun k hk => hn k (hV k hk)⟩

theorem Held.not_written (hI : Inv w l P) (hh : Held w.heap l.nodes l.kept s) (hx : x ∈ s.cells) :
    ¬ Written w.heap l.nodes l.kept x := by
  obtain ⟨hblk, hlo, hhi⟩ := mem_cells.mp hx
  rw [Held, ← hblk] at hh
  have hc := hI.safe.counted
  have hroot : ∀ k ∈ l.nodes, (w.heap.nodes k).root → (w.heap.nodes k).buf.blk = x.1 →
      w.heap.owner x.1 ≠ .lent := fun k hk hr he => he ▸
        (Owner.held_ne (hc.live k (refs_pos_of_mem hk) hr)).2
  rcases hh with hl | ⟨ho, hK, hV⟩
  · rintro ((hm | ⟨q, hq, he⟩ | ⟨k, hk, hr, he, -⟩) | ⟨-, hne⟩)
    · simp [hl] at hm
    · exact (Owner.held_ne (hc.cache q hq).2.2).2 (he ▸ hl)
    · exact hroot k hk hr he hl
    · exact hne hl
  · rintro ((hm | ⟨q, hq, he⟩ | ⟨k, hk, hr, he, hle⟩) | ⟨⟨k, hk, hor, hkx⟩, -⟩)
    · exact ho hm
    · exact hK q hq he
    · have hg := (hI.fit hk).grown hr.1
      rcases hV k hk hr.1 hr.2.2 he with h1 | ⟨h1, -⟩
      · omega
      · simp [hr.2.1] at h1
    · obtain ⟨he, -, -, hcap⟩ := (hI.fit hk).mem_bounds (List.mem_append_right _ hkx)
      rw [Heap.pending, mem_cells] at hkx
      rcases hV k hk hor hcap he.symm with h1 | ⟨-, h1⟩ <;> omega

theorem Held.grow {V V' : List Nat} {K K' : List Slice} (hh : Held h V K s)
    (hlent : ∀ x, h.owner x = .lent → h'.owner x = .lent)
    (hc : ∀ q ∈ K', (∃ q' ∈ K, q'.blk = q.blk) ∨ h.owner q.blk = .mcache)
    (hg : Grows h h' V V') (ho : h'.owner s.blk ≠ .mcache) : Held h' V' K' s := by
  by_cases hl : h.owner s.blk = .lent
  · exact .inl (hlent _ hl)
  · obtain ⟨hm, hK, hV⟩ := hh.resolve_left hl
    refine .inr ⟨ho, fun q hq he => ?_, fun k hk hor hcap he => ?_⟩
    · rcases hc q hq with ⟨q', hq', he'⟩ | hm'
      · exact hK q' hq' (he'.trans he)
      · exact hm (he ▸ hm')
    · rcases hg k hk hor hcap with ⟨j, hj, hst⟩ | hm' | hl'
      · rw [hst.origin] at hor
        rw [hst.cap] at hcap
        rw [hst.blk] at he
        have hlen := hst.len
        rw [hst.off]
        rcases hV j hj hor hcap he with h1 | ⟨hro, h1⟩
        · exact .inl (by omega)
        · have := hst.readonly hro
          exact .inr ⟨this.1, by omega⟩
      · exact absurd (he ▸ hm') hm
      · exact absurd (he ▸ hl') hl

theorem Held.step (hM : Moved w.heap w'.heap l l' P op) (hack : op.acks = false)
    (ho : w'.heap.owner s.blk ≠ .mcache) (hh : Held w.heap l.nodes l.kept s) :
    Held w'.heap l'.nodes l'.kept s :=
  hh.grow hM.later.lent hM.caches (hM.grows hack) ho

theorem Held.bytes (hI : Inv w l P) (hM : Moved w.heap w'.heap l l' P op)
    (hh : Held w.heap l.nodes l.kept s) : w'.heap.bytes s = w.heap.bytes s := by
  rw [Heap.bytes_eq, Heap.bytes_eq]
  exact hM.writes.look fun x hx => hh.not_written hI hx

theorem Safe.held {U : List Nat} {K : List Slice} (hs : Safe h U K P) (hk : k ∈ U) (hsd : Sound h k)
    (hfit : ∀ j ∈ U, (h.nodes j).Fit) (hn : 0 < n) (hle : n ≤ (h.nodes k).len) :
    Held h U K ((h.nodes k).front n) := by
  have hf := hfit k hk
  have hlen := hf.off_add hle
  have hfl := hf.len
  have hcap : 0 < (h.nodes k).buf.cap := by omega
  have hc := hs.counted
  have hout : ∀ r, 0 < refs h U r → (h.nodes r).root → (h.nodes r).buf.blk = (h.nodes k).buf.blk →
      h.owner (h.nodes k).buf.blk ≠ .mcache ∧ ∀ q ∈ K, q.blk ≠ (h.nodes k).buf.blk :=
        fun r hr hroot he =>
    ⟨he ▸ (Owner.held_ne (hc.live r hr hroot)).1,
      fun q hq hqe => hc.apart r q hq hr hroot (he.trans hqe.symm)⟩
  by_cases hl : h.owner (h.nodes k).buf.blk = .lent
  · exact .inl hl
  refine .inr ?_
  cases hor : (h.nodes k).origin with
  | none =>
    have hg := hf.grown hor
    cases hro : (h.nodes k).readonly with
    | false =>
      have hroot : (h.nodes k).root := ⟨hor, hro, hcap⟩
      obtain ⟨h1, h2⟩ := hout k (refs_pos_of_mem hk) hroot rfl
      refine ⟨h1, h2, fun j hj hjo hjc hje => ?_⟩
      by_cases hjk : j = k
      · subst hjk
        exact .inl (by simp only [Node.front]; omega)
      · cases hjr : (h.nodes j).readonly with
        | false =>
          exact absurd (hc.distinct j k (refs_pos_of_mem hj) (refs_pos_of_mem hk) ⟨hjo, hjr, hjc⟩
            hroot hje) hjk
        | true =>
          obtain ⟨h3, h4 | ⟨h4, -⟩⟩ := hs.woven.parted j hj k hk hjk ⟨hjo, hjr, hjc⟩ hor hcap hje
            (by rw [hje]; exact hl)
          · exact .inr ⟨rfl, by simp only [Node.front]; omega⟩
          · simp [hro] at h4
    | true =>
      obtain hl' | ⟨r, hr, hroot, hre⟩ := hs.woven.viewed k hk ⟨hor, hro, hcap⟩
      · exact absurd hl' hl
      · obtain ⟨h1, h2⟩ := hout r (refs_pos_of_mem hr) hroot hre
        refine ⟨h1, h2, fun j hj hjo hjc hje => ?_⟩
        by_cases hjk : j = k
        · subst hjk
          exact .inl (by simp only [Node.front]; omega)
        · have hjf := (hfit j hj).off
          obtain ⟨h3, h4 | ⟨h4, h5⟩⟩ :=
            hs.woven.parted k hk j hj (Ne.symm hjk) ⟨hor, hro, hcap⟩ hjo hjc
            hje.symm hl
          · exact .inl (by simp only [Node.front]; omega)
          · exact .inr ⟨h4, by simp only [Node.front]; omega⟩
  | some r =>
    have hsl := hs.sliced hk hor
    have h1 := hsl.fits
    have h2 := hsl.start
    have h3 := hsl.pos
    have h4 := hsl.len
    have hr := refs_pos_of_origin hk hor
    have hro : (h.nodes r).readonly = false :=
      (hsd r hor).resolve_right fun hl' => hl (hsl.blk ▸ hl')
    have hroot : (h.nodes r).root := ⟨hsl.origin, hro, by omega⟩
    obtain ⟨h5, h6⟩ := hout r hr hroot hsl.blk.symm
    refine ⟨h5, h6, fun j hj hjo hjc hje => ?_⟩
    by_cases hjr : j = r
    · subst hjr
      exact .inl (by simp only [Node.front]; omega)
    · cases hjro : (h.nodes j).readonly with
      | false => exact absurd (hc.distinct j r (refs_pos_of_mem hj) hr ⟨hjo, hjro, hjc⟩ hroot
          (hje.trans hsl.blk)) hjr
      | true =>
        have := hs.woven.clear j hj k hk r ⟨hjo, hjro, hjc⟩ hor hro hje
        exact .inr ⟨rfl, by simp only [Node.front]; omega⟩

/-- The bytes `s` are in a block that the buffer holds or that nobody frees, and nothing is written
there. -/
def Leased (h : Heap) (b : LinkBuffer) (p : Parts) (V : List Nat) (K : List Slice) (P : Nat → Prop)
    (s : Slice) : Prop :=
  s.len = 0 ∨ s ∈ b.caches ∨ Held h V K s ∧
    (P s.blk ∨ ∃ k ∈ p.used, 0 < (h.nodes k).buf.cap ∧ (h.nodes k).buf.blk = s.blk)

namespace ReadPost

variable {b' : LinkBuffer} {p' : Parts} {U : List Nat} {K : List Slice}
  (hp : ReadPost h h' b b' p p' n U K P P')
include hp

theorem like_all (hk : k ∈ p'.all ++ U) :
    k ∈ p.all ++ U ∧ (h.nodes k).Like (h'.nodes k) := by
  rw [hp.all] at hk
  refine ⟨hk, ?_⟩
  rcases List.mem_append.mp hk with hk | hk
  · exact hp.like k hk
  · exact .of_bare (hp.post.keeps.node k hk)

theorem held (hh : Held h (p.all ++ U) (b.kept ++ K) s) (ho : h'.owner s.blk ≠ .mcache) :
    Held h' (p'.all ++ U) (b'.kept ++ K) s := by
  refine hh.grow hp.post.keeps.later.lent (fun q hq => ?_) (.of_like fun k hk => hp.like_all hk) ho
  rcases List.mem_append.mp hq with hq | hq
  · refine (hp.post.caches q hq).imp_left fun ⟨q', hq', he⟩ => ?_
    exact ⟨q', List.mem_append_left _ hq', he⟩
  · exact .inl ⟨q, List.mem_append_right _ hq, rfl⟩

theorem held_own (hs : Safe h (p.all ++ U) (b.kept ++ K) P) (hmc : h.owner s.blk = .mcache)
    (hpin : P' s.blk) : Held h' (p'.all ++ U) (b'.kept ++ K) s := by
  have hc := hp.post.safe.counted
  refine .inr ⟨hc.pin _ hpin, fun q hq he => (hc.cache q hq).2.1 (he ▸ hpin), ?_⟩
  intro k hk hko hcap he
  exfalso
  obtain ⟨hkU, hlike⟩ := hp.like_all hk
  rw [hlike.origin] at hko
  rw [hlike.cap] at hcap
  rw [hlike.blk] at he
  cases hro : (h.nodes k).readonly with
  | false => exact hs.counted.ne_of_mcache hmc (refs_pos_of_mem hkU) ⟨hko, hro, hcap⟩ he
  | true => exact hs.view_ne hmc hkU ⟨hko, hro, hcap⟩ he

theorem leased (hb : Buffer h b p) (hs : Safe h (p.all ++ U) (b.kept ++ K) P)
    (hsd : ∀ k ∈ p.all, Sound h k) (hfit : ∀ j ∈ p.all ++ U, (h.nodes j).Fit) (hst : Still h h')
    (hpos : 0 < n) (ho : Origin h b' p P' n s) :
    Leased h' b' p' (p'.all ++ U) (b'.kept ++ K) P' s := by
  cases ho with
  | part k hk he hle =>
    subst he
    have hka := Parts.mem_all_of_used hk
    have hkU : k ∈ p.all ++ U := List.mem_append_left _ hka
    have hh := hs.held hkU (hsd k hka) hfit hpos hle
    have hcap : 0 < (h.nodes k).buf.cap := by
      have h1 := (hfit k hkU).off_add hle
      have h2 := (hfit k hkU).len
      omega
    obtain ⟨hk', hlike⟩ := hp.stay hb k hk
    refine .inr (.inr ⟨hp.held hh ?_, .inr ⟨k, hk', hlike.cap ▸ hcap, hlike.blk⟩⟩)
    have hne : h.owner (h.nodes k).buf.blk ≠ .mcache := by
      rcases hh with hl | ⟨hne, -⟩
      · exact fun hm => by simp [Node.front, hm] at hl
      · exact hne
    exact fun hm => hne (hst.mcache hm)
  | own hmc hheld =>
    rcases hheld with hc | hpin
    · exact .inr (.inl hc)
    · exact .inr (.inr ⟨hp.held_own hs hmc hpin, .inl hpin⟩)

end ReadPost

namespace World

/-- `WriteDirect` cuts no node of which a user has bytes without a copy. -/
def CutsUnmarked (w : World) : Op → Prop
  | .act i a => ∀ b ∈ w.bufs[i]?, 0 < a.remain → ∀ x ∈ LinkBuffer.cutLoop (w.heap.fresh + 1) w.heap
      b.flush (b.mallocSize - a.remain), (w.heap.nodes x.1).nocopyRead = false
  | _ => True

instance (w : World) : DecidablePred w.CutsUnmarked
  | .act i a => inferInstanceAs
      (Decidable (∀ b ∈ w.bufs[i]?, 0 < a.remain → ∀ x ∈ LinkBuffer.cutLoop _ _ _ _, _))
  | .new _ | .lend _ | .slice _ _ | .append _ _ => inferInstanceAs (Decidable True)

end World

theorem Buffer.cut_mem {U : List Nat} {K : List Slice} {y : Nat × Int} (hb : Buffer h b p)
    (hs : Safe h (p.all ++ U) K P) (hm : 0 ≤ m ∧ m ≤ b.mallocSize)
    (hy : LinkBuffer.cutLoop (h.fresh + 1) h b.flush (b.mallocSize - m) = some y) :
    y.1 ∈ p.all := by
  have hback : p.back ≠ [] := fun he => by simp [LinkBuffer.cutLoop, (write_none hb he).2] at hy
  have hlen : b.mallocSize = (h.unflushed p.back).length := by
    rw [hb.malloc, Parts.live, hb.rep.unflushed_live]
  have hfuel : p.back.length < h.fresh + 1 := by
    have := Parts.length_all hs
    simp only [Parts.all, List.length_append] at this
    omega
  obtain ⟨n, hn⟩ : ∃ n : Nat, b.mallocSize - m = n := ⟨(b.mallocSize - m).toNat, by omega⟩
  obtain ⟨M, i, N, k, hsp, hcut, -⟩ := cutLoop_spec (n := n) (hb.rep.seg_back hback)
    (fun k hk => ⟨hb.rep.fit k (Parts.mem_all_of_back hk),
      hb.plain hback k (Parts.mem_all_of_back hk)⟩)
    hback (by omega) hfuel
  rw [hn, hcut, Option.some.injEq] at hy
  rw [← hy]
  exact Parts.mem_all_of_back (by simp [hsp])

theorem World.CutsUnmarked.cutsFree (hI : Inv w l P) (hop : w.Simple op) (hu : w.CutsUnmarked op) :
    w.CutsFree P op := by
  cases op with
  | act i a =>
    intro b (hi : w.bufs[i]? = some b) hr y hy hPy
    obtain ⟨p, rest, hF⟩ := hI.focus hi
    have hle : a.remain ≤ b.mallocSize := by
      have hl : b.legal w.heap a := by simpa [World.legal, hi] using hop.1
      cases a with
      | writeDirect s r => exact (of_decide_eq_true hl).2.2
      | _ => simp [Act.remain] at hr
    have hmem := hF.buffer.cut_mem hF.safe ⟨by omega, hle⟩ hy
    obtain ⟨hro, -⟩ := hop.2.2.2 b hi hr y hy
    have hre : (w.heap.nodes y.1).reusable := by
      simp [Node.reusable, hro, hu b hi hr y hy]
    exact (hF.safe.counted.reusable y.1 (refs_pos_of_mem (List.mem_append_left _ hmem)) hre).2 hPy
  | _ => trivial

theorem readBinary_of_readString (hx : w.exec cfg (.act i (.readString m)) = some (.bytes s, w')) :
    w.exec cfg (.act i (.readBinary m)) = some (.bytes s, w') := by
  obtain ⟨b, b', h', hi, hrun, rfl⟩ := World.exec_act.mp hx
  refine World.exec_act.mpr ⟨b, b', h', hi, ?_, rfl⟩
  simp only [LinkBuffer.run, LinkBuffer.readString, LinkBuffer.readBinary] at hrun ⊢
  split_ifs at hrun ⊢
  · exact hrun
  · simp [Out.of] at hrun
  · exact hrun

theorem readBinary_held (hI : Inv w l P) (hf : l.Flushed w.heap) (hm : 0 < m)
    (hx : w.exec cfg (.act i (.readBinary m)) = some (.bytes s, w')) :
    ∃ l' P', Inv w' l' P' ∧ l'.Flushed w'.heap ∧ P' s.blk ∧ Held w'.heap l'.nodes l'.kept s := by
  obtain ⟨b, b₁, h₁, hi, hrun, rfl⟩ := World.exec_act.mp hx
  obtain ⟨p, rest, hF⟩ := hI.focus hi
  obtain ⟨n, rfl⟩ : ∃ n : Nat, m = n := ⟨m.toNat, by omega⟩
  have hlen : ¬ b.length < (n : Int) := fun hlt => by
    simp [LinkBuffer.run, LinkBuffer.readBinary, show ¬ n = 0 by omega, hlt, Out.of] at hrun
  have hn : n ≤ (w.heap.content p.early).length := by
    have := hI.modest hf hi (m := n) (by omega)
    rw [hF.buffer.readable_eq hF.safe] at this
    omega
  obtain ⟨s', b', h', p', P', hr, hp, hst, hc, -, hpin, hkind, hkept, -⟩ :=
    readBinaryN_spec cfg hF.buffer hF.safe (n := n) (by omega) hn
  simp only [LinkBuffer.run, LinkBuffer.readBinary, show ¬ (n : Int) ≤ 0 by omega, if_false,
    if_neg hlen, Int.toNat_natCast, hr, Option.map_some, Option.some.injEq, Prod.mk.injEq, Out.of,
    Out.bytes.injEq] at hrun
  obtain ⟨rfl, rfl, rfl⟩ := hrun
  have hA := hp.acted (a := .readBinary n) hF.buffer hc.loose (fun _ => hst) fun _ => hc
  have hM : Moved w.heap _ l _ _ (.act i (.readBinary n)) := hA.moved hF ⟨rfl, rfl⟩
  have hI' := hF.update hI hA.buffer hA.safe hA.node hA.later.lent
  have hout := hI'.safe.counted.pin _ hpin
  refine ⟨_, P', hI', hM.flushed rfl hf, hpin, ?_⟩
  rcases hkind with hmc | ⟨k, hk, hko, rfl, hle⟩
  · -- a copy in a block of its own
    exact (hp.held_own hF.safe hmc hpin).congr
      (fun k => (Layout.nodes_perm (hF.set (b', p'))).mem_iff.mp)
      fun q => (Layout.kept_perm (hF.set (b', p'))).mem_iff.mp
  · -- the bytes themselves
    have hkl : k ∈ l.nodes := Layout.mem_nodes (List.mem_of_getElem? hF.get) hk
    exact Held.step hM rfl hout (hI.safe.held hkl (fun r hr => by simp [hko] at hr)
      (fun j hj => hI.fit hj) (by omega) hle)

/-- What `ReadBinary` or `ReadString` has returned does not change: its block is not freed, and
`Malloc` hands out nothing that overlaps it. -/
theorem readBinary_permanent (hw : Reach (World.step cfg) World.Simple (World.start mem picks) w)
    (ha : a = .readBinary m ∨ a = .readString m) (hm : 0 < m)
    (hx : w.exec cfg (.act i a) = some (.bytes s, w₁))
    (hr : Reach (World.step cfg) (fun w op => w.Simple op ∧ w.CutsUnmarked op) w₁ w₂) :
    w₂.heap.bytes s = w₁.heap.bytes s ∧
      (∃ fr, w₂.heap.freed = fr ++ w₁.heap.freed ∧ s.blk ∉ fr) ∧
      ∀ j m' q w₃, w₂.exec cfg (.act j (.malloc m')) = some (.bytes q, w₃) → ∀ x ∈ q.cells,
      x ∉ s.cells := by
  obtain ⟨l, hI, hf⟩ := simple_run hw
  have hx : w.exec cfg (.act i (.readBinary m)) = some (.bytes s, w₁) := by
    rcases ha with rfl | rfl
    · exact hx
    · exact readBinary_of_readString hx
  obtain ⟨l₁, P₁, hI₁, hf₁, hP₁, hH₁⟩ := readBinary_held hI hf hm hx
  obtain ⟨l₂, P₂, hI₂, -, hP₂, hH₂, hb, hfr⟩ := hr.invariant
    (I := fun w => ∃ l P, Inv w l P ∧ l.Flushed w.heap ∧ P s.blk ∧ Held w.heap l.nodes l.kept s ∧
      w.heap.bytes s = w₁.heap.bytes s ∧ ∃ fr, w.heap.freed = fr ++ w₁.heap.freed ∧ s.blk ∉ fr)
    ⟨l₁, P₁, hI₁, hf₁, hP₁, hH₁, rfl, [], rfl, by simp⟩
    fun w op w' ⟨l, P, hI, hf, hP, hH, hb, fr, hfr, hnot⟩ hop hs => by
      obtain ⟨o, hx⟩ := exec_of_step hs
      obtain ⟨l', P', hI', hf', hP', hM⟩ := simple_step hI hf hop.1 (hop.2.cutsFree hI hop.1) hx
      obtain ⟨fr', hfr', hnot'⟩ := hM.later.freed
      refine ⟨l', P', hI', hf', hP' _ hP, hH.step hM hop.1.2.1 (hI'.safe.counted.pin _ (hP' _ hP)),
        (hH.bytes hI hM).trans hb, fr' ++ fr, by rw [hfr', hfr, List.append_assoc], ?_⟩
      simp only [List.mem_append, not_or]
      exact ⟨fun hm => hnot' _ hm (.inr hP), hnot⟩
  refine ⟨hb, hfr, fun j m' q w₃ hx x hxq hxs => ?_⟩
  exact hH₂.not_written hI₂ hxs (.inl ((hI₂.malloc_loose hx x hxq).mono (fun _ hk => hk) (by simp)))

/-- The second part of a node that has been cut does not know that a user has bytes of the first. -/
theorem readBinary_freed : ∃ w w₁ w₂, World.after (fun w op => w.legal op)
      [.new 100, .act 0 (.malloc 64), .act 0 .flush] = some w ∧
    w.exec .small (.act 0 (.readBinary 64)) = some (.bytes ⟨0, 0, 64, 64⟩, w₁) ∧
    runs (guarded (World.step .small) World.legal) w₁
      [.act 0 (.malloc 4), .lend [7], .act 0 (.writeDirect ⟨1, 0, 1, 1⟩ 2), .act 0 .close] =
      some w₂ ∧
    w₂.heap.freed = [0] :=
  ⟨_, _, _, rfl, rfl, rfl, rfl⟩

theorem readBinary_permanent_appended : ∃ w w₁ w₂, World.after World.Simple
      [.new 100, .act 0 (.malloc 64), .act 0 .flush] = some w ∧
    w.exec .small (.act 0 (.readBinary 64)) = some (.bytes ⟨0, 0, 64, 64⟩, w₁) ∧
    runs (guarded (World.step .small) fun w op => decide (w.Simple op ∧ w.CutsUnmarked op)) w₁
      [.act 0 (.malloc 4), .lend [7], .act 0 (.writeDirect ⟨1, 0, 1, 1⟩ 0), .act 0 .close] =
      some w₂ ∧
    0 ∉ w₂.heap.freed := by
  obtain ⟨w, w₁, w₂, hw, hx, hr, hfr⟩ : ∃ w w₁ w₂, World.after World.Simple
        [.new 100, .act 0 (.malloc 64), .act 0 .flush] = some w ∧
      w.exec .small (.act 0 (.readBinary 64)) = some (.bytes ⟨0, 0, 64, 64⟩, w₁) ∧
      runs (guarded (World.step .small) fun w op => decide (w.Simple op ∧ w.CutsUnmarked op)) w₁
        [.act 0 (.malloc 4), .lend [7], .act 0 (.writeDirect ⟨1, 0, 1, 1⟩ 0), .act 0 .close] =
        some w₂ ∧
      w₁.heap.freed = [] := ⟨_, _, _, rfl, rfl, rfl, rfl⟩
  obtain ⟨-, ⟨fr, h1, h2⟩, -⟩ :=
    readBinary_permanent (World.reach_of_after hw) (.inl rfl) (by decide) hx (.of_decide hr)
  exact ⟨w, w₁, w₂, hw, hx, hr, by rwa [h1, hfr, List.append_nil]⟩

end Netpoll.Nocopy
