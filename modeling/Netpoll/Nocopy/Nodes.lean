import Netpoll.Nocopy.Ownership

namespace Netpoll.Nocopy

open Netpoll.Lib

variable {h h' : Heap} {need need' : Nat → Nat} {U U' : List Nat} {K K' : List Slice}
  {P : Nat → Prop} {i j r n : Nat} {s : Slice} {cfg : Config} {size : Int}

theorem Counted.poolGet (hc : Counted h need K P) :
    ∃ i h', h.poolGet = (i, h') ∧ Counted h' need K P ∧ need i = 0 ∧ i < h'.fresh ∧
      i ∉ h'.linkedPool ∧ h.fresh ≤ h'.fresh ∧ h'.mem = h.mem ∧ h'.owner = h.owner ∧
      h'.top = h.top ∧ h'.freed = h.freed ∧ (∀ k, k ≠ i → h'.nodes k = h.nodes k) ∧
      (h'.nodes i).buf = .nil ∧ (h'.nodes i).origin = none ∧ (h'.nodes i).next = none := by
  cases hg : h.linkedPool[h.picks 0]? with
  | some i =>
    have hi : i ∈ h.linkedPool := List.mem_of_getElem? hg
    have hni : i ∉ h.linkedPool.eraseIdx (h.picks 0) := by
      rw [List.mem_eraseIdx_iff_getElem]
      rintro ⟨k, hk, hne, hki⟩
      obtain ⟨hlt, hge⟩ := List.getElem?_eq_some_iff.mp hg
      exact hne (hc.pool_nodup.getElem_inj_iff.mp (hki.trans hge.symm))
    have hneed : need i = 0 := by
      by_contra hne
      exact hc.unpooled i (Nat.pos_of_ne_zero hne) hi
    have hsub : ∀ k ∈ h.linkedPool.eraseIdx (h.picks 0), k ∈ h.linkedPool :=
      fun k hk => List.mem_of_mem_eraseIdx hk
    refine ⟨i, { h.pick.2 with linkedPool := h.linkedPool.eraseIdx (h.picks 0) },
      by
      simp [Heap.poolGet, Heap.pick, hg], ?_, hneed, hc.pool_lt i hi, hni, le_rfl, rfl, rfl, rfl,
        rfl,
      fun _ _ => rfl, hc.pool_clean i hi⟩
    exact {
      hc.picks h.pick.2.picks with
      unpooled := fun k hk hm => hc.unpooled k hk (hsub k hm)
      pool_nodup := hc.pool_nodup.eraseIdx _
      pool_lt := fun k hk => hc.pool_lt k (hsub k hk)
      pool_clean := fun k hk => hc.pool_clean k (hsub k hk) }
  | none =>
    have hneed : need h.fresh = 0 := by
      by_contra hne
      have := hc.lt _ (Nat.pos_of_ne_zero hne)
      omega
    have hnp : h.fresh ∉ h.linkedPool := fun hm => by
      have := hc.pool_lt _ hm
      omega
    refine ⟨h.fresh, { h.pick.2.set h.fresh {} with fresh := h.fresh + 1 },
      by simp [Heap.poolGet, Heap.pick, hg], ?_, hneed, by simp, hnp, by simp, rfl, rfl, rfl, rfl,
      fun k hk => by simp [Heap.pick, hk], by simp, by simp, by simp⟩
    have hc' : Counted { h.pick.2 with fresh := h.fresh + 1 } need K P := {
      hc.picks h.pick.2.picks with
      lt := fun k hk => Nat.lt_succ_of_lt (hc.lt k hk)
      pool_lt := fun k hk => Nat.lt_succ_of_lt (hc.pool_lt k hk) }
    exact hc'.assign (by simp) hnp (fun _ _ => rfl)
      (by simp [hneed]) (by simp [Node.root, Slice.nil]) (by simp [hneed])

structure Made (h h' : Heap) (cfg : Config) (size : Int) (i : Nat) : Prop where
  others : ∀ k, k ≠ i → h'.nodes k = h.nodes k
  mem : h'.mem = h.mem
  still : Still h h'
  off : (h'.nodes i).off = 0
  malloc : (h'.nodes i).malloc = 0
  refer : (h'.nodes i).refer = 1
  len : (h'.nodes i).buf.len = 0
  start : (h'.nodes i).buf.off = 0
  origin : (h'.nodes i).origin = none
  next : (h'.nodes i).next = none
  nocopyRead : (h'.nodes i).nocopyRead = false
  readonly : (h'.nodes i).readonly = decide (size ≤ 0)
  cap : 0 < size → size.toNat ≤ (h'.nodes i).buf.cap ∧ cfg.linkBufferCap ≤ (h'.nodes i).buf.cap
  bare : size ≤ 0 → (h'.nodes i).buf.cap = 0
  block : 0 < size → h.owner (h'.nodes i).buf.blk = .mcache ∧
    (h'.owner (h'.nodes i).buf.blk).held

theorem Counted.newNode (hc : Counted h need K P) (cfg : Config) (size : Int) :
    ∃ i h', h.newLinkBufferNode cfg size = (i, h') ∧ need i = 0 ∧
      Counted h' (Function.update need i 1) K P ∧ Made h h' cfg size i := by
  obtain ⟨i, h₁, hget, hc₁, hneed, hlt, hnp, hfr, hm, how, htop, hfd, hoth, hbuf, hor, hnx⟩ :=
    hc.poolGet
  have hupd : ∀ k, k ≠ i → Function.update need i 1 k = need k := fun k hk => by simp [hk]
  by_cases hsize : size ≤ 0
  · have hnew : h.newLinkBufferNode cfg size =
        (i, h₁.set i { (h₁.nodes i).renewed with readonly := true }) := by
      simp only [Heap.newLinkBufferNode, hget, if_pos hsize]
    refine ⟨i, _, hnew, hneed, hc₁.assign hlt hnp hupd ?_ ?_ ?_, ?_⟩
    · simp [Node.renewed]
    · simp [Node.root, Node.renewed, hbuf, Slice.nil]
    · simp [Node.reusable]
    · have hstill : Still h (h₁.set i { (h₁.nodes i).renewed with readonly := true }) :=
        ⟨fun b _ => by simp [how], hfd, hfr, htop.ge⟩
      refine ⟨?_, ?_, hstill, ?_, ?_, ?_, ?_, ?_, ?_, ?_, ?_, ?_, ?_, ?_, ?_⟩ <;>
        simp_all [Node.renewed, Slice.nil]
  · obtain ⟨blk, cap, o, picks, hma, hblk, hcap, ho⟩ :=
      Heap.malloc_eq 0 (max size.toNat cfg.linkBufferCap)
        (hc₁.top h₁.top le_rfl)
    set h₂ := ({ h₁ with picks := picks }).take blk o with hh₂
    have hc₂ : Counted h₂ need K P := (hc₁.picks picks).take hblk
    have hown : h₂.owner blk = o := by simp [hh₂, Heap.take]
    have hnew : h.newLinkBufferNode cfg size =
        (i, h₂.set i { (h₁.nodes i).renewed with buf := ⟨blk, 0, 0, cap⟩ }) := by
      simp only [Heap.newLinkBufferNode, hget, if_neg hsize, hma]
    refine ⟨i, _, hnew, hneed, hc₂.assign hlt hnp hupd ?_ ?_ ?_, ?_⟩
    · simp [Node.renewed]
    · refine fun _ => ⟨hown ▸ ho, rfl, fun k _ hk hr => ?_, fun s hs he => ?_⟩
      · exact hc₁.ne_of_mcache hblk hk hr
      · exact (Owner.held_ne (hc₁.cache s hs).2.2).1 (he ▸ hblk)
    · refine fun _ _ => ⟨⟨hor, rfl, ?_⟩, fun hP => hc₁.pin blk hP hblk⟩
      simp only
      omega
    · have howner : ∀ b, h.owner b ≠ .mcache → h₂.owner b = h.owner b := fun b hb => by
        have hne : b ≠ blk := by
          rintro rfl
          exact hb (how ▸ hblk)
        simp [hh₂, Heap.take, hne, how]
      have htop' : h.top ≤ h₂.top := by
        simp only [hh₂, Heap.take, htop]
        omega
      have hcaps : size.toNat ≤ cap ∧ cfg.linkBufferCap ≤ cap := by omega
      refine ⟨?_, ?_, ⟨howner, hfd, hfr, htop'⟩, ?_, ?_, ?_, ?_, ?_, ?_, ?_, ?_, ?_,
        fun _ => by simpa using hcaps, ?_, ?_⟩
      all_goals simp_all [Heap.take, Node.renewed]

theorem Made.not_view (hm : Made h h' cfg size i) : ¬ (h'.nodes i).view := by
  rintro ⟨-, hro, hcap⟩
  rw [hm.readonly, decide_eq_true_eq] at hro
  have := hm.bare hro
  omega

theorem Woven.cons (hw : Woven h U)
    (hs : ∀ r, (h.nodes i).origin = some r → SliceOf (h.nodes i) (h.nodes r))
    (hv : (h.nodes i).view → h.owner (h.nodes i).buf.blk = .lent ∧ ∀ k ∈ U, ∀ r,
      (h.nodes k).origin = some r → (h.nodes r).readonly = false →
      (h.nodes i).buf.blk ≠ (h.nodes k).buf.blk)
    (hp : ∀ k ∈ U, (h.nodes k).view → (h.nodes i).origin = none → 0 < (h.nodes i).buf.cap →
      (h.nodes k).buf.blk = (h.nodes i).buf.blk → h.owner (h.nodes k).buf.blk = .lent)
    (hc : ∀ k ∈ U, ∀ r, (h.nodes k).view → (h.nodes i).origin = some r →
      (h.nodes r).readonly = false → (h.nodes k).buf.blk = (h.nodes i).buf.blk →
      (h.nodes k).buf.off + (h.nodes k).malloc ≤ (h.nodes i).buf.off) : Woven h (i :: U) where
  sliced j hj r hr := by
    rcases List.mem_cons.mp hj with rfl | hj
    · exact hs r hr
    · exact hw.sliced j hj r hr
  viewed j hj hview := by
    rcases List.mem_cons.mp hj with rfl | hj
    · exact .inl (hv hview).1
    · exact (hw.viewed j hj hview).imp_right fun ⟨k, hk, hr⟩ => ⟨k, by simp [hk], hr⟩
  parted j hj k hk hjk hview ho hcap hblk hne := by
    rcases List.mem_cons.mp hj with rfl | hj'
    · exact absurd (hv hview).1 hne
    · rcases List.mem_cons.mp hk with rfl | hk'
      · exact absurd (hp j hj' hview ho hcap hblk) hne
      · exact hw.parted j hj' k hk' hjk hview ho hcap hblk hne
  clear j hj k hk r hview ho hro hblk := by
    rcases List.mem_cons.mp hj with rfl | hj'
    · rcases List.mem_cons.mp hk with rfl | hk'
      · rw [hview.1] at ho
        cases ho
      · exact absurd hblk ((hv hview).2 k hk' r ho hro)
    · rcases List.mem_cons.mp hk with rfl | hk'
      · exact hc j hj' r hview ho hro hblk
      · exact hw.clear j hj' k hk' r hview ho hro hblk

theorem Safe.view_ne {blk : Nat} (hs : Safe h U K P) (hb : h.owner blk = .mcache) (hi : i ∈ U)
    (hv : (h.nodes i).view) : (h.nodes i).buf.blk ≠ blk := by
  rintro rfl
  rcases hs.woven.viewed i hi hv with hlent | ⟨k, hk, hroot, hblk⟩
  · rw [hb] at hlent
    cases hlent
  · exact (Owner.held_ne (hs.counted.live k (refs_pos_of_mem hk) hroot)).1 (hblk ▸ hb)

theorem Safe.newNode (hs : Safe h U K P) (cfg : Config) (size : Int) :
    ∃ i h', h.newLinkBufferNode cfg size = (i, h') ∧ refs h U i = 0 ∧ Safe h' (i :: U) K P ∧
      Made h h' cfg size i := by
  obtain ⟨i, h', hnew, hi, hc, hm⟩ := hs.counted.newNode cfg size
  have hne : ∀ k, 0 < refs h U k → k ≠ i := by
    rintro k hk rfl
    omega
  have hpos : ∀ k, 0 < refs h U k → h'.nodes k = h.nodes k := fun k hk => hm.others k (hne k hk)
  have hU : ∀ k ∈ U, h'.nodes k = h.nodes k := fun k hk => hpos k (refs_pos_of_mem hk)
  have hrefs : Function.update (refs h U) i 1 = refs h' (i :: U) := by
    funext k
    have h1 : refs h' U = refs h U := refs_congr fun j hj => by rw [hU j hj]
    by_cases hk : k = i
    · subst hk
      simp [refs_cons, h1, hm.origin, hi]
    · simp [hk, refs_cons, h1, hm.origin, Ne.symm hk]
  refine ⟨i, h', hnew, hi, ⟨List.nodup_cons.mpr ⟨?_, hs.nodup⟩, hrefs ▸ hc, ?_⟩, hm⟩
  · exact fun hmem => hne i (refs_pos_of_mem hmem) rfl
  · have hw : Woven h' U := hs.woven.like hm.still.lent fun k hk => by
      rw [hpos k (hk.elim (fun hk => refs_pos_of_mem hk)
        fun ⟨j, hj, ho⟩ => refs_pos_of_origin hj ho)]
      exact .refl _
    refine hw.cons (fun r hr => ?_) (fun hv => absurd hv hm.not_view)
      (fun k hk hview _ hcap hblk => ?_) fun k _ r _ hr => ?_
    · simp [hm.origin] at hr
    · have hsize : 0 < size := by
        by_contra hle
        have := hm.bare (by omega)
        omega
      rw [hU k hk] at hview hblk
      exact absurd hblk (hs.view_ne (hm.block hsize).1 hk hview)
    · simp [hm.origin] at hr

theorem Made.keeps (hm : Made h h' cfg size i) (hi : refs h U i = 0) : Keeps h h' U K P := by
  have hpos : ∀ k, 0 < refs h U k → h'.nodes k = h.nodes k := fun k hk => hm.others k <| by
    rintro rfl
    omega
  refine .of_like hm.still (fun k hk => by rw [hpos k (refs_pos_of_mem hk)]) fun k hk r hr => ?_
  rw [hpos r (refs_pos_of_origin hk hr)]
  exact .refl _

def Heap.lay (h : Heap) (j : Nat) (s : Slice) : Heap :=
  h.set j { h.nodes j with buf := { s with len := 0 }, malloc := s.len }

theorem Safe.unsliced (hs : Safe h (j :: U) K P) (hr : (h.nodes j).refer = 1) :
    ∀ i ∈ j :: U, (h.nodes i).origin ≠ some j := by
  intro i hi ho
  have href := hs.counted.refer j (refs_pos_of_mem (by simp))
  have hcount : 0 < (j :: U).countP fun k => decide ((h.nodes k).origin = some j) :=
    List.countP_pos_iff.mpr ⟨i, hi, by simpa using ho⟩
  have hmem : 0 < (j :: U).count j := List.count_pos_iff.mpr (by simp)
  rw [hr, refs] at href
  omega

theorem Safe.lay (hs : Safe h (j :: U) K P) (hor : (h.nodes j).origin = none)
    (hro : (h.nodes j).readonly = true) (hcap : (h.nodes j).buf.cap = 0)
    (href : (h.nodes j).refer = 1) (hl : h.owner s.blk = .lent) :
    Safe (h.lay j s) (j :: U) K P ∧ Keeps h (h.lay j s) U K P := by
  have hjU : j ∉ U := (List.nodup_cons.mp hs.nodup).1
  have huns := hs.unsliced href
  have hj : 0 < refs h (j :: U) j := refs_pos_of_mem (by simp)
  have hsame : ∀ k, k ≠ j → (h.lay j s).nodes k = h.nodes k := fun k hk => by simp [Heap.lay, hk]
  have hU : ∀ k ∈ U, k ≠ j := by
    rintro k hk rfl
    exact hjU hk
  have hnode : (h.lay j s).nodes j =
      { h.nodes j with buf := { s with len := 0 }, malloc := s.len } := by simp [Heap.lay]
  have hrefs : refs (h.lay j s) (j :: U) = refs h (j :: U) := refs_congr fun k hk => by
    by_cases hkj : k = j
    · rw [hkj, hnode]
    · rw [hsame k hkj]
  have hvU : Viewed h U := fun k hk hv => (hs.woven.viewed k (by simp [hk]) hv).imp_right
    fun ⟨r, hr, hroot, hblk⟩ => by
      rcases List.mem_cons.mp hr with rfl | hr
      · exact absurd hroot.2.1 (by simp [hro])
      · exact ⟨r, hr, hroot, hblk⟩
  have hwU : Woven (h.lay j s) U :=
    (hs.woven.subset (fun k hk => by simp [hk]) hvU).like (fun _ => id)
    fun k hk => by
      have hkj : k ≠ j := by
        rcases hk with hk | ⟨i, hi, ho⟩
        · exact hU k hk
        · rintro rfl
          exact huns i (by simp [hi]) ho
      rw [hsame k hkj]
      exact .refl _
  have hne : ∀ k ∈ U, ∀ r, (h.nodes k).origin = some r → (h.nodes r).readonly = false →
      s.blk ≠ (h.nodes k).buf.blk := fun k hk r ho hro' he => by
    have hsl := hs.sliced (List.mem_cons_of_mem j hk) ho
    have h1 := hsl.fits
    have h2 := hsl.start
    have h3 := hsl.len
    have h4 := hsl.pos
    have := hs.counted.live r (refs_pos_of_origin (List.mem_cons_of_mem j hk) ho)
      ⟨hsl.origin, hro', by omega⟩
    rw [← hsl.blk, ← he] at this
    exact (Owner.held_ne this).2 hl
  refine ⟨⟨hs.nodup, hrefs ▸ hs.counted.assign (hs.counted.lt j hj) (hs.counted.unpooled j hj)
    (fun _ _ => rfl) (hs.counted.refer j hj) (fun hr => absurd hr.2.1 (by simp [hro]))
    fun _ hr => by simp [Node.reusable, hro] at hr, hwU.cons ?_ ?_ ?_ ?_⟩, ?_⟩
  · intro r hr
    rw [hnode] at hr
    simp [hor] at hr
  · intro _
    rw [hnode]
    refine ⟨hl, fun k hk r ho hro' => ?_⟩
    have hrj : r ≠ j := by
      rintro rfl
      rw [hsame k (hU k hk)] at ho
      exact huns k (by simp [hk]) ho
    rw [hsame k (hU k hk)] at ho ⊢
    rw [hsame r hrj] at hro'
    exact hne k hk r ho hro'
  · intro k hk _ _ _ hblk
    rw [hblk, hnode]
    exact hl
  · intro k hk r _ ho
    rw [hnode] at ho
    simp [hor] at ho
  · refine .of_like ⟨fun _ _ => rfl, rfl, le_rfl, le_rfl⟩ (fun k hk => by rw [hsame k (hU k hk)])
      fun k hk r ho => ?_
    rw [hsame r fun he => huns k (by simp [hk]) (he ▸ ho)]
    exact .refl _

theorem Slice.cut_eq {a b : Nat} (hab : a ≤ b) (hb : b ≤ s.cap) :
    s.cut a b = some ⟨s.blk, s.off + a, b - a, b - a⟩ := by
  simp [Slice.cut, hab, hb]

def Heap.advance (h : Heap) (i n : Nat) : Heap :=
  h.set i { h.nodes i with off := (h.nodes i).off + n }

def Node.front (node : Node) (n : Nat) : Slice := ⟨node.buf.blk, node.buf.off + node.off, n, n⟩

theorem Heap.nodeNext_eq (hn : (h.nodes i).off + n ≤ (h.nodes i).buf.cap) :
    h.nodeNext i n = some ((h.nodes i).front n, h.advance i n) := by
  simp [Heap.nodeNext, Slice.cut_eq (Nat.le_add_right _ _) hn, Node.front, Heap.advance]

theorem Heap.nodePeek_eq (hn : (h.nodes i).off + n ≤ (h.nodes i).buf.cap) :
    h.nodePeek i n = some ((h.nodes i).front n) := by
  simp [Heap.nodePeek, Slice.cut_eq (Nat.le_add_right _ _) hn, Node.front]

theorem Heap.advance_like (i n : Nat) (k : Nat) :
    (h.nodes k).Like ((h.advance i n).nodes k) ∧
      ((h.advance i n).nodes k).refer = (h.nodes k).refer := by
  by_cases hk : k = i
  · subst hk
    simp only [Heap.advance, Heap.set_nodes, Function.update_self, and_true]
    exact ⟨rfl, rfl, rfl, le_rfl, id, rfl, id, rfl, Nat.le_add_right _ _, fun _ => le_rfl⟩
  · simp [Heap.advance, hk, Node.Like.refl]

def Node.slice (node : Node) (r n : Nat) : Node :=
  { buf := node.front n, readonly := true, origin := some r }

theorem Heap.nodeRefer_eq {h₁ : Heap} (hnew : h.newLinkBufferNode cfg 0 = (j, h₁))
    (hm : Made h h₁ cfg 0 j) (hij : i ≠ j) (hn : (h.nodes i).off + n ≤ (h.nodes i).buf.cap)
    (hr : (h.nodes i).origin.getD i = r) (hrj : r ≠ j) :
    ∃ nodes, h.nodeRefer cfg i n = some (j, { h₁ with nodes := nodes }) ∧
      nodes j = (h.nodes i).slice r n ∧
      ∀ k, k ≠ j → (nodes k).bare = ((h.advance i n).nodes k).bare ∧
        (nodes k).refer = (h.nodes k).refer + if k = r then 1 else 0 := by
  have hi : h₁.nodes i = h.nodes i := hm.others i hij
  have hnext : h₁.nodeNext i n = some ((h.nodes i).front n, h₁.advance i n) := by
    rw [Heap.nodeNext_eq (by rwa [hi]), hi]
  have hori : ((h₁.advance i n).nodes i).origin.getD i = r := by
    simp [Heap.advance, hi, hr]
  have hj : (h₁.advance i n).nodes j = h₁.nodes j := by simp [Heap.advance, hij.symm]
  refine ⟨_, by simp only [Heap.nodeRefer, hnew, hnext, hori, Option.pure_def, Option.bind_eq_bind,
    Option.bind_some]; rfl, ?_, fun k hk => ?_⟩
  · simp [Ne.symm hrj, hj, Node.slice, hm.off, hm.malloc, hm.refer, hm.readonly,
      hm.nocopyRead, hm.next]
  · have hok : h₁.nodes k = h.nodes k := hm.others k hk
    by_cases hkr : k = r <;> by_cases hki : k = i <;>
      simp_all [Heap.advance, Node.bare]

theorem Safe.slice_of (hs : Safe h U K P) (hi : i ∈ U) (hpos : 0 < n)
    (hn : (h.nodes i).off + n ≤ (h.nodes i).buf.len)
    (hcap : (h.nodes i).buf.len ≤ (h.nodes i).buf.cap) :
    SliceOf ((h.nodes i).slice ((h.nodes i).origin.getD i) n)
      (h.nodes ((h.nodes i).origin.getD i)) := by
  cases ho : (h.nodes i).origin with
  | none =>
    constructor <;> simp [Node.slice, Node.front, ho, hcap, hpos]
    omega
  | some r =>
    have hsl := hs.sliced hi ho
    have h1 := hsl.fits
    have h2 := hsl.start
    constructor <;> simp [Node.slice, Node.front, hsl.origin, hsl.blk, hsl.len] <;> omega

theorem Safe.clear_front {k : Nat} (hs : Safe h U K P) (hi : i ∈ U) (hk : k ∈ U)
    (hv : (h.nodes k).view) (hro : (h.nodes ((h.nodes i).origin.getD i)).readonly = false)
    (hcap : 0 < (h.nodes i).buf.cap) (hblk : (h.nodes k).buf.blk = (h.nodes i).buf.blk) :
    (h.nodes k).buf.off + (h.nodes k).malloc ≤ (h.nodes i).buf.off + (h.nodes i).off := by
  cases ho : (h.nodes i).origin with
  | none =>
    simp only [ho, Option.getD_none] at hro
    have hki : k ≠ i := by
      rintro rfl
      rw [hv.2.1] at hro
      cases hro
    have hlive := hs.counted.live i (refs_pos_of_mem hi) ⟨ho, hro, hcap⟩
    have hp := hs.woven.parted k hk i hi hki hv ho hcap hblk (hblk ▸ (Owner.held_ne hlive).2)
    have h1 := hp.1
    rcases hp.2 with hle | ⟨hr, -⟩
    · omega
    · rw [hr] at hro
      cases hro
  | some r =>
    simp only [ho, Option.getD_some] at hro
    have := hs.woven.clear k hk i hi r hv ho hro hblk
    omega

theorem Safe.refer (hs : Safe h U K P) (cfg : Config) (hi : i ∈ U) (hpos : 0 < n)
    (hn : (h.nodes i).off + n ≤ (h.nodes i).buf.len)
    (hcap : (h.nodes i).buf.len ≤ (h.nodes i).buf.cap) :
    ∃ j h', h.nodeRefer cfg i n = some (j, h') ∧ refs h U j = 0 ∧ Safe h' (j :: U) K P ∧
      h'.mem = h.mem ∧ Still h h' ∧
      h'.nodes j = (h.nodes i).slice ((h.nodes i).origin.getD i) n ∧
      ∀ k, k ≠ j → (h'.nodes k).bare = ((h.advance i n).nodes k).bare := by
  obtain ⟨j, h₁, hnew, hj, hs₁, hm⟩ := hs.newNode cfg 0
  set r := (h.nodes i).origin.getD i with hr
  have hne : ∀ k, 0 < refs h U k → k ≠ j := by
    rintro k hk rfl
    omega
  have hrpos : 0 < refs h U r := by
    cases ho : (h.nodes i).origin with
    | none => simpa [hr, ho] using refs_pos_of_mem hi
    | some r' => simpa [hr, ho] using refs_pos_of_origin hi ho
  have hij := hne i (refs_pos_of_mem hi)
  have hrj := hne r hrpos
  obtain ⟨nodes, href, hnj, hnk⟩ := Heap.nodeRefer_eq hnew hm hij (hn.trans hcap) hr.symm hrj
  set h' : Heap := { h₁ with nodes := nodes } with hh'
  have hlike : ∀ k, k ≠ j → (h.nodes k).Like (nodes k) := fun k hk =>
    (Heap.advance_like i n k).1.trans (.of_bare (hnk k hk).1)
  have hU : ∀ k ∈ U, k ≠ j := fun k hk => hne k (refs_pos_of_mem hk)
  have hU' : refs h' U = refs h U := refs_congr fun k hk => (hlike k (hU k hk)).origin
  have hU₁ : refs h₁ U = refs h U := refs_congr fun k hk => by rw [hm.others k (hU k hk)]
  have hrefs : ∀ k, refs h' (j :: U) k = refs h₁ (j :: U) k + if r = k then 1 else 0 := by
    intro k
    have ho : (h'.nodes j).origin = some r := by simp [hh', hnj, Node.slice]
    simp only [refs_cons, hU', hU₁, ho, hm.origin, Option.some.injEq, reduceCtorEq, if_false,
      Nat.add_zero]
  have hc : Counted (h₁.set j (nodes j)) (refs h₁ (j :: U)) K P := by
    have hj' : 0 < refs h₁ (j :: U) j := refs_pos_of_mem (by simp)
    refine hs₁.counted.assign (hs₁.counted.lt j hj') (hs₁.counted.unpooled j hj')
      (fun _ _ => rfl) ?_ ?_ ?_
    · have := hs₁.counted.refer j hj'
      rwa [hm.refer, ← (show (nodes j).refer = 1 by simp [hnj, Node.slice])] at this
    · simp [hnj, Node.slice, Node.root]
    · simp [hnj, Node.slice, Node.reusable]
  refine ⟨j, h', href, hj, ⟨hs₁.nodup, ?_, ?_⟩, hm.mem,
    ⟨hm.still.owner, hm.still.freed, hm.still.fresh, hm.still.top⟩, hnj, fun k hk => (hnk k hk).1⟩
  · have hlt : ∀ k, 0 < refs h' (j :: U) k → 0 < refs h₁ (j :: U) k := fun k hk => by
      by_cases hkr : r = k
      · rw [← hkr, refs_cons, hU₁]
        omega
      · simpa [hrefs, hkr] using hk
    refine hc.congr rfl rfl rfl rfl hlt (fun k _ => ?_) (fun k hk => ?_) fun k hk => ?_
    · by_cases hkj : k = j
      · subst hkj
        simpa [hh'] using (Node.Like.refl _).kin
      · simpa [hh', hkj, hm.others k hkj] using (hlike k hkj).kin
    · by_cases hkj : k = j
      · subst hkj
        have h1 : refs h' (k :: U) k = 1 := by
          simp [hrefs, hrj, refs_cons, hU₁, hj, hm.origin]
        rw [h1, show (h'.nodes k).refer = 1 by simp [hh', hnj, Node.slice]]
        decide
      · have h1 := hs₁.counted.refer k (hlt k hk)
        rw [hm.others k hkj] at h1
        have h2 : (h'.nodes k).refer = (h.nodes k).refer + if k = r then 1 else 0 := (hnk k hkj).2
        rw [h2, hrefs]
        by_cases hkr : k = r
        · simp [hkr] at h1 ⊢
          omega
        · simpa [hkr, Ne.symm hkr] using h1
    · have hki : ∀ l, 0 < refs h₁ (j :: U) l → k ≠ l := by
        rintro l hl rfl
        exact hs₁.counted.unpooled k hl hk
      have hkj := hki j (refs_pos_of_mem (by simp))
      have hkr : k ≠ r := hki r (by rw [refs_cons, hU₁]; omega)
      have hkn : k ≠ i := hki i (refs_pos_of_mem (by simp [hi]))
      simp only [hh', Heap.set_nodes, Function.update_of_ne hkj, hm.others k hkj]
      exact Node.eq_of_bare (by simpa [Heap.advance, hkn] using (hnk k hkj).1)
        (by simpa [hkr] using (hnk k hkj).2)
  · have hw : Woven h' U := hs.woven.like hm.still.lent fun k hk => hlike k (hne k (by
      rcases hk with hk | ⟨l, hl, ho⟩
      · exact refs_pos_of_mem hk
      · exact refs_pos_of_origin hl ho))
    have hj' : h'.nodes j = (h.nodes i).slice r n := hnj
    refine hw.cons (fun r' hr' => ?_) (fun hv => ?_) (fun k _ _ ho => ?_)
      fun k hk r' hv hr' hro hblk => ?_
    · simp only [hj', Node.slice, Option.some.injEq] at hr'
      subst hr'
      rw [hj']
      exact (hs.slice_of hi hpos hn hcap).like (.refl _) (hlike r hrj)
    · simp [hj', Node.slice, Node.view] at hv
    · simp [hj', Node.slice] at ho
    · simp only [hj', Node.slice, Option.some.injEq] at hr'
      subst hr'
      have hk' : (h.nodes k).Like (h'.nodes k) := hlike k (hU k hk)
      have hv := hk'.view.mp hv
      have hwr := hk'.written hv.2.1
      rw [hk'.blk, hj'] at hblk
      have hro : (h.nodes r).readonly = false := (hlike r hrj).readonly ▸ hro
      have hclear := hs.clear_front hi hk hv hro (by omega) hblk
      rw [hk'.off, hj']
      simp only [Node.slice, Node.front]
      omega

end Netpoll.Nocopy
