import Netpoll.Nocopy.Append

namespace Netpoll.Nocopy

open Netpoll.Lib Netpoll.Lib.Memory LinkBuffer

variable {h h' : Heap} {b b' : LinkBuffer} {p p' : Parts} {U V : List Nat}
  {K : List Slice} {P : Nat → Prop} {L M N X Y Z : List Nat} {i j k d n m r cut fuel : Nat}
  {s : Slice} {cfg : Config}

theorem cutLoop_spec {node e : Option Nat} (hL : Chain.Seg (fun i => (h.nodes i).next) node L e)
    (hfit : ∀ i ∈ L, (h.nodes i).Fit ∧ (h.nodes i).origin = none) (hne : L ≠ [])
    (hn : n ≤ (h.unflushed L).length) (hf : L.length < fuel) :
    ∃ M i N, ∃ m : Nat, L = M ++ i :: N ∧ cutLoop fuel h node n = some (i, (m : Int)) ∧
      m ≤ (h.pending i).length ∧ (h.unflushed M).length + m = n := by
  induction L generalizing node n fuel with
  | nil => exact absurd rfl hne
  | cons i L ih =>
    obtain ⟨f, rfl, hB⟩ := Chain.steps_of_length_lt hf
    obtain ⟨rfl, hL⟩ := hL
    have hg := (hfit i (by simp)).1.grown (hfit i (by simp)).2
    by_cases hle : n ≤ (h.nodes i).malloc - (h.nodes i).buf.len
    · refine ⟨[], i, L, n, rfl, ?_, by simpa using hle, by simp⟩
      have hlt : ¬ ((h.nodes i).malloc : Int) - (h.nodes i).buf.len < n := by omega
      simp [cutLoop, hlt]
    · have hn' : n - ((h.nodes i).malloc - (h.nodes i).buf.len) ≤ (h.unflushed L).length := by
        simp [Heap.unflushed_cons] at hn
        omega
      have hne' : L ≠ [] := by
        rintro rfl
        simp at hn'
        omega
      obtain ⟨M, j, N, m, rfl, hloop, hm, hsum⟩ :=
        ih hL (fun k hk => hfit k (by simp [hk])) hne' hn' hB
      refine ⟨i :: M, j, N, m, rfl, ?_, hm, ?_⟩
      · have hlt : ((h.nodes i).malloc : Int) - (h.nodes i).buf.len < n := by omega
        have hcast : (n : Int) - ((h.nodes i).malloc - (h.nodes i).buf.len) =
            ((n - ((h.nodes i).malloc - (h.nodes i).buf.len) : Nat) : Int) := by omega
        simp only [cutLoop, Option.bind_eq_bind, Option.bind_some, if_pos hlt, hcast]
        exact hloop
      · simp only [Heap.unflushed_cons, List.length_append, Heap.length_pending]
        omega

theorem lastLoop_spec {node : Option Nat} (hL : Chain.Seg (fun i => (h.nodes i).next) node L none)
    (hne : L ≠ []) (hf : L.length < fuel) : lastLoop h fuel node = some L.getLast? := by
  induction L generalizing node fuel with
  | nil => exact absurd rfl hne
  | cons i L ih =>
    obtain ⟨f, rfl, hB⟩ := Chain.steps_of_length_lt hf
    obtain ⟨rfl, hL⟩ := hL
    cases L with
    | nil =>
      simp only [Chain.seg_nil] at hL
      simp [lastLoop, hL]
    | cons j L =>
      have hstep : lastLoop h (f + 1) (some i) = lastLoop h f (some j) := by
        simp [lastLoop, show (h.nodes i).next = some j from hL.1]
      rw [hstep, ih ⟨rfl, hL.2⟩ (by simp) hB, List.getLast?_cons_cons]

theorem lastLoop_of_mem {node : Option Nat} (hL : Chain.Seg (fun i => (h.nodes i).next) node L none)
    (hi : i ∈ L) (hf : L.length < fuel) : lastLoop h fuel (some i) = some L.getLast? := by
  obtain ⟨X, Y, rfl⟩ := List.append_of_mem hi
  obtain ⟨c, -, hc⟩ := Chain.seg_append.mp hL
  have hlen : (i :: Y).length < fuel := by
    simp only [List.length_append] at hf
    omega
  obtain rfl : c = some i := hc.1
  rw [lastLoop_spec hc (by simp) hlen, List.getLast?_append_of_ne_nil _ (by simp)]

def Heap.part (h : Heap) (i j cut : Nat) : Heap :=
  (h.set i { h.nodes i with malloc := cut, readonly := true }).set j
    { h.nodes j with off := cut, buf := { (h.nodes i).buf with len := cut },
                     malloc := (h.nodes i).malloc, readonly := false }

theorem Heap.part_left (hij : i ≠ j) :
    (h.part i j cut).nodes i = { h.nodes i with malloc := cut, readonly := true } := by
  simp [Heap.part, hij]

theorem Heap.part_right : (h.part i j cut).nodes j =
    { h.nodes j with off := cut, buf := { (h.nodes i).buf with len := cut },
                     malloc := (h.nodes i).malloc, readonly := false } := by
  simp [Heap.part]

theorem Heap.part_of_ne (hi : k ≠ i) (hj : k ≠ j) : (h.part i j cut).nodes k = h.nodes k := by
  simp [Heap.part, hi, hj]

structure Splits (h : Heap) (V : List Nat) (K : List Slice) (P : Nat → Prop) (i j cut : Nat) :
    Prop where
  safe : Safe h (j :: V) K P
  mem : i ∈ V
  root : (h.nodes i).root
  off : (h.nodes i).off ≤ cut
  origin : (h.nodes j).origin = none
  cap : (h.nodes j).buf.cap = 0
  refer : (h.nodes j).refer = 1
  pin : ¬ P (h.nodes i).buf.blk

namespace Splits

theorem ne (hp : Splits h V K P i j cut) : i ≠ j := by
  rintro rfl
  exact (List.nodup_cons.mp hp.safe.nodup).1 hp.mem

theorem refs_left (hp : Splits h V K P i j cut) : 0 < refs h (j :: V) i :=
  refs_pos_of_mem (List.mem_cons_of_mem _ hp.mem)

theorem refs_right (_ : Splits h V K P i j cut) : 0 < refs h (j :: V) j :=
  refs_pos_of_mem List.mem_cons_self

theorem part_origin (hp : Splits h V K P i j cut) (k : Nat) :
    ((h.part i j cut).nodes k).origin = (h.nodes k).origin := by
  by_cases hkj : k = j
  · rw [hkj, Heap.part_right]
  · by_cases hki : k = i
    · rw [hki, Heap.part_left hp.ne]
    · rw [Heap.part_of_ne hki hkj]

theorem view_ne (_ : Splits h V K P i j cut) (hv : ((h.part i j cut).nodes k).view) : k ≠ j := by
  rintro rfl
  rw [Heap.part_right] at hv
  exact absurd hv.2.1 (by simp)

theorem slice_ne (hp : Splits h V K P i j cut) {r : Nat} (hr : (h.nodes k).origin = some r) :
    k ≠ i ∧ k ≠ j := by
  constructor
  · rintro rfl
    rw [hp.root.1] at hr
    cases hr
  · rintro rfl
    rw [hp.origin] at hr
    cases hr

theorem sliced_ne (hp : Splits h V K P i j cut) {r : Nat} (hk : k ∈ j :: V)
    (hr : (h.nodes k).origin = some r) : r ≠ j := by
  rintro rfl
  exact hp.safe.unsliced hp.refer k hk hr

theorem earlier (hp : Splits h V K P i j cut) (hk : k ∈ j :: V) (hki : k ≠ i)
    (ho : (h.nodes k).origin = none) (hc : 0 < (h.nodes k).buf.cap)
    (hblk : (h.nodes k).buf.blk = (h.nodes i).buf.blk) :
    (h.nodes k).readonly = true ∧ (h.nodes k).buf.off = (h.nodes i).buf.off ∧
      (h.nodes k).malloc ≤ (h.nodes i).off := by
  have hcount := hp.safe.counted
  have hro : (h.nodes k).readonly = true := by
    by_contra hro
    exact hki (hcount.distinct k i (refs_pos_of_mem hk) hp.refs_left
      ⟨ho, by simpa using hro, hc⟩ hp.root hblk)
  have hlive := Owner.held_ne (hcount.live i hp.refs_left hp.root)
  have hparted := hp.safe.woven.parted k hk i (List.mem_cons_of_mem _ hp.mem) hki ⟨ho, hro, hc⟩
    hp.root.1
    hp.root.2.2 hblk (hblk ▸ hlive.2)
  refine ⟨hro, hparted.1, hparted.2.resolve_right fun hr => ?_⟩
  simp [hp.root.2.1] at hr

theorem counted (hp : Splits h V K P i j cut) :
    Counted (h.part i j cut) (refs (h.part i j cut) (j :: V)) K P := by
  have hs := hp.safe.counted
  have hpi := hp.refs_left
  have hpj := hp.refs_right
  rw [refs_congr fun k _ => hp.part_origin k]
  have hc₁ : Counted (h.set i { h.nodes i with malloc := cut, readonly := true }) (refs h (j :: V))
    K P :=
    hs.assign (hs.lt i hpi) (hs.unpooled i hpi) (fun _ _ => rfl) (hs.refer i hpi)
      (fun hr => absurd hr.2.1 (by simp)) fun _ hr => by simp [Node.reusable] at hr
  refine hc₁.assign (hs.lt j hpj) (hs.unpooled j hpj) (fun _ _ => rfl) ?_
    (fun _ => ⟨hs.live i hpi hp.root, hs.own i hpi hp.root, fun k hkj hk hr => ?_,
      fun q hq => hs.apart i q hq hpi hp.root⟩) fun _ _ => ⟨⟨hp.origin, rfl, hp.root.2.2⟩, hp.pin⟩
  · simpa [Heap.set, Ne.symm hp.ne] using hs.refer j hpj
  · by_cases hki : k = i
    · subst hki
      simp [Node.root] at hr
    · simp only [Heap.set_nodes, Function.update_of_ne hki] at hr ⊢
      exact fun he => hki (hs.distinct k i hk hpi hr hp.root he)

theorem sliced (hp : Splits h V K P i j cut) {r : Nat} (hk : k ∈ j :: V)
    (hr : ((h.part i j cut).nodes k).origin = some r) :
    SliceOf ((h.part i j cut).nodes k) ((h.part i j cut).nodes r) := by
  rw [hp.part_origin] at hr
  obtain ⟨hki, hkj⟩ := hp.slice_ne hr
  have hsl := hp.safe.sliced hk hr
  rw [Heap.part_of_ne hki hkj]
  by_cases hri : r = i
  · rw [hri, Heap.part_left hp.ne]
    rw [hri] at hsl
    exact ⟨hsl.origin, hsl.readonly, hsl.blk, hsl.start, hsl.fits, hsl.len, hsl.pos⟩
  · rw [Heap.part_of_ne hri (hp.sliced_ne hk hr)]
    exact hsl

theorem viewed (hp : Splits h V K P i j cut) : Viewed (h.part i j cut) (j :: V) := by
  intro k hk hv
  have hnew : ((h.part i j cut).nodes j).root ∧
      ((h.part i j cut).nodes j).buf.blk = (h.nodes i).buf.blk := by
    rw [Heap.part_right]
    exact ⟨⟨hp.origin, rfl, hp.root.2.2⟩, rfl⟩
  by_cases hki : k = i
  · refine .inr ⟨j, by simp, ?_⟩
    rw [hki, Heap.part_left hp.ne]
    exact hnew
  · have hkj := hp.view_ne hv
    rw [Heap.part_of_ne hki hkj] at hv ⊢
    refine (hp.safe.woven.viewed k hk hv).imp_right ?_
    rintro ⟨r, hr, hrr, hblk⟩
    by_cases hri : r = i
    · exact ⟨j, by simp, hnew.1, hnew.2.trans (hri ▸ hblk)⟩
    · have hrj : r ≠ j := by
        rintro rfl
        exact absurd hrr.2.2 (by simp [hp.cap])
      refine ⟨r, hr, ?_⟩
      rw [Heap.part_of_ne hri hrj]
      exact ⟨hrr, hblk⟩

theorem parted (hp : Splits h V K P i j cut) {a c : Nat} (ha : a ∈ j :: V) (hc : c ∈ j :: V)
    (hac : a ≠ c) (hv : ((h.part i j cut).nodes a).view)
    (ho : ((h.part i j cut).nodes c).origin = none) (hcap : 0 < ((h.part i j cut).nodes c).buf.cap)
    (hblk : ((h.part i j cut).nodes a).buf.blk = ((h.part i j cut).nodes c).buf.blk)
    (hne : h.owner ((h.part i j cut).nodes a).buf.blk ≠ .lent) :
    ((h.part i j cut).nodes a).Parted ((h.part i j cut).nodes c) := by
  have haj := hp.view_ne hv
  rw [hp.part_origin] at ho
  by_cases hai : a = i
  · subst hai
    rw [Heap.part_left hp.ne] at hblk ⊢
    by_cases hcj : c = j
    · subst hcj
      rw [Heap.part_right]
      exact ⟨rfl, .inl le_rfl⟩
    · rw [Heap.part_of_ne (Ne.symm hac) hcj] at hcap hblk ⊢
      obtain ⟨hro, h1, h2⟩ := hp.earlier hc (Ne.symm hac) ho hcap hblk.symm
      exact ⟨h1.symm, .inr ⟨hro, h2⟩⟩
  · rw [Heap.part_of_ne hai haj] at hv hblk hne ⊢
    by_cases hci : c = i
    · subst hci
      rw [Heap.part_left hp.ne] at hblk ⊢
      obtain ⟨-, h1, h2⟩ := hp.earlier ha hai hv.1 hv.2.2 hblk
      exact ⟨h1, .inl h2⟩
    · by_cases hcj : c = j
      · subst hcj
        rw [Heap.part_right] at hblk ⊢
        obtain ⟨-, h1, h2⟩ := hp.earlier ha hai hv.1 hv.2.2 hblk
        exact ⟨h1, .inl (h2.trans hp.off)⟩
      · rw [Heap.part_of_ne hci hcj] at hcap hblk ⊢
        exact hp.safe.woven.parted a ha c hc hac hv ho hcap hblk hne

theorem clear (hp : Splits h V K P i j cut) {a c r : Nat} (ha : a ∈ j :: V) (hc : c ∈ j :: V)
    (hv : ((h.part i j cut).nodes a).view) (ho : ((h.part i j cut).nodes c).origin = some r)
    (hro : ((h.part i j cut).nodes r).readonly = false)
    (hblk : ((h.part i j cut).nodes a).buf.blk = ((h.part i j cut).nodes c).buf.blk) :
    ((h.part i j cut).nodes a).buf.off + ((h.part i j cut).nodes a).malloc ≤
      ((h.part i j cut).nodes c).buf.off := by
  rw [hp.part_origin] at ho
  have hri : r ≠ i := by
    rintro rfl
    rw [Heap.part_left hp.ne] at hro
    cases hro
  obtain ⟨hci, hcj⟩ := hp.slice_ne ho
  rw [Heap.part_of_ne hri (hp.sliced_ne hc ho)] at hro
  have haj := hp.view_ne hv
  have hsl := hp.safe.sliced hc ho
  by_cases hai : a = i
  · subst hai
    rw [Heap.part_left hp.ne, Heap.part_of_ne hci hcj] at hblk
    have h1 := hsl.fits
    have h2 := hsl.start
    have h3 := hsl.len
    have h4 := hsl.pos
    exact absurd (hp.safe.counted.distinct r a (refs_pos_of_origin hc ho) hp.refs_left
      ⟨hsl.origin, hro, by omega⟩ hp.root (by rw [← hsl.blk, hblk])) hri
  · rw [Heap.part_of_ne hai haj] at hv hblk ⊢
    rw [Heap.part_of_ne hci hcj] at hblk ⊢
    exact hp.safe.woven.clear a ha c hc r hv ho hro hblk

theorem part (hp : Splits h V K P i j cut) : Safe (h.part i j cut) (j :: V) K P :=
  ⟨hp.safe.nodup, hp.counted, fun _ hk _ hr => hp.sliced hk hr, hp.viewed,
    fun _ ha _ hc hac hv ho hcap hblk hne => hp.parted ha hc hac hv ho hcap hblk hne,
    fun _ ha _ hc _ hv ho hro hblk => hp.clear ha hc hv ho hro hblk⟩

end Splits

theorem Owned.insert (ho : Owned h (X ++ Y)) (hro : (h.nodes d).readonly = true)
    (hd : (h.nodes d).view → h.owner (h.nodes d).buf.blk = .lent) : Owned h (X ++ d :: Y) := by
  induction X with
  | nil => exact ⟨fun hv => .inl (hd hv), ho⟩
  | cons x X ih =>
    refine ⟨fun hv => (ho.1 hv).imp_right fun ⟨L₁, k, L₂, he, hr, hk⟩ => ?_, ih ho.2⟩
    rcases List.append_eq_append_iff.mp he with ⟨l, rfl, hl⟩ | ⟨l, rfl, hl⟩
    · refine ⟨X ++ d :: l, k, L₂, by simp [hl], fun y hy => ?_, hk⟩
      simp only [List.mem_append, List.mem_cons] at hy
      rcases hy with hy | rfl | hy
      · exact hr y (by simp [hy])
      · exact hro
      · exact hr y (by simp [hy])
    · cases l with
      | nil =>
        refine ⟨L₁ ++ [d], k, L₂, by simp [show Y = k :: L₂ by simpa using hl.symm], fun y hy => ?_,
          hk⟩
        rcases List.mem_append.mp hy with hy | hy
        · exact hr y hy
        · rw [List.mem_singleton.mp hy]
          exact hro
      | cons y l =>
        obtain ⟨rfl, rfl⟩ := List.cons.inj hl
        exact ⟨L₁, k, l ++ d :: Y, by simp, hr, hk⟩

theorem Owned.part (ho : Owned h (X ++ i :: Y)) (hroot : (h.nodes i).root) (hij : i ≠ j)
    (hj : (h.nodes j).origin = none) (hX : ∀ k ∈ X ++ Y, k ≠ i ∧ k ≠ j) :
    Owned (h.part i j cut) (X ++ i :: j :: Y) := by
  have hjr : ((h.part i j cut).nodes j).root := by
    rw [Heap.part_right]
    exact ⟨hj, rfl, hroot.2.2⟩
  have hsame : ∀ k ∈ X ++ Y, (h.part i j cut).nodes k = h.nodes k := fun k hk =>
    Heap.part_of_ne (hX k hk).1 (hX k hk).2
  induction X with
  | nil =>
    refine ⟨fun _ => .inr ⟨[], j, Y, rfl, by simp, hjr, ?_⟩, fun hv => ?_,
      ho.2.like (fun _ => id) fun k hk => ?_⟩
    · rw [Heap.part_left hij, Heap.part_right]
    · exact absurd hv.2.1 (by simp [hjr.2.1])
    · rw [hsame k hk]
      exact .refl _
  | cons x X ih =>
    refine ⟨fun hv => ?_, ih ho.2 (fun k hk => hX k (by simp_all))
      fun k hk => hsame k (by simp_all)⟩
    rw [hsame x (by simp)] at hv ⊢
    refine (ho.1 hv).imp_right fun ⟨L₁, k, L₂, he, hr, hk, hblk⟩ => ?_
    have hleft : L₁ = X → k = i → ∃ L₁ k L₂, X ++ i :: j :: Y = L₁ ++ k :: L₂ ∧
        (∀ y ∈ L₁, ((h.part i j cut).nodes y).readonly = true) ∧ ((h.part i j cut).nodes k).root ∧
          ((h.part i j cut).nodes k).buf.blk = (h.nodes x).buf.blk := by
      rintro rfl rfl
      refine ⟨L₁ ++ [k], j, Y, by simp, fun y hy => ?_, hjr, ?_⟩
      · rcases List.mem_append.mp hy with hy | hy
        · rw [hsame y (by simp [hy])]
          exact hr y hy
        · rw [List.mem_singleton.mp hy, Heap.part_left hij]
      · rw [Heap.part_right]
        exact hblk
    rcases List.append_eq_append_iff.mp he with ⟨l, rfl, hl⟩ | ⟨l, rfl, hl⟩
    · cases l with
      | nil => exact hleft (by simp) (List.cons.inj hl).1.symm
      | cons y l =>
        obtain ⟨rfl, -⟩ := List.cons.inj hl
        exact absurd (hr i (by simp)) (by simp [hroot.2.1])
    · cases l with
      | nil => exact hleft (by simp) (List.cons.inj hl).1
      | cons y l =>
        obtain ⟨rfl, rfl⟩ := List.cons.inj hl
        refine ⟨L₁, k, l ++ i :: j :: Y, by simp, fun y hy => ?_, ?_, ?_⟩
        · rw [hsame y (by simp [hy])]
          exact hr y hy
        · rw [hsame k (by simp)]
          exact hk
        · rw [hsame k (by simp)]
          exact hblk

structure DirectPost (h h' : Heap) (b b' : LinkBuffer) (p p' : Parts) (s : Slice) (r : Nat)
    (U : List Nat) (K : List Slice) (P : Nat → Prop) : Prop where
  buffer : Buffer h' b' p'
  safe : Safe h' (p'.all ++ U) (b'.kept ++ K) P
  still : Still h h'
  node : ∀ k ∈ U, h'.nodes k = h.nodes k
  mem : h'.mem = h.mem
  kept : b'.kept = b.kept
  readable : h'.content p'.early = h.content p.early
  pending : h'.unflushed p'.back =
    (h.unflushed p.back).take ((h.unflushed p.back).length - r) ++ s.cells ++
      (h.unflushed p.back).drop ((h.unflushed p.back).length - r)
  content : h'.content p'.back.tail = h.content p.back.tail
  grows : Grows h h' p.all p'.all
  back : p'.back ≠ []

structure Inserted (h h' : Heap) (i : Nat) (Z : List Nat) : Prop where
  others : ∀ k, k ≠ i → k ∉ Z → h'.nodes k = h.nodes k
  next : Chain.Seg (fun k => (h'.nodes k).next) (h'.nodes i).next Z (h.nodes i).next
  ready : h'.ready i = h.ready i
  fit : ∀ k ∈ i :: Z, (h'.nodes k).Fit
  origin : ∀ k ∈ i :: Z, (h'.nodes k).origin = none
  empty : ∀ k ∈ Z, h'.ready k = []

theorem Inserted.seg {a : Option Nat} (hi : Inserted h h' i Z)
    (hs : Chain.Seg (fun k => (h.nodes k).next) a (X ++ i :: Y) none)
    (hX : ∀ k ∈ X ++ Y, k ≠ i ∧ k ∉ Z) :
    Chain.Seg (fun k => (h'.nodes k).next) a (X ++ i :: (Z ++ Y)) none := by
  obtain ⟨c, hl, hc, hr⟩ := Chain.seg_append.mp hs
  have hn : ∀ k ∈ X ++ Y, (h'.nodes k).next = (h.nodes k).next := fun k hk => by
    rw [hi.others k (hX k hk).1 (hX k hk).2]
  refine Chain.seg_append.mpr ⟨c, hl.congr fun k hk => hn k (by simp [hk]), hc,
    Chain.seg_append.mpr ⟨_, hi.next, hr.congr fun k hk => hn k (by simp [hk])⟩⟩

structure Spliced (h h' : Heap) (p : Parts) (M : List Nat) (i : Nat) (Z N : List Nat) : Prop
    extends Inserted h h' i Z where
  back : p.back = M ++ i :: N
  nodup : p.all.Nodup
  new : ∀ k ∈ Z, k ∉ p.all

namespace Spliced

theorem all (hi : Spliced h h' p M i Z N) :
    p.all = p.old ++ p.front ++ M ++ i :: (N ++ p.spare) := by
  simp [Parts.all, hi.back]

theorem mem (hi : Spliced h h' p M i Z N) : i ∈ p.all := by
  simp [hi.all]

theorem mem_all (hi : Spliced h h' p M i Z N) (hk : k ∈ p.old ++ p.front ++ M ++ (N ++ p.spare)) :
    k ∈ p.all := by
  rw [hi.all]
  simp only [List.mem_append, List.mem_cons] at hk ⊢
  tauto

theorem apart (hi : Spliced h h' p M i Z N) (hk : k ∈ p.old ++ p.front ++ M ++ (N ++ p.spare)) :
    k ≠ i ∧ k ∉ Z := by
  refine ⟨?_, fun hkZ => hi.new k hkZ (hi.mem_all hk)⟩
  rintro rfl
  exact (List.nodup_cons.mp (List.nodup_middle.mp (hi.all ▸ hi.nodup))).1 hk

theorem same (hi : Spliced h h' p M i Z N) (hk : k ∈ p.old ++ p.front ++ M ++ (N ++ p.spare)) :
    h'.nodes k = h.nodes k :=
  hi.others k (hi.apart hk).1 (hi.apart hk).2

theorem ready_same (hi : Spliced h h' p M i Z N)
    (hk : k ∈ p.old ++ p.front ++ M ++ (N ++ p.spare)) :
    h'.ready k = h.ready k := by
  simp only [Heap.ready, hi.same hk]

theorem pending_same (hi : Spliced h h' p M i Z N)
    (hk : k ∈ p.old ++ p.front ++ M ++ (N ++ p.spare)) :
    h'.pending k = h.pending k := by
  simp only [Heap.pending, hi.same hk]

theorem cases (_ : Spliced h h' p M i Z N)
    (hk : k ∈ p.old ++ p.front ++ (M ++ i :: (Z ++ (N ++ p.spare)))) :
    k ∈ i :: Z ∨ k ∈ p.old ++ p.front ++ M ++ (N ++ p.spare) := by
  simp only [List.mem_append, List.mem_cons] at hk ⊢
  tauto

theorem head (hi : Spliced h h' p M i Z N) :
    (M ++ i :: (Z ++ (N ++ p.spare))).head? = p.back.head? := by
  rw [hi.back]
  cases M <;> rfl

theorem unflushed (hi : Spliced h h' p M i Z N) (hb : Buffer h b p) :
    h'.unflushed (M ++ i :: (Z ++ (N ++ p.spare))) =
      h.unflushed M ++ (h'.pending i ++ (h'.unflushed Z ++ h.unflushed N)) := by
  have hM : h'.unflushed M = h.unflushed M :=
    Heap.unflushed_congr fun k hk => hi.pending_same (by simp [hk])
  have hN : h'.unflushed (N ++ p.spare) = h.unflushed N := by
    rw [Heap.unflushed_congr (h := h) fun k hk => hi.pending_same (List.mem_append_right _ hk),
      Heap.unflushed_append, Heap.unflushed_eq_nil fun k hk => (hb.rep.spare k hk).2,
      List.append_nil]
  rw [Heap.unflushed_append, Heap.unflushed_cons, Heap.unflushed_append, hM, hN]

theorem content_early (hi : Spliced h h' p M i Z N) :
    h'.content (p.front ++ (M ++ i :: (Z ++ (N ++ p.spare))).take 1) = h.content p.early := by
  have htake : (M ++ i :: (Z ++ (N ++ p.spare))).take 1 = p.back.take 1 := by
    rw [hi.back]
    cases M <;> simp
  rw [htake, Parts.early]
  refine Heap.content_congr fun k hk => ?_
  have hkM : k ∈ p.back.take 1 → k ∈ M ∨ k = i := fun hk => by
    rw [hi.back] at hk
    cases M with
    | nil => exact .inr (by simpa using hk)
    | cons x M => exact .inl (by simp at hk; simp [hk])
  by_cases hki : k = i
  · rw [hki, hi.ready]
  · refine hi.ready_same ?_
    simp only [List.mem_append] at hk ⊢
    tauto

theorem content_tail (hi : Spliced h h' p M i Z N) (hb : Buffer h b p) :
    h'.content (M ++ i :: (Z ++ (N ++ p.spare))).tail = h.content p.back.tail := by
  have hZ : h'.content Z = [] := Heap.content_eq_nil hi.empty
  have hN : h'.content (N ++ p.spare) = h.content N := by
    rw [Heap.content_congr (h := h) fun k hk => hi.ready_same (List.mem_append_right _ hk),
      Heap.content_append, Heap.content_eq_nil fun k hk => (hb.rep.spare k hk).1, List.append_nil]
  rw [hi.back]
  cases M with
  | nil => simp [hZ, hN]
  | cons x M =>
    have hM : h'.content M = h.content M :=
      Heap.content_congr fun k hk => hi.ready_same (by simp [hk])
    simp [hZ, hN, hM, hi.ready]

theorem chain (hi : Spliced h h' p M i Z N) (hb : Buffer h b p) :
    Chain.Seg (fun k => (h'.nodes k).next) b.head
      (p.old ++ p.front ++ M ++ i :: (Z ++ (N ++ p.spare))) none := by
  refine hi.seg ?_ fun k hk => hi.apart hk
  rw [← hi.all]
  exact hb.rep.seg

theorem rep (hi : Spliced h h' p M i Z N) (hb : Buffer h b p) {w : Option Nat} {l : Int}
    (hw : w = (M ++ i :: (Z ++ (N ++ p.spare))).getLast?) :
    Rep h' { b with write := w, mallocSize := l } p.old p.front
      (M ++ i :: (Z ++ (N ++ p.spare))) [] where
  seg := by simpa using hi.chain hb
  read := by
    refine hb.rep.read.trans ?_
    rw [List.head?_append, List.head?_append, hi.head]
  flush := hb.rep.flush.trans hi.head.symm
  write := hw
  fit k hk := by
    rw [List.append_nil] at hk
    rcases hi.cases hk with hk | hk
    · exact hi.fit k hk
    · rw [hi.same hk]
      exact hb.rep.fit k (hi.mem_all hk)
  submitted k hk := by
    rw [hi.pending_same (by simp [hk])]
    exact hb.rep.submitted k hk
  spare := by simp
  reader := by simp

theorem last (hi : Spliced h h' p M i Z N) (hb : Buffer h b p)
    (hf : (p.old ++ p.front ++ M ++ i :: (Z ++ (N ++ p.spare))).length < fuel) :
    ∃ w, b.write = some w ∧ lastLoop h' fuel
      (some w) = some (M ++ i :: (Z ++ (N ++ p.spare))).getLast? := by
  obtain ⟨M', w, hw⟩ := exists_last (show p.back ≠ [] by simp [hi.back])
  have hwall : w ∈ p.old ++ p.front ++ M ++ i :: (Z ++ (N ++ p.spare)) := by
    have hwb : w ∈ p.back := by simp [hw]
    rw [hi.back] at hwb
    simp only [List.mem_append, List.mem_cons] at hwb ⊢
    tauto
  refine ⟨w, by rw [hb.rep.write, hw]; simp, ?_⟩
  rw [lastLoop_of_mem (hi.chain hb) hwall hf, List.append_assoc (p.old ++ p.front),
    List.getLast?_append_of_ne_nil _ (by simp)]

theorem grows (hi : Spliced h h' p M i Z N) (hg : Grows h h' p.all (i :: Z)) :
    Grows h h' p.all (p.old ++ p.front ++ (M ++ i :: (Z ++ (N ++ p.spare)))) := by
  intro k hk ho hc
  rcases hi.cases hk with hk | hk
  · exact hg k hk ho hc
  · rw [hi.same hk]
    exact .inl ⟨k, hi.mem_all hk, (Node.Like.refl _).stays⟩

end Spliced

theorem Inserted.post (hi : Inserted h h' i Z) (hb : Buffer h b p) (hsp : p.back = M ++ i :: N)
    (hs : Safe h' (Z ++ (p.all ++ U)) (b.kept ++ K) P)
    (ho : Owned h' (p.old ++ p.front ++ M ++ i :: (Z ++ (N ++ p.spare)))) (hst : Still h h')
    (hmem : h'.mem = h.mem) (hg : Grows h h' p.all (i :: Z)) (hr : r ≤ (h.unflushed p.back).length)
    (hcut : h.unflushed M ++ (h'.pending i ++ (h'.unflushed Z ++ h.unflushed N)) =
      (h.unflushed p.back).take ((h.unflushed p.back).length - r) ++ s.cells ++
        (h.unflushed p.back).drop ((h.unflushed p.back).length - r)) :
    ∃ w, b.write = some w ∧ lastLoop h' (h'.fresh + 1)
      (some w) = some (M ++ i :: (Z ++ (N ++ p.spare))).getLast? ∧ DirectPost h h' b
        { b with
          write := (M ++ i :: (Z ++ (N ++ p.spare))).getLast?, mallocSize := b.mallocSize + s.len }
        p ⟨p.old, p.front, M ++ i :: (Z ++ (N ++ p.spare)), []⟩ s r U K P := by
  have hnd := List.nodup_append.mp hs.nodup
  have hZ : ∀ k ∈ Z, k ∉ p.all ++ U := fun k hk hk' => hnd.2.2 k hk k hk' rfl
  have hi : Spliced h h' p M i Z N :=
    ⟨hi, hsp, hnd.2.1.of_append_left, fun k hk hk' => hZ k hk (List.mem_append_left _ hk')⟩
  have hperm : (Z ++ (p.all ++ U)).Perm
      (p.old ++ p.front ++ (M ++ i :: (Z ++ (N ++ p.spare))) ++ [] ++ U) :=
    List.perm_iff_count.mpr fun a => by
      simp only [hi.all, List.count_append, List.count_cons, List.count_nil]
      omega
  have hs' := hs.perm hperm
  have hfuel : (p.old ++ p.front ++ M ++ i :: (Z ++ (N ++ p.spare))).length < h'.fresh + 1 := by
    have := hs'.length_le
    simp only [List.length_append, List.length_cons, List.length_nil] at this ⊢
    omega
  obtain ⟨w, hw, hlast⟩ := hi.last hb hfuel
  have hrep : Rep h' { b with
      write := (M ++ i :: (Z ++ (N ++ p.spare))).getLast?, mallocSize := b.mallocSize + s.len }
      p.old p.front (M ++ i :: (Z ++ (N ++ p.spare))) [] := hi.rep hb rfl
  have hunf := (hi.unflushed hb).trans hcut
  refine ⟨w, hw, hlast, ⟨⟨hrep, ?_, ?_, by simpa using ho, by simpa [Parts.all] using ho, hb.peek,
    fun _ k hk => ?_⟩, hs', hst, fun k hk => ?_, hmem, rfl, hi.content_early, hunf,
    hi.content_tail hb, ?_, by simp⟩⟩
  · have hlen := hb.length
    rw [Parts.content_live] at hlen ⊢
    rw [hlen]
    exact congrArg _
      (congrArg List.length (congrArg₂ (· ++ ·) hi.content_early (hi.content_tail hb)).symm)
  · rw [Parts.live, hrep.unflushed_live, hunf, hb.malloc, Parts.live, hb.rep.unflushed_live]
    simp only [List.length_append, List.length_take, List.length_drop, Slice.cells, length_cells]
    omega
  · rw [Parts.all, List.append_nil] at hk
    rcases hi.cases hk with hk | hk
    · exact hi.origin k hk
    · rw [hi.same hk]
      exact hb.plain (by simp [hsp]) k (hi.mem_all hk)
  · refine hi.others k ?_ fun hkZ => hZ k hkZ (List.mem_append_right _ hk)
    rintro rfl
    exact (List.nodup_append.mp hnd.2.1).2.2 k hi.mem k hk rfl
  · simpa [Parts.all] using hi.grows hg

theorem data_node (hs : Safe h V K P) (cfg : Config) (hl : h.owner s.blk = .lent) :
    ∃ d h₁, h.newLinkBufferNode cfg 0 = (d, h₁) ∧ d ∉ V ∧ Safe (h₁.lay d s) (d :: V) K P ∧
      Still h (h₁.lay d s) ∧ (h₁.lay d s).mem = h.mem ∧
      (∀ k, k ≠ d → (h₁.lay d s).nodes k = h.nodes k) ∧ (h₁.lay d s).nodes d =
        { buf := { s with len := 0 }, malloc := s.len, readonly := true } := by
  obtain ⟨d, h₁, hnew, hd, hs₁, hm⟩ := hs.newNode cfg 0
  have hl₁ := hm.still.lent _ hl
  obtain ⟨hs₂, -⟩ := hs₁.lay (s := s) hm.origin (by simp [hm.readonly]) (hm.bare (Int.le_refl _))
    hm.refer hl₁
  refine ⟨d, h₁, hnew, fun hdV => ?_, hs₂, hm.still.trans ⟨fun _ _ => rfl, rfl, le_rfl, le_rfl⟩,
    hm.mem, fun k hk => ?_, ?_⟩
  · have := refs_pos_of_mem (h := h) hdV
    omega
  · simp [Heap.lay, hk, hm.others k hk]
  · simp only [Heap.lay, Heap.set_nodes, Function.update_self]
    refine Node.ext rfl hm.off rfl hm.refer ?_ hm.nocopyRead hm.origin hm.next
    simp [hm.readonly]

theorem insert_spec (hb : Buffer h b p) (hs : Safe h (p.all ++ U) (b.kept ++ K) P)
    (hsp : p.back = M ++ i :: N) (hN : h.unflushed N = []) (cfg : Config) (hlen : s.len ≤ s.cap)
    (hl : h.owner s.blk = .lent) :
    ∃ d h₁ w b' p', h.newLinkBufferNode cfg 0 = (d, h₁) ∧ b.write = some w ∧
      lastLoop (LinkBuffer.insert (h₁.lay d s) i d) ((LinkBuffer.insert (h₁.lay d s) i d).fresh + 1)
        (some w) = some b'.write ∧
      b' = { b with write := b'.write, mallocSize := b.mallocSize + s.len } ∧
      DirectPost h (LinkBuffer.insert (h₁.lay d s) i d) b b' p p' s 0 U K P := by
  obtain ⟨d, h₁, hnew, hd, hs₁, hst, hmem, hothers, hdn⟩ := data_node hs cfg hl
  have hback : p.back ≠ [] := by simp [hsp]
  have hall : p.all = p.old ++ p.front ++ M ++ i :: (N ++ p.spare) := by simp [Parts.all, hsp]
  have hi : i ∈ p.all := by simp [hall]
  have hid : i ≠ d := by
    rintro rfl
    exact hd (List.mem_append_left _ hi)
  have hin : (h₁.lay d s).nodes i = h.nodes i := hothers i hid
  set h' := LinkBuffer.insert (h₁.lay d s) i d with hh'
  have hnode_i : h'.nodes i = { h.nodes i with next := some d } := by
    simp [hh', LinkBuffer.insert, Heap.link, hid, hin]
  have hnode_d : h'.nodes d =
      { buf := { s with
        len := 0 }, malloc := s.len, readonly := true, next := (h.nodes i).next } := by
    simp [hh', LinkBuffer.insert, Heap.link, Ne.symm hid, hdn, hin]
  have hsame : ∀ k, k ≠ i → k ≠ d → h'.nodes k = h.nodes k := fun k hki hkd => by
    simp [hh', LinkBuffer.insert, Heap.link, hki, hkd, hothers k hkd]
  have hins : Inserted h h' i [d] := by
    refine ⟨fun k hki hkd => hsame k hki (by simpa using hkd), ?_, ?_, fun k hk => ?_,
      fun k hk => ?_, fun k hk => ?_⟩
    · rw [hnode_i]
      exact ⟨rfl, by simp [hnode_d]⟩
    · simp [Heap.ready, hnode_i, Node.len]
    · rcases List.mem_cons.mp hk with rfl | hk
      · have hf := hb.rep.fit k hi
        rw [hnode_i]
        exact ⟨hf.off, hf.len, hf.malloc, hf.grown⟩
      · rw [List.mem_singleton.mp hk, hnode_d]
        constructor <;> simp [hlen]
    · rcases List.mem_cons.mp hk with rfl | hk
      · rw [hnode_i]
        exact hb.plain hback k hi
      · rw [List.mem_singleton.mp hk, hnode_d]
    · rw [List.mem_singleton.mp hk]
      simp [Heap.ready, hnode_d, Node.len]
  have hlike : ∀ k ∈ p.all, (h.nodes k).Like (h'.nodes k) := fun k hk => by
    by_cases hki : k = i
    · rw [hki, hnode_i]
      exact .next _
    · rw [hsame k hki fun he => hd (List.mem_append_left _ (he ▸ hk))]
      exact .refl _
  have ho : Owned h' (p.old ++ p.front ++ M ++ i :: ([d] ++ (N ++ p.spare))) := by
    have : Owned h' _ := (hall ▸ hb.owned_all).like hst.lent fun k hk => hlike k (hall ▸ hk)
    rw [← List.singleton_append, ← List.append_assoc] at this
    have := this.insert (d := d) (by rw [hnode_d]) fun _ => by rw [hnode_d]; exact hst.lent _ hl
    simpa using this
  have hs₂ : Safe h' ([d] ++ (p.all ++ U)) (b.kept ++ K) P :=
    (hs₁.link (by simp)).link (by simp [hi])
  have hcut : h.unflushed M ++ (h'.pending i ++
      (h'.unflushed [d] ++ h.unflushed N)) =
      (h.unflushed p.back).take ((h.unflushed p.back).length - 0) ++ s.cells ++
        (h.unflushed p.back).drop ((h.unflushed p.back).length - 0) := by
    have h1 : h'.pending i = h.pending i := by simp [Heap.pending, hnode_i]
    have h2 : h'.pending d = s.cells := by
      simp [Heap.pending, hnode_d, Slice.cells]
    rw [Nat.sub_zero, List.take_length, List.drop_length, hsp]
    simp [hN, h1, h2]
  have hg : Grows h h' p.all (i :: [d]) := fun k hk _ _ => by
    rcases List.mem_cons.mp hk with rfl | hk
    · exact .inl ⟨k, hi, (hlike k hi).stays⟩
    · rw [List.mem_singleton.mp hk, hnode_d]
      exact .inr (.inr hl)
  obtain ⟨w, hw, hlast, hpost⟩ :=
    hins.post hb hsp hs₂ ho (hst.trans (Heap.link_still.trans Heap.link_still))
    hmem hg
    (Nat.zero_le _) hcut
  exact ⟨d, h₁, w, _, _, hnew, hw, hlast, rfl, hpost⟩

structure Halved (h h' : Heap) (i d j cut : Nat) (s : Slice) : Prop where
  left : h'.nodes i = { h.nodes i with malloc := cut, readonly := true, next := some d }
  data :
    h'.nodes d = { buf := { s with len := 0 }, malloc := s.len, readonly := true, next := some j }
  off : (h'.nodes j).off = cut
  buf : (h'.nodes j).buf = { (h.nodes i).buf with len := cut }
  malloc : (h'.nodes j).malloc = (h.nodes i).malloc
  origin : (h'.nodes j).origin = none
  next : (h'.nodes j).next = (h.nodes i).next
  others : ∀ k, k ≠ i → k ≠ d → k ≠ j → h'.nodes k = h.nodes k

theorem split_eq {h₁ h₂ : Heap} (hnew : h₁.newLinkBufferNode cfg 0 = (j, h₂)) (hid : i ≠ d)
    (hij : i ≠ j) (hcap : cut ≤ (h₂.nodes i).buf.cap) :
    LinkBuffer.split h₁ cfg i d cut =
      some ((((h₂.part i j cut).link d (some j)).link j (h₂.nodes i).next).link i (some d)) := by
  have hset : ((h₂.set j { h₂.nodes j with
      off := cut, buf := { (h₂.nodes i).buf with len := cut }, malloc := (h₂.nodes i).malloc,
      readonly := false }).set i { h₂.nodes i with malloc := cut, readonly := true }) =
      h₂.part i j cut := by
    simp only [Heap.part, Heap.set, Function.update_comm hij]
  have hnext : (((h₂.part i j cut).link d (some j)).nodes i).next = (h₂.nodes i).next := by
    simp [Heap.link, hid, Heap.part_left hij]
  simp only [LinkBuffer.split, hnew, Slice.upto, if_pos hcap, Option.bind_eq_bind, Option.bind_some,
    Option.pure_def]
  rw [show (h₂.set j { h₂.nodes j with
      off := cut, buf := { (h₂.nodes i).buf with len := cut }, malloc := (h₂.nodes i).malloc,
      readonly := false }).nodes i = h₂.nodes i from Function.update_of_ne hij _ _, hset, hnext]

theorem halved_of_part {h₂ : Heap} (hid : i ≠ d) (hij : i ≠ j) (hdj : d ≠ j)
    (hi : h₂.nodes i = h.nodes i)
    (hd : h₂.nodes d = { buf := { s with len := 0 }, malloc := s.len, readonly := true })
    (hj : (h₂.nodes j).origin = none) (hothers : ∀ k, k ≠ d → k ≠ j → h₂.nodes k = h.nodes k) :
    Halved h ((((h₂.part i j cut).link d (some j)).link j (h₂.nodes i).next).link i (some d)) i d j
      cut s where
  left := by simp [Heap.link, hij, hid, Heap.part_left hij, hi]
  data := by simp [Heap.link, Ne.symm hid, hdj, Heap.part_of_ne (Ne.symm hid) hdj, hd]
  off := by simp [Heap.link, Ne.symm hij, Ne.symm hdj, Heap.part_right]
  buf := by simp [Heap.link, Ne.symm hij, Ne.symm hdj, Heap.part_right, hi]
  malloc := by simp [Heap.link, Ne.symm hij, Ne.symm hdj, Heap.part_right, hi]
  origin := by simp [Heap.link, Ne.symm hij, Ne.symm hdj, Heap.part_right, hj]
  next := by simp [Heap.link, Ne.symm hij, hi]
  others k hki hkd hkj := by
    simp [Heap.link, hki, hkd, hkj, Heap.part_of_ne hki hkj, hothers k hkd hkj]

namespace Halved

theorem inserted (hh : Halved h h' i d j (m + (h.nodes i).buf.len) s) (hf : (h.nodes i).Fit)
    (ho : (h.nodes i).origin = none) (hm : m ≤ (h.pending i).length) (hlen : s.len ≤ s.cap) :
    Inserted h h' i [d, j] := by
  have hgr := hf.grown ho
  have hmal := hf.malloc
  have hoff := hf.off
  rw [Heap.length_pending] at hm
  refine ⟨fun k hki hk => ?_, ?_, ?_, fun k hk => ?_, fun k hk => ?_, fun k hk => ?_⟩
  · simp only [List.mem_cons, List.not_mem_nil, or_false, not_or] at hk
    exact hh.others k hki hk.1 hk.2
  · rw [hh.left]
    exact ⟨rfl, by simp [hh.data], by simp [hh.next]⟩
  · simp [Heap.ready, hh.left, Node.len]
  · simp only [List.mem_cons, List.not_mem_nil, or_false] at hk
    rcases hk with rfl | rfl | rfl
    · rw [hh.left]
      exact ⟨hf.off, hf.len, by simp only; omega, fun _ => by simp only; omega⟩
    · rw [hh.data]
      constructor <;> simp [hlen]
    · constructor <;> simp only [hh.off, hh.buf, hh.malloc]
      exacts [le_rfl, by omega, hmal, fun _ => by omega]
  · simp only [List.mem_cons, List.not_mem_nil, or_false] at hk
    rcases hk with rfl | rfl | rfl
    · rw [hh.left]
      exact ho
    · rw [hh.data]
    · exact hh.origin
  · simp only [List.mem_cons, List.not_mem_nil, or_false] at hk
    rcases hk with rfl | rfl
    · simp [Heap.ready, hh.data, Node.len]
    · simp [Heap.ready, hh.off, hh.buf, Node.len]

theorem pending_left (hh : Halved h h' i d j (m + (h.nodes i).buf.len) s)
    (hm : m ≤ (h.pending i).length) :
    h'.pending i = (h.pending i).take m := by
  rw [Heap.length_pending] at hm
  simp only [Heap.pending, hh.left, Nat.add_sub_cancel]
  rw [take_cells hm]

theorem pending_right (hh : Halved h h' i d j (m + (h.nodes i).buf.len) s)
    (hm : m ≤ (h.pending i).length) :
    h'.pending j = (h.pending i).drop m := by
  rw [Heap.length_pending] at hm
  have hsub : (h.nodes i).malloc - (m + (h.nodes i).buf.len) =
      (h.nodes i).malloc - (h.nodes i).buf.len - m := by omega
  simp only [Heap.pending, hh.buf, hh.malloc]
  rw [drop_cells hm, hsub]
  congr 1
  omega

theorem pending_data (hh : Halved h h' i d j cut s) : h'.pending d = s.cells := by
  simp [Heap.pending, hh.data, Slice.cells]

theorem unflushed (hh : Halved h h' i d j (m + (h.nodes i).buf.len) s)
    (hm : m ≤ (h.pending i).length)
    (hr : (h.unflushed M).length + m + r = (h.unflushed (M ++ i :: N)).length) :
    h.unflushed M ++ (h'.pending i ++ (h'.unflushed [d, j] ++ h.unflushed N)) =
      (h.unflushed (M ++ i :: N)).take ((h.unflushed (M ++ i :: N)).length - r) ++ s.cells ++
        (h.unflushed (M ++ i :: N)).drop ((h.unflushed (M ++ i :: N)).length - r) := by
  have hpos : (h.unflushed (M ++ i :: N)).length - r =
    (h.unflushed M ++ (h.pending i).take m).length := by
    rw [List.length_append, List.length_take]
    omega
  have he : h.unflushed (M ++ i :: N) =
      (h.unflushed M ++ (h.pending i).take m) ++ ((h.pending i).drop m ++ h.unflushed N) := by
    rw [Heap.unflushed_append, Heap.unflushed_cons,
      List.append_assoc, ← List.append_assoc (List.take m _), List.take_append_drop]
  rw [hpos, he, List.take_left, List.drop_left]
  simp [hh.pending_left hm, hh.pending_right hm, hh.pending_data]

theorem grows (hh : Halved h h' i d j (m + (h.nodes i).buf.len) s) (hroot : (h.nodes i).root)
    (hl : h.owner s.blk = .lent) (hi : i ∈ V) : Grows h h' V (i :: [d, j]) := by
  intro k hk _ _
  simp only [List.mem_cons, List.not_mem_nil, or_false] at hk
  rcases hk with rfl | rfl | rfl
  · refine .inl ⟨k, hi, ?_⟩
    rw [hh.left]
    exact ⟨rfl, rfl, rfl, le_rfl, rfl, fun hr => absurd hr (by simp [hroot.2.1])⟩
  · rw [hh.data]
    exact .inr (.inr hl)
  · refine .inl ⟨i, hi, ?_⟩
    exact ⟨by rw [hh.buf], by rw [hh.buf], by rw [hh.buf], by rw [hh.buf]; simp,
      hh.origin.trans hroot.1.symm, fun hr => absurd hr (by simp [hroot.2.1])⟩

end Halved

theorem split_spec (hb : Buffer h b p) (hs : Safe h (p.all ++ U) (b.kept ++ K) P)
    (hsp : p.back = M ++ i :: N) (hm : m ≤ (h.pending i).length)
    (hr : (h.unflushed M).length + m + r = (h.unflushed p.back).length)
    (hroot : (h.nodes i).root) (hP : ¬ P (h.nodes i).buf.blk) (cfg : Config) (hlen : s.len ≤ s.cap)
    (hl : h.owner s.blk = .lent) :
    ∃ d h₁ h' w b' p', h.newLinkBufferNode cfg 0 = (d, h₁) ∧ b.write = some w ∧
      LinkBuffer.split (h₁.lay d s) cfg i d (m + (h.nodes i).buf.len) = some h' ∧
      lastLoop h' (h'.fresh + 1) (some w) = some b'.write ∧
      b' = { b with write := b'.write, mallocSize := b.mallocSize + s.len } ∧
      DirectPost h h' b b' p p' s r U K P := by
  obtain ⟨d, h₁, hnew, hd, hs₁, hst, hmem, hothers, hdn⟩ := data_node hs cfg hl
  obtain ⟨j, h₂, hnew₂, hj, hs₂, hm₂⟩ := hs₁.newNode cfg 0
  have hall : p.all = p.old ++ p.front ++ M ++ i :: (N ++ p.spare) := by simp [Parts.all, hsp]
  have hi : i ∈ p.all := by simp [hall]
  have hjV : j ∉ d :: (p.all ++ U) := (List.nodup_cons.mp hs₂.nodup).1
  have hkd : ∀ k ∈ p.all, k ≠ d := fun k hk he => hd (List.mem_append_left _ (he ▸ hk))
  have hkj : ∀ k ∈ p.all, k ≠ j := fun k hk he =>
    hjV (List.mem_cons_of_mem _ (List.mem_append_left _ (he ▸ hk)))
  have hdj : d ≠ j := fun he => hjV (by simp [he])
  have hsame : ∀ k, k ≠ d → k ≠ j → h₂.nodes k = h.nodes k := fun k hkd hkj => by
    rw [hm₂.others k hkj, hothers k hkd]
  have hni := hsame i (hkd i hi) (hkj i hi)
  have hf := hb.rep.fit i hi
  have hgr := hf.grown hroot.1
  have hmal := hf.malloc
  have hoff := hf.off
  have hroom := hm
  rw [Heap.length_pending] at hroom
  set cut := m + (h.nodes i).buf.len with hcut
  set h' := (((h₂.part i j cut).link d (some j)).link j (h₂.nodes i).next).link i (some d) with hh'
  have hsplit : LinkBuffer.split (h₁.lay d s) cfg i d cut = some h' :=
    split_eq hnew₂ (hkd i hi) (hkj i hi) (by rw [hni]; omega)
  have hh : Halved h h' i d j cut s :=
    halved_of_part (hkd i hi) (hkj i hi) hdj hni (by rw [hm₂.others d hdj, hdn]) hm₂.origin hsame
  have hlent : ∀ x, h.owner x = .lent → h₂.owner x = .lent := (hst.trans hm₂.still).lent
  have ho : Owned h' (p.old ++ p.front ++ M ++ i :: ([d, j] ++ (N ++ p.spare))) := by
    have hX : ∀ k ∈ p.old ++ p.front ++ M ++ (N ++ p.spare), k ≠ i ∧ k ≠ j := fun k hk => by
      have hnd : (p.old ++ p.front ++ M ++ i :: (N ++ p.spare)).Nodup := hall ▸
        hs.nodup.of_append_left
      refine ⟨?_, hkj k (hall ▸ ?_)⟩
      · rintro rfl
        exact (List.nodup_cons.mp (List.nodup_middle.mp hnd)).1 hk
      · simp only [List.mem_append, List.mem_cons] at hk ⊢
        tauto
    have ho₂ : Owned h₂ (p.old ++ p.front ++ M ++ i :: (N ++ p.spare)) :=
      (hall ▸ hb.owned_all).like hlent fun k hk => by
        rw [← hall] at hk
        rw [hsame k (hkd k hk) (hkj k hk)]
        exact .refl _
    have hp : Owned (h₂.part i j cut) _ := ho₂.part (hni ▸ hroot) (hkj i hi) hm₂.origin hX
    rw [← List.singleton_append, ← List.append_assoc] at hp
    have hdp : (h₂.part i j cut).nodes d = (h₁.lay d s).nodes d := by
      rw [Heap.part_of_ne (hkd i hi).symm hdj, hm₂.others d hdj]
    have := hp.insert (d := d) (by rw [hdp, hdn]) fun _ => by
      rw [hdp, hdn]
      exact hlent _ hl
    refine Owned.like (h := h₂.part i j cut) (by simpa using this) (fun _ => id) fun k _ => ?_
    exact Relinked.like ((Relinked.link.trans .link).trans .link)
  have hs₃ : Safe h' ([d, j] ++ (p.all ++ U)) (b.kept ++ K) P := by
    have hp : Splits h₂ (d :: (p.all ++ U)) (b.kept ++ K) P i j cut :=
      ⟨hs₂, by simp [hi], hni ▸ hroot, by rw [hni]; omega, hm₂.origin, hm₂.bare (Int.le_refl _),
        hm₂.refer, hni ▸ hP⟩
    exact (((hp.part.link (by simp)).link (by simp)).link (by simp [hi])).perm
      (List.Perm.swap d j _)
  obtain ⟨w, hw, hlast, hpost⟩ := (hh.inserted hf hroot.1 hm hlen).post (r := r) hb hsp hs₃ ho
    (hst.trans (hm₂.still.trans ⟨fun _ _ => rfl, rfl, le_rfl, le_rfl⟩)) (hm₂.mem.trans hmem)
    (hh.grows hroot hl hi) (by omega) (hsp ▸ hh.unflushed hm (hsp ▸ hr))
  exact ⟨d, h₁, h', w, _, _, hnew, hw, hsplit, hlast, rfl, hpost⟩

theorem writeDirect_spec (hb : Buffer h b p) (hs : Safe h (p.all ++ U) (b.kept ++ K) P)
    (hback : p.back ≠ []) (hr : r ≤ (h.unflushed p.back).length)
    (hcut : 0 < r → ∀ i ack, cutLoop (h.fresh + 1) h b.flush (b.mallocSize - r) = some (i, ack) →
      (h.nodes i).readonly = false ∧ 0 < (h.nodes i).buf.cap ∧ ¬ P (h.nodes i).buf.blk)
    (cfg : Config) (hpos : 0 < s.len) (hlen : s.len ≤ s.cap) (hl : h.owner s.blk = .lent) :
    ∃ b' h' p', b.writeDirect h cfg s r = some (b', h') ∧ DirectPost h h' b b' p p' s r U K P := by
  have hin : ∀ k ∈ p.back, k ∈ p.all := fun k hk => Parts.mem_all_of_back hk
  have hfuel : p.back.length < h.fresh + 1 := by
    have := hs.length_le
    simp only [Parts.all, List.length_append] at this
    omega
  have hms : b.mallocSize - r = (((h.unflushed p.back).length - r : Nat) : Int) := by
    rw [hb.malloc, Parts.live, hb.rep.unflushed_live]
    omega
  obtain ⟨M, i, N, m, hsp, hloop, hm, hsum⟩ := cutLoop_spec
    (n := (h.unflushed p.back).length - r) (hb.rep.seg_back hback)
    (fun k hk => ⟨hb.rep.fit k (hin k hk), hb.plain hback k (hin k hk)⟩) hback (Nat.sub_le _ _)
    hfuel
  rw [← hms] at hloop
  have hne : ¬ (s.len = 0 ∨ (r : Int) < 0) := by omega
  by_cases hr0 : 0 < r
  · obtain ⟨hro, hcap, hP⟩ := hcut hr0 i m hloop
    have hsum' : (h.unflushed M).length + m + r = (h.unflushed p.back).length := by omega
    obtain ⟨d, h₁, h', w, b', p', hnew, hw, hsplit, hlast, hb', hpost⟩ :=
      split_spec (r := r) hb hs hsp hm
      hsum' ⟨hb.plain hback i (hin i (by simp [hsp])), hro, hcap⟩ hP cfg hlen hl
    refine ⟨b', h', p', ?_, hpost⟩
    have hneg : ¬ ((m : Int) + (h.nodes i).buf.len < 0) := by omega
    have hcast : ((m : Int) + (h.nodes i).buf.len).toNat = m + (h.nodes i).buf.len := by omega
    have hr1 : (0 : Int) < r := by omega
    simp only [LinkBuffer.writeDirect, if_neg hne, hloop, Option.bind_eq_bind, Option.bind_some,
      hnew, if_pos hr1, if_neg hneg, hcast, Option.pure_def]
    rw [show (h₁.set d { h₁.nodes d with buf := { s with len := 0 }, malloc := s.len }) =
      h₁.lay d s from rfl, hsplit]
    simp only [Option.bind_some, hw, hlast]
    rw [← hb']
  · obtain rfl : r = 0 := by omega
    have hN : h.unflushed N = [] := by
      refine List.eq_nil_of_length_eq_zero ?_
      rw [hsp, Heap.unflushed_append, Heap.unflushed_cons, List.length_append, List.length_append]
        at hsum
      omega
    obtain ⟨d, h₁, w, b', p', hnew, hw, hlast, hb', hpost⟩ := insert_spec hb hs hsp hN cfg hlen hl
    refine ⟨b', _, p', ?_, hpost⟩
    have hr1 : ¬ (0 : Int) < ((0 : Nat) : Int) := Int.lt_irrefl 0
    simp only [LinkBuffer.writeDirect, if_neg hne, hloop, Option.bind_eq_bind, Option.bind_some,
      hnew, if_neg hr1, Option.pure_def]
    rw [show (h₁.set d { h₁.nodes d with buf := { s with len := 0 }, malloc := s.len }) =
      h₁.lay d s from rfl]
    simp only [hw, hlast, Option.bind_some]
    rw [← hb']

end Netpoll.Nocopy
