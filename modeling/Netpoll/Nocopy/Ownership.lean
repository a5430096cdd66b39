import Netpoll.Nocopy.LinkBuffer
import Netpoll.Lib.Chain
import Mathlib.Data.List.Count
import Mathlib.Data.List.Perm.Basic

namespace Netpoll.Nocopy

open Netpoll.Lib.Memory
open Netpoll.Lib

variable {h h' : Heap} {need need' : Nat → Nat} {U U' : List Nat} {K K' : List Slice}
  {P P' : Nat → Prop} {i j r : Nat} {s : Slice}

/-- References to `i` from the chains: from the chain it stands in, and from the
nodes of chains that `Refer` made from it. -/
def refs (h : Heap) (U : List Nat) (i : Nat) : Nat :=
  U.count i + U.countP fun j => decide ((h.nodes j).origin = some i)

def Node.root (node : Node) : Prop :=
  node.origin = none ∧ node.readonly = false ∧ 0 < node.buf.cap

def Node.view (node : Node) : Prop :=
  node.origin = none ∧ node.readonly = true ∧ 0 < node.buf.cap

def Owner.held : Owner → Bool
  | .user | .gc => true
  | .mcache | .lent => false

/-- Every node `i` is counted for the `need i` references that will still be released.
`K` are the slices that buffers keep for `Release`, `P` the blocks behind
zero-copy results of `readBinary`. -/
structure Counted (h : Heap) (need : Nat → Nat) (K : List Slice) (P : Nat → Prop) : Prop where
  lt : ∀ i, 0 < need i → i < h.fresh
  refer : ∀ i, 0 < need i → (need i : Int) ≤ (h.nodes i).refer
  unpooled : ∀ i, 0 < need i → i ∉ h.linkedPool
  pool_nodup : h.linkedPool.Nodup
  pool_lt : ∀ i ∈ h.linkedPool, i < h.fresh
  pool_clean : ∀ i ∈ h.linkedPool,
    (h.nodes i).buf = .nil ∧ (h.nodes i).origin = none ∧ (h.nodes i).next = none
  top : ∀ b, h.top ≤ b → h.owner b = .mcache
  live : ∀ i, 0 < need i → (h.nodes i).root → (h.owner (h.nodes i).buf.blk).held
  distinct : ∀ i j, 0 < need i → 0 < need j → (h.nodes i).root → (h.nodes j).root →
    (h.nodes i).buf.blk = (h.nodes j).buf.blk → i = j
  own : ∀ i, 0 < need i → (h.nodes i).root → (h.nodes i).buf.off = 0
  reusable : ∀ i, 0 < need i → (h.nodes i).reusable →
    (h.nodes i).root ∧ ¬ P (h.nodes i).buf.blk
  cache_nodup : (K.map Slice.blk).Nodup
  cache : ∀ s ∈ K, s.off = 0 ∧ ¬ P s.blk ∧ (h.owner s.blk).held
  apart : ∀ i, ∀ s ∈ K, 0 < need i → (h.nodes i).root → (h.nodes i).buf.blk ≠ s.blk
  pin : ∀ b, P b → h.owner b ≠ .mcache

structure SliceOf (node root : Node) : Prop where
  origin : root.origin = none
  readonly : node.readonly = true
  blk : node.buf.blk = root.buf.blk
  start : root.buf.off ≤ node.buf.off
  fits : node.buf.off + node.buf.cap ≤ root.buf.off + root.buf.len
  len : root.buf.len ≤ root.buf.cap
  pos : 0 < node.buf.cap

def Viewed (h : Heap) (U : List Nat) : Prop :=
  ∀ i ∈ U, (h.nodes i).view → h.owner (h.nodes i).buf.blk = .lent ∨
    ∃ k ∈ U, (h.nodes k).root ∧ (h.nodes k).buf.blk = (h.nodes i).buf.blk

def Node.Parted (node node' : Node) : Prop :=
  node.buf.off = node'.buf.off ∧
    (node.malloc ≤ node'.off ∨ node'.readonly = true ∧ node'.malloc ≤ node.off)

structure Woven (h : Heap) (U : List Nat) : Prop where
  sliced : ∀ i ∈ U, ∀ r, (h.nodes i).origin = some r → SliceOf (h.nodes i) (h.nodes r)
  viewed : Viewed h U
  parted : ∀ i ∈ U, ∀ j ∈ U, i ≠ j → (h.nodes i).view → (h.nodes j).origin = none →
    0 < (h.nodes j).buf.cap → (h.nodes i).buf.blk = (h.nodes j).buf.blk →
    h.owner (h.nodes i).buf.blk ≠ .lent → (h.nodes i).Parted (h.nodes j)
  clear : ∀ i ∈ U, ∀ j ∈ U, ∀ r, (h.nodes i).view → (h.nodes j).origin = some r →
    (h.nodes r).readonly = false → (h.nodes i).buf.blk = (h.nodes j).buf.blk →
    (h.nodes i).buf.off + (h.nodes i).malloc ≤ (h.nodes j).buf.off

structure Safe (h : Heap) (U : List Nat) (K : List Slice) (P : Nat → Prop) : Prop where
  nodup : U.Nodup
  counted : Counted h (refs h U) K P
  woven : Woven h U

def Node.bare (node : Node) : Node := { node with refer := 0 }

/-- The block behind `i` is there as long as `i`: a slice has it from a node that owns it, or from
a user.  The slices of a node that `WriteDirect` splits later are not sound. -/
def Sound (h : Heap) (i : Nat) : Prop :=
  ∀ r, (h.nodes i).origin = some r →
    (h.nodes r).readonly = false ∨ h.owner (h.nodes r).buf.blk = .lent

def Behind (h : Heap) (U : List Nat) (K : List Slice) (P : Nat → Prop) (b : Nat) : Prop :=
  h.owner b = .lent ∨ P b ∨ (∃ s ∈ K, s.blk = b) ∨
    ∃ i ∈ U, Sound h i ∧ 0 < (h.nodes i).buf.cap ∧ (h.nodes i).buf.blk = b

structure Later (h h' : Heap) (Q : Nat → Prop) : Prop where
  lent : ∀ b, h.owner b = .lent → h'.owner b = .lent
  freed : ∃ l, h'.freed = l ++ h.freed ∧ ∀ b ∈ l, ¬ Q b

structure Keeps (h h' : Heap) (U : List Nat) (K : List Slice) (P : Nat → Prop) : Prop where
  later : Later h h' (Behind h U K P)
  node : ∀ i ∈ U, (h'.nodes i).bare = (h.nodes i).bare
  sound : ∀ i ∈ U, Sound h i → Sound h' i

structure Still (h h' : Heap) : Prop where
  owner : ∀ b, h.owner b ≠ .mcache → h'.owner b = h.owner b
  freed : h'.freed = h.freed
  fresh : h.fresh ≤ h'.fresh
  top : h.top ≤ h'.top

theorem Still.refl : Still h h := ⟨fun _ _ => rfl, rfl, le_rfl, le_rfl⟩

theorem Still.trans {h'' : Heap} (hs : Still h h') (hs' : Still h' h'') : Still h h'' := by
  refine ⟨fun b hb => ?_, hs'.freed.trans hs.freed, hs.fresh.trans hs'.fresh, hs.top.trans hs'.top⟩
  rw [hs'.owner b (by rwa [hs.owner b hb]), hs.owner b hb]

theorem Still.lent (hs : Still h h') (b : Nat) (hb : h.owner b = .lent) : h'.owner b = .lent := by
  rw [hs.owner b (by simp [hb]), hb]

theorem Still.later {Q : Nat → Prop} (hs : Still h h') : Later h h' Q :=
  ⟨hs.lent, [], by simp [hs.freed]⟩

theorem Later.mono {Q Q' : Nat → Prop} (hl : Later h h' Q) (hQ : ∀ b, Q' b → Q b) :
    Later h h' Q' := by
  obtain ⟨l, hf, hb⟩ := hl.freed
  exact ⟨hl.lent, l, hf, fun b hbl hq => hb b hbl (hQ b hq)⟩

theorem Later.trans {h'' : Heap} {Q Q' : Nat → Prop} (hl : Later h h' Q) (hl' : Later h' h'' Q')
    (hQ : ∀ b, Q b → Q' b) : Later h h'' Q := by
  obtain ⟨l, hf, hb⟩ := hl.freed
  obtain ⟨l', hf', hb'⟩ := hl'.freed
  refine ⟨fun b hb => hl'.lent b (hl.lent b hb), l' ++ l, by rw [hf', hf, List.append_assoc],
    fun b hbl => ?_⟩
  rcases List.mem_append.mp hbl with hbl | hbl
  · exact fun hq => hb' b hbl (hQ b hq)
  · exact hb b hbl

theorem Behind.mono {b : Nat} (hb : Behind h U' K' P' b) (hU : ∀ i ∈ U', i ∈ U)
    (hK : ∀ s ∈ K', s ∈ K) (hP : ∀ x, P' x → P x) : Behind h U K P b := by
  rcases hb with hb | hb | ⟨s, hs, hb⟩ | ⟨i, hi, hb⟩
  · exact .inl hb
  · exact .inr (.inl (hP b hb))
  · exact .inr (.inr (.inl ⟨s, hK s hs, hb⟩))
  · exact .inr (.inr (.inr ⟨i, hU i hi, hb⟩))

theorem Keeps.buf (hk : Keeps h h' U K P) (hi : i ∈ U) : (h'.nodes i).buf = (h.nodes i).buf := by
  have := congrArg Node.buf (hk.node i hi)
  exact this

theorem Keeps.behind {b : Nat} (hk : Keeps h h' U K P) (hb : Behind h U K P b) :
    Behind h' U K P b := by
  rcases hb with hb | hb | hb | ⟨i, hi, hs, hcap, hb⟩
  · exact .inl (hk.later.lent b hb)
  · exact .inr (.inl hb)
  · exact .inr (.inr (.inl hb))
  · refine .inr (.inr (.inr ⟨i, hi, hk.sound i hi hs, ?_⟩))
    rw [hk.buf hi]
    exact ⟨hcap, hb⟩

theorem Keeps.refl : Keeps h h U K P := ⟨Still.refl.later, fun _ _ => rfl, fun _ _ => id⟩

theorem Keeps.trans {h'' : Heap} (hk : Keeps h h' U K P) (hk' : Keeps h' h'' U K P) :
    Keeps h h'' U K P :=
  ⟨hk.later.trans hk'.later fun _ hb => hk.behind hb,
    fun i hi => (hk'.node i hi).trans (hk.node i hi),
    fun i hi hs => hk'.sound i hi (hk.sound i hi hs)⟩

theorem Keeps.mono (hk : Keeps h h' U K P) (hU : ∀ i ∈ U', i ∈ U)
    (hK : ∀ s ∈ K', s ∈ K) (hP : ∀ x, P' x → P x) : Keeps h h' U' K' P' :=
  ⟨hk.later.mono fun _ hb => hb.mono hU hK hP, fun i hi => hk.node i (hU i hi),
    fun i hi => hk.sound i (hU i hi)⟩

@[simp] theorem Heap.set_nodes (node : Node) :
    (h.set i node).nodes = Function.update h.nodes i node := rfl

@[simp] theorem Heap.set_mem (node : Node) : (h.set i node).mem = h.mem := rfl

@[simp] theorem Heap.set_owner (node : Node) : (h.set i node).owner = h.owner := rfl

@[simp] theorem Heap.set_fresh (node : Node) : (h.set i node).fresh = h.fresh := rfl

@[simp] theorem Heap.set_top (node : Node) : (h.set i node).top = h.top := rfl

@[simp] theorem Heap.set_freed (node : Node) : (h.set i node).freed = h.freed := rfl

@[simp] theorem Heap.set_linkedPool (node : Node) :
    (h.set i node).linkedPool = h.linkedPool := rfl

theorem refs_cons : refs h (j :: U) i =
    refs h U i + (if j = i then 1 else 0) + (if (h.nodes j).origin = some i then 1 else 0) := by
  simp only [refs, List.count_cons, List.countP_cons, beq_iff_eq, decide_eq_true_eq]
  omega

theorem refs_pos_of_mem (hi : i ∈ U) : 0 < refs h U i := by
  have := List.count_pos_iff.mpr hi
  simp only [refs]
  omega

theorem refs_pos_of_origin (hj : j ∈ U) (ho : (h.nodes j).origin = some i) :
    0 < refs h U i := by
  have : 0 < U.countP fun j => decide ((h.nodes j).origin = some i) :=
    List.countP_pos_iff.mpr ⟨j, hj, by simpa using ho⟩
  simp only [refs]
  omega

theorem refs_perm (hp : U.Perm U') : refs h U = refs h U' := by
  funext i
  simp only [refs, hp.count_eq, hp.countP_eq]

theorem refs_congr (ho : ∀ j ∈ U, (h'.nodes j).origin = (h.nodes j).origin) :
    refs h' U = refs h U := by
  funext i
  have : (U.countP fun j => decide ((h'.nodes j).origin = some i)) =
      U.countP fun j => decide ((h.nodes j).origin = some i) :=
    List.countP_congr fun j hj => by simp [ho j hj]
  simp only [refs, this]

structure Node.Kin (node node' : Node) : Prop where
  blk : node'.buf.blk = node.buf.blk
  off : node'.buf.off = node.buf.off
  cap : node'.buf.cap = node.buf.cap
  readonly : node'.readonly = node.readonly
  nocopyRead : node.nocopyRead → node'.nocopyRead
  origin : node'.origin = node.origin

structure Node.Like (node node' : Node) : Prop where
  blk : node'.buf.blk = node.buf.blk
  off : node'.buf.off = node.buf.off
  cap : node'.buf.cap = node.buf.cap
  len : node.buf.len ≤ node'.buf.len
  fits : node.buf.len ≤ node.buf.cap → node'.buf.len ≤ node'.buf.cap
  readonly : node'.readonly = node.readonly
  nocopyRead : node.nocopyRead → node'.nocopyRead
  origin : node'.origin = node.origin
  read : node.off ≤ node'.off
  written : node.readonly = true → node'.malloc ≤ node.malloc

theorem Node.Like.refl (node : Node) : node.Like node :=
  ⟨rfl, rfl, rfl, le_rfl, id, rfl, id, rfl, le_rfl, fun _ => le_rfl⟩

theorem Node.Like.of_bare {node node' : Node} (hb : node'.bare = node.bare) : node.Like node' := by
  simp only [Node.bare, Node.mk.injEq] at hb
  obtain ⟨hbuf, hoff, hma, -, hro, hnc, hor, -⟩ := hb
  constructor <;> simp [hbuf, hoff, hma, hro, hnc, hor]

theorem Node.Like.trans {node node' node'' : Node} (h₁ : node.Like node') (h₂ : node'.Like node'') :
    node.Like node'' :=
  ⟨h₂.blk.trans h₁.blk, h₂.off.trans h₁.off, h₂.cap.trans h₁.cap, h₁.len.trans h₂.len,
    h₂.fits ∘ h₁.fits, h₂.readonly.trans h₁.readonly, h₂.nocopyRead ∘ h₁.nocopyRead,
    h₂.origin.trans h₁.origin, h₁.read.trans h₂.read,
    fun hr => (h₂.written (h₁.readonly.trans hr)).trans (h₁.written hr)⟩

theorem Node.eq_of_bare {node node' : Node} (hb : node'.bare = node.bare)
    (hr : node'.refer = node.refer) : node' = node := by
  simp only [Node.bare, Node.mk.injEq] at hb
  obtain ⟨h1, h2, h3, -, h4, h5, h6, h7⟩ := hb
  exact Node.ext h1 h2 h3 hr h4 h5 h6 h7

theorem Node.Like.kin {node node' : Node} (hl : node.Like node') : node.Kin node' :=
  ⟨hl.blk, hl.off, hl.cap, hl.readonly, hl.nocopyRead, hl.origin⟩

theorem Node.Kin.trans {node node' node'' : Node} (h₁ : node.Kin node') (h₂ : node'.Kin node'') :
    node.Kin node'' :=
  ⟨h₂.blk.trans h₁.blk, h₂.off.trans h₁.off, h₂.cap.trans h₁.cap, h₂.readonly.trans h₁.readonly,
    h₂.nocopyRead ∘ h₁.nocopyRead, h₂.origin.trans h₁.origin⟩

theorem Node.Kin.root {node node' : Node} (hl : node.Kin node') : node'.root ↔ node.root := by
  simp only [Node.root, hl.origin, hl.readonly, hl.cap]

theorem Node.Kin.view {node node' : Node} (hl : node.Kin node') : node'.view ↔ node.view := by
  simp only [Node.view, hl.origin, hl.readonly, hl.cap]

theorem Node.Like.root {node node' : Node} (hl : node.Like node') : node'.root ↔ node.root :=
  hl.kin.root

theorem Node.Like.view {node node' : Node} (hl : node.Like node') : node'.view ↔ node.view :=
  hl.kin.view

theorem Node.Parted.like {node₁ node₂ node₁' node₂' : Node} (hp : node₁.Parted node₂)
    (hv : node₁.view) (h₁ : node₁.Like node₁') (h₂ : node₂.Like node₂') :
    node₁'.Parted node₂' := by
  refine ⟨by rw [h₁.off, h₂.off, hp.1], hp.2.imp (fun hle => ?_) fun ⟨hro, hle⟩ => ⟨?_, ?_⟩⟩
  · exact (h₁.written hv.2.1).trans (hle.trans h₂.read)
  · exact h₂.readonly.trans hro
  · exact (h₂.written hro).trans (hle.trans h₁.read)

theorem Owner.held_ne {o : Owner} (ho : o.held) : o ≠ .mcache ∧ o ≠ .lent := by
  cases o <;> simp_all [Owner.held]

theorem Node.Kin.reusable {node node' : Node} (hl : node.Kin node') (h : node'.reusable) :
    node.reusable := by
  have hn := hl.nocopyRead
  simp only [Node.reusable, Bool.and_eq_true, Bool.not_eq_true', hl.readonly] at h ⊢
  refine ⟨h.1, ?_⟩
  by_contra hc
  simp_all

theorem Counted.congr (hc : Counted h need K P) (hf : h'.fresh = h.fresh)
    (hpool : h'.linkedPool = h.linkedPool) (htop : h'.top = h.top) (how : h'.owner = h.owner)
    (hpos : ∀ i, 0 < need' i → 0 < need i)
    (hn : ∀ i, 0 < need' i → (h.nodes i).Kin (h'.nodes i))
    (hr : ∀ i, 0 < need' i → (need' i : Int) ≤ (h'.nodes i).refer)
    (hp : ∀ i ∈ h.linkedPool, h'.nodes i = h.nodes i) : Counted h' need' K P where
  lt i hi := hf ▸ hc.lt i (hpos i hi)
  refer := hr
  unpooled i hi := hpool ▸ hc.unpooled i (hpos i hi)
  pool_nodup := hpool ▸ hc.pool_nodup
  pool_lt i hi := hf ▸ hc.pool_lt i (hpool ▸ hi)
  pool_clean i hi := by
    rw [hp i (hpool ▸ hi)]
    exact hc.pool_clean i (hpool ▸ hi)
  top b hb := how ▸ hc.top b (htop ▸ hb)
  live i hi hr := by
    rw [how, (hn i hi).blk]
    exact hc.live i (hpos i hi) ((hn i hi).root.mp hr)
  distinct i j hi hj hri hrj hb := by
    rw [(hn i hi).blk, (hn j hj).blk] at hb
    exact hc.distinct i j (hpos i hi) (hpos j hj) ((hn i hi).root.mp hri)
      ((hn j hj).root.mp hrj) hb
  own i hi hr := by
    rw [(hn i hi).off]
    exact hc.own i (hpos i hi) ((hn i hi).root.mp hr)
  reusable i hi hr := by
    rw [(hn i hi).root, (hn i hi).blk]
    exact hc.reusable i (hpos i hi) ((hn i hi).reusable hr)
  cache_nodup := hc.cache_nodup
  cache s hs := how ▸ hc.cache s hs
  apart i s hs hi hr := by
    rw [(hn i hi).blk]
    exact hc.apart i s hs (hpos i hi) ((hn i hi).root.mp hr)
  pin b hb := how ▸ hc.pin b hb

theorem Counted.mono (hc : Counted h need K P) (hle : ∀ i, need' i ≤ need i) :
    Counted h need' K P := by
  have hpos : ∀ i, 0 < need' i → 0 < need i := fun i hi => hi.trans_le (hle i)
  refine hc.congr rfl rfl rfl rfl hpos (fun i _ => (Node.Like.refl _).kin) (fun i hi => ?_)
    fun _ _ => rfl
  have h1 := hc.refer i (hpos i hi)
  have h2 := hle i
  omega

theorem SliceOf.like {node root node' root' : Node} (hs : SliceOf node root)
    (hn : node.Like node') (hr : root.Like root') : SliceOf node' root' where
  origin := hr.origin.trans hs.origin
  readonly := hn.readonly.trans hs.readonly
  blk := by rw [hn.blk, hr.blk, hs.blk]
  start := by rw [hn.off, hr.off]; exact hs.start
  fits := by
    have h1 := hs.fits
    have h2 := hr.len
    rw [hn.off, hn.cap, hr.off]
    omega
  len := hr.fits hs.len
  pos := hn.cap ▸ hs.pos

theorem Safe.sliced (hs : Safe h U K P) (hi : i ∈ U) (hr : (h.nodes i).origin = some r) :
    SliceOf (h.nodes i) (h.nodes r) := hs.woven.sliced i hi r hr

theorem Viewed.kin (hv : Viewed h U) (hl : ∀ b, h.owner b = .lent → h'.owner b = .lent)
    (hn : ∀ i ∈ U, (h.nodes i).Kin (h'.nodes i)) : Viewed h' U := by
  intro i hi hview
  rcases hv i hi ((hn i hi).view.mp hview) with hlent | ⟨k, hk, hroot, hblk⟩
  · refine .inl (hl _ ?_)
    rwa [(hn i hi).blk]
  · exact .inr ⟨k, hk, (hn k hk).root.mpr hroot, by rw [(hn k hk).blk, hblk, (hn i hi).blk]⟩

theorem Sound.like (hs : Sound h i) (hl : ∀ b, h.owner b = .lent → h'.owner b = .lent)
    (hi : (h'.nodes i).origin = (h.nodes i).origin)
    (hn : ∀ r, (h.nodes i).origin = some r → (h.nodes r).Like (h'.nodes r)) : Sound h' i := by
  intro r hr
  rw [hi] at hr
  rw [(hn r hr).readonly, (hn r hr).blk]
  exact (hs r hr).imp_right (hl _)

theorem Woven.like (hw : Woven h U) (hl : ∀ b, h.owner b = .lent → h'.owner b = .lent)
    (hn : ∀ i, i ∈ U ∨ (∃ j ∈ U, (h.nodes j).origin = some i) → (h.nodes i).Like (h'.nodes i)) :
    Woven h' U := by
  have hU : ∀ i ∈ U, (h.nodes i).Like (h'.nodes i) := fun i hi => hn i (.inl hi)
  refine ⟨fun i hi r hr => ?_, hw.viewed.kin hl fun i hi => (hU i hi).kin,
    fun i hi j hj hij hv ho hcap hblk hne => ?_, fun i hi j hj r hv ho hro hblk => ?_⟩
  · rw [(hU i hi).origin] at hr
    exact (hw.sliced i hi r hr).like (hU i hi) (hn r (.inr ⟨i, hi, hr⟩))
  · have hv' := (hU i hi).view.mp hv
    rw [(hU j hj).origin] at ho
    rw [(hU j hj).cap] at hcap
    rw [(hU i hi).blk] at hne
    rw [(hU i hi).blk, (hU j hj).blk] at hblk
    exact (hw.parted i hi j hj hij hv' ho hcap hblk fun he => hne (hl _ he)).like hv' (hU i hi)
      (hU j hj)
  · have hv' := (hU i hi).view.mp hv
    rw [(hU j hj).origin] at ho
    rw [(hn r (.inr ⟨j, hj, ho⟩)).readonly] at hro
    rw [(hU i hi).blk, (hU j hj).blk] at hblk
    have hclear := hw.clear i hi j hj r hv' ho hro hblk
    have hwr := (hU i hi).written hv'.2.1
    rw [(hU i hi).off, (hU j hj).off]
    omega

theorem Woven.subset (hw : Woven h U) (hU : ∀ i ∈ U', i ∈ U) (hv : Viewed h U') : Woven h U' :=
  ⟨fun i hi => hw.sliced i (hU i hi), hv,
    fun i hi j hj => hw.parted i (hU i hi) j (hU j hj),
    fun i hi j hj => hw.clear i (hU i hi) j (hU j hj)⟩

theorem Viewed.like (hv : Viewed h U) (hl : ∀ b, h.owner b = .lent → h'.owner b = .lent)
    (hn : ∀ i ∈ U, (h.nodes i).Like (h'.nodes i)) : Viewed h' U :=
  hv.kin hl fun i hi => (hn i hi).kin

theorem Viewed.perm (hv : Viewed h U) (hp : U.Perm U') : Viewed h U' := fun i hi hview =>
  (hv i (hp.mem_iff.mpr hi) hview).imp_right fun ⟨k, hk, hr⟩ => ⟨k, hp.mem_iff.mp hk, hr⟩

theorem Safe.congr (hs : Safe h U K P) (hf : h'.fresh = h.fresh)
    (hpool : h'.linkedPool = h.linkedPool) (htop : h'.top = h.top) (how : h'.owner = h.owner)
    (hn : ∀ i, i < h.fresh → i ∉ h.linkedPool →
      (h.nodes i).Like (h'.nodes i) ∧ (h'.nodes i).refer = (h.nodes i).refer)
    (hp : ∀ i ∈ h.linkedPool, h'.nodes i = h.nodes i) : Safe h' U K P := by
  have hlike : ∀ i, 0 < refs h U i →
      (h.nodes i).Like (h'.nodes i) ∧ (h'.nodes i).refer = (h.nodes i).refer := fun i hi =>
    hn i (hs.counted.lt i hi) (hs.counted.unpooled i hi)
  have ho : ∀ j ∈ U, (h'.nodes j).origin = (h.nodes j).origin := fun j hj =>
    (hlike j (refs_pos_of_mem hj)).1.origin
  refine ⟨hs.nodup, ?_, hs.woven.like (fun b hb => by rw [how, hb]) fun i hi => ?_⟩
  · rw [refs_congr ho]
    refine hs.counted.congr hf hpool htop how (fun _ => id) (fun i hi => (hlike i hi).1.kin)
      (fun i hi => ?_) hp
    rw [(hlike i hi).2]
    exact hs.counted.refer i hi
  · refine (hlike i ?_).1
    rcases hi with hi | ⟨j, hj, ho⟩
    · exact refs_pos_of_mem hi
    · exact refs_pos_of_origin hj ho

theorem Safe.perm (hs : Safe h U K P) (hp : U.Perm U') : Safe h U' K P :=
  ⟨hp.nodup_iff.mp hs.nodup, refs_perm hp ▸ hs.counted,
    hs.woven.subset (fun _ hi => hp.mem_iff.mpr hi) (hs.woven.viewed.perm hp)⟩

theorem Safe.sublist (hs : Safe h U K P) (hU : U'.Sublist U) (hv : Viewed h U') :
    Safe h U' K P :=
  ⟨hs.nodup.sublist hU,
    hs.counted.mono fun i => Nat.add_le_add (hU.count_le i) (hU.countP_le),
    hs.woven.subset (fun _ hi => hU.subset hi) hv⟩

theorem Safe.unpin (hs : Safe h U K P) (hP : ∀ b, P' b → P b) : Safe h U K P' where
  nodup := hs.nodup
  woven := hs.woven
  counted := {
    hs.counted with
    reusable := fun i hi hr => (hs.counted.reusable i hi hr).imp_right fun hn hp => hn (hP _ hp)
    cache := fun s hs' =>
      ⟨(hs.counted.cache s hs').1, fun hp => (hs.counted.cache s hs').2.1 (hP _ hp),
        (hs.counted.cache s hs').2.2⟩
    pin := fun b hb => hs.counted.pin b (hP b hb) }

theorem Counted.caches (hc : Counted h need K P) (hK : K'.Subperm K) : Counted h need K' P where
  __ := hc
  cache_nodup := by
    obtain ⟨l, hl, hsub⟩ := hK
    exact (hl.map Slice.blk).nodup_iff.mp (hc.cache_nodup.sublist (hsub.map _))
  cache s hs := hc.cache s (hK.subset hs)
  apart i s hs := hc.apart i s (hK.subset hs)

theorem Safe.caches (hs : Safe h U K P) (hK : K'.Subperm K) : Safe h U K' P :=
  ⟨hs.nodup, hs.counted.caches hK, hs.woven⟩

theorem Counted.giveBack {b : Nat} (hc : Counted h need K P)
    (hb : ∀ i, 0 < need i → (h.nodes i).root → (h.nodes i).buf.blk ≠ b)
    (hK : ∀ s ∈ K, s.blk ≠ b) (hP : ¬ P b) :
    Counted { h with owner := Function.update h.owner b .mcache } need K P where
  __ := hc
  top b' hb' := by
    by_cases h1 : b' = b <;> simp [h1, hc.top b' hb']
  live i hi hr := by
    simpa [hb i hi hr] using hc.live i hi hr
  cache s hs := by
    simpa [hK s hs] using hc.cache s hs
  pin b' hb' := by
    have hne : b' ≠ b := by
      rintro rfl
      exact hP hb'
    simpa [hne] using hc.pin b' hb'

theorem Counted.ne_of_mcache {b : Nat} (hc : Counted h need K P) (hb : h.owner b = .mcache)
    (hi : 0 < need i) (hr : (h.nodes i).root) : (h.nodes i).buf.blk ≠ b := by
  rintro rfl
  exact (Owner.held_ne (hc.live i hi hr)).1 hb

theorem Counted.take {b : Nat} {o : Owner} (hc : Counted h need K P)
    (hb : h.owner b = .mcache) : Counted (h.take b o) need K P where
  __ := hc
  top b' hb' := by
    have h1 : h.top ≤ b' := (le_max_left _ _).trans hb'
    have h2 : b + 1 ≤ b' := (le_max_right _ _).trans hb'
    have hne : b' ≠ b := by omega
    simpa [Heap.take, hne] using hc.top b' h1
  live i hi hr := by
    simpa [Heap.take, hc.ne_of_mcache hb hi hr] using hc.live i hi hr
  cache s hs := by
    have hne : s.blk ≠ b := by
      intro he
      exact (Owner.held_ne (hc.cache s hs).2.2).1 (he ▸ hb)
    simpa [Heap.take, hne] using hc.cache s hs
  pin b' hb' := by
    have hne : b' ≠ b := by
      rintro rfl
      exact hc.pin _ hb' hb
    simpa [Heap.take, hne] using hc.pin b' hb'

theorem Counted.keep (hc : Counted h need K P) (hoff : s.off = 0) (hP : ¬ P s.blk)
    (how : (h.owner s.blk).held)
    (hi : ∀ i, 0 < need i → (h.nodes i).root → (h.nodes i).buf.blk ≠ s.blk)
    (hK : ∀ t ∈ K, t.blk ≠ s.blk) : Counted h need (s :: K) P where
  __ := hc
  cache_nodup := by
    refine List.nodup_cons.mpr ⟨?_, hc.cache_nodup⟩
    rintro hm
    obtain ⟨t, ht, he⟩ := List.mem_map.mp hm
    exact hK t ht he
  cache t ht := by
    rcases List.mem_cons.mp ht with rfl | ht
    · exact ⟨hoff, hP, how⟩
    · exact hc.cache t ht
  apart i t ht := by
    rcases List.mem_cons.mp ht with rfl | ht
    · exact hi i
    · exact hc.apart i t ht

theorem Counted.free (hc : Counted h need K P) (hoff : s.off = 0) (hP : ¬ P s.blk)
    (how : (h.owner s.blk).held)
    (hi : ∀ i, 0 < need i → (h.nodes i).root → (h.nodes i).buf.blk ≠ s.blk)
    (hK : ∀ t ∈ K, t.blk ≠ s.blk) :
    ∃ owner l, h.free s = some { h with owner := owner, freed := l ++ h.freed } ∧
      (∀ b ∈ l, b = s.blk) ∧ (∀ b, h.owner b = .lent → owner b = .lent) ∧
      Counted { h with owner := owner, freed := l ++ h.freed } need K P := by
  by_cases h0 : s.cap = 0
  · exact ⟨h.owner, [], by simp [Heap.free, h0], by simp, fun _ => id, hc⟩
  have hc' : Counted { h with freed := s.blk :: h.freed } need K P := { hc with }
  by_cases hcap : mallocMax < s.cap
  · exact ⟨h.owner, [s.blk], by simp [Heap.free, h0, hcap], by simp, fun _ => id, hc'⟩
  · have hne := Owner.held_ne how
    refine ⟨_, [s.blk], by simp [Heap.free, h0, hcap, hne, hoff], by simp, fun b hb => ?_,
      hc'.giveBack hi hK hP⟩
    have hbs : b ≠ s.blk := fun he => hne.2 (he ▸ hb)
    simp [hbs, hb]

theorem Counted.put {node : Node} (hc : Counted h need K P) (hi : need i = 0) (hlt : i < h.fresh)
    (hp : i ∉ h.linkedPool) (hbuf : node.buf = .nil) (ho : node.origin = none)
    (hn : node.next = none) :
    Counted (h.put i node) need K P := by
  have hne : ∀ k, 0 < need k → k ≠ i := by
    rintro k hk rfl
    omega
  exact {
    lt := hc.lt
    refer := fun k hk => by simpa [Heap.put, hne k hk] using hc.refer k hk
    unpooled := fun k hk => by simpa [Heap.put, hne k hk] using hc.unpooled k hk
    pool_nodup := List.nodup_cons.mpr ⟨hp, hc.pool_nodup⟩
    pool_lt := fun k hk => by
      rcases List.mem_cons.mp hk with rfl | hk
      · exact hlt
      · exact hc.pool_lt k hk
    pool_clean := fun k hk => by
      rcases List.mem_cons.mp hk with rfl | hk'
      · simp [Heap.put, hbuf, ho, hn]
      · have hki : k ≠ i := by
          rintro rfl
          exact hp hk'
        simpa [Heap.put, hki] using hc.pool_clean k hk'
    top := hc.top
    live := fun k hk => by simpa [Heap.put, hne k hk] using hc.live k hk
    own := fun k hk => by simpa [Heap.put, hne k hk] using hc.own k hk
    distinct := fun k l hk hl => by simpa [Heap.put, hne k hk, hne l hl] using hc.distinct k l hk hl
    reusable := fun k hk => by simpa [Heap.put, hne k hk] using hc.reusable k hk
    cache_nodup := hc.cache_nodup
    cache := hc.cache
    apart := fun k t ht hk => by simpa [Heap.put, hne k hk] using hc.apart k t ht hk
    pin := hc.pin }

structure Given (h h' : Heap) (need : Nat → Nat) (K : List Slice) (P : Nat → Prop) : Prop where
  mem : h'.mem = h.mem
  fresh : h'.fresh = h.fresh
  lent : ∀ b, h.owner b = .lent → h'.owner b = .lent
  freed : ∃ l, h'.freed = l ++ h.freed ∧ ∀ b ∈ l, h.owner b ≠ .lent ∧ ¬ P b ∧
    (∀ i, 0 < need i → (h.nodes i).root → (h.nodes i).buf.blk ≠ b) ∧ ∀ s ∈ K, s.blk ≠ b

theorem Given.refl : Given h h need K P := ⟨rfl, rfl, fun _ => id, [], rfl, by simp⟩

theorem Given.trans {h'' : Heap} (hg : Given h h' need K P) (hg' : Given h' h'' need' K P)
    (hle : ∀ i, need' i ≤ need i)
    (hb : ∀ i, 0 < need' i → (h'.nodes i).bare = (h.nodes i).bare) : Given h h'' need' K P := by
  obtain ⟨l, hf, hl⟩ := hg.freed
  obtain ⟨l', hf', hl'⟩ := hg'.freed
  refine ⟨hg'.mem.trans hg.mem, hg'.fresh.trans hg.fresh, fun b hb => hg'.lent b (hg.lent b hb),
    l' ++ l, by rw [hf', hf, List.append_assoc], fun b hbl => ?_⟩
  rcases List.mem_append.mp hbl with hbl | hbl
  · obtain ⟨hne, hP, hroot, hK⟩ := hl' b hbl
    refine ⟨fun he => hne (hg.lent b he), hP, fun i hi hr => ?_, hK⟩
    have hlike := Node.Like.of_bare (hb i hi)
    rw [← hlike.blk]
    exact hroot i hi (hlike.root.mpr hr)
  · obtain ⟨hne, hP, hroot, hK⟩ := hl b hbl
    exact ⟨hne, hP, fun i hi => hroot i (hi.trans_le (hle i)), hK⟩

theorem Counted.drop (hc : Counted h need K P) (hi : 0 < need i) :
    ∃ h', h.drop i = some h' ∧ Counted h' (Function.update need i (need i - 1)) K P ∧
      Given h h' (Function.update need i (need i - 1)) K P ∧
      ∀ k, (k = i → 1 < need i) → (h'.nodes k).bare = (h.nodes k).bare := by
  have hle : ∀ k, Function.update need i (need i - 1) k ≤ need k := fun k => by
    by_cases hk : k = i
    · subst hk; simp
    · simp [hk]
  have hpos : ∀ k, 0 < Function.update need i (need i - 1) k → 0 < need k :=
    fun k hk => hk.trans_le (hle k)
  have href := hc.refer i hi
  set node := (h.nodes i).unref with hnode
  have hbare : node.bare = (h.nodes i).bare := rfl
  have hc' : Counted (h.set i node) (Function.update need i (need i - 1)) K P := by
    refine hc.congr rfl rfl rfl rfl hpos (fun k _ => ?_) (fun k hk => ?_) fun k hk => ?_
    · by_cases h1 : k = i
      · subst h1
        exact (Node.Like.of_bare (by simp [hbare])).kin
      · simpa [h1] using (Node.Like.refl _).kin
    · have h2 := hc.refer k (hpos k hk)
      by_cases h1 : k = i
      · subst h1
        simp [hnode, Node.unref]
        omega
      · simpa [h1] using h2
    · have h1 : k ≠ i := by
        rintro rfl
        exact hc.unpooled k hi hk
      simp [h1]
  by_cases h0 : node.refer = 0
  · have h1 : need i = 1 := by
      simp only [hnode, Node.unref] at h0
      omega
    have hz : Function.update need i (need i - 1) i = 0 := by simp [h1]
    have hfree : ∃ owner freed, (if node.reusable then (h.set i node).free node.buf
        else some (h.set i node)) = some { h.set i node with owner := owner, freed := freed } ∧
          Counted { h.set i node with owner := owner, freed := freed }
            (Function.update need i (need i - 1)) K P ∧
          Given h { h.set i node with owner := owner, freed := freed }
            (Function.update need i (need i - 1)) K P := by
      by_cases hre : node.reusable
      · obtain ⟨hroot, hP⟩ := hc.reusable i hi hre
        have hother : ∀ k, 0 < Function.update need i (need i - 1) k → (h.nodes k).root →
            (h.nodes k).buf.blk ≠ node.buf.blk := fun k hk hr he => by
          have hki : k ≠ i := by
            rintro rfl
            omega
          exact hki (hc.distinct k i (hpos k hk) hi hr hroot he)
        have hset : ∀ k, 0 < Function.update need i (need i - 1) k →
            (h.set i node).nodes k = h.nodes k := fun k hk => by
          have hki : k ≠ i := by
            rintro rfl
            omega
          simp [hki]
        have hK : ∀ t ∈ K, t.blk ≠ node.buf.blk := fun t ht => (hc.apart i t ht hi hroot).symm
        have hlive := hc.live i hi hroot
        rw [if_pos hre]
        obtain ⟨owner, l, hf, hl, hlent, hc₁⟩ := hc'.free (hc.own i hi hroot) hP hlive
          (fun k hk hr => by rw [hset k hk] at hr ⊢; exact hother k hk hr) hK
        refine ⟨owner, _, hf, hc₁, rfl, rfl, hlent, l, rfl, fun b hb => ?_⟩
        rw [hl b hb]
        exact ⟨(Owner.held_ne hlive).2, hP, hother, hK⟩
      · exact ⟨h.owner, h.freed, by rw [if_neg hre]; rfl, hc', rfl, rfl, fun _ => id, [],
          rfl, by simp⟩
    obtain ⟨owner, freed, hfree, hc2, hg⟩ := hfree
    have hdrop : h.drop i = some
        ({ h.set i node with owner := owner, freed := freed }.put i node.cleared) := by
      simp only [Heap.drop, ← hnode, if_pos h0, hfree, Option.map_some]
    refine ⟨_, hdrop, hc2.put hz (hc.lt i hi)
      (hc.unpooled i hi) rfl rfl rfl, ⟨rfl, rfl, hg.lent, hg.freed⟩, fun k hk => ?_⟩
    have hki : k ≠ i := by
      rintro rfl
      have := hk rfl
      omega
    simp [Heap.put, hki]
  · refine ⟨_, by simp only [Heap.drop, ← hnode, if_neg h0], hc',
      ⟨rfl, rfl, fun _ => id, [], rfl, by simp⟩, fun k _ => ?_⟩
    by_cases hki : k = i
    · subst hki
      simp [hbare]
    · simp [hki]

theorem Safe.of_counted (hs : Safe h U K P) (hc : Counted h' (refs h U) K' P)
    (hl : ∀ b, h.owner b = .lent → h'.owner b = .lent)
    (hb : ∀ k, 0 < refs h U k → (h'.nodes k).bare = (h.nodes k).bare) : Safe h' U K' P := by
  have hlike : ∀ k, 0 < refs h U k → (h.nodes k).Like (h'.nodes k) := fun k hk =>
    .of_bare (hb k hk)
  have ho : ∀ j ∈ U, (h'.nodes j).origin = (h.nodes j).origin := fun j hj =>
    (hlike j (refs_pos_of_mem hj)).origin
  refine ⟨hs.nodup, refs_congr ho ▸ hc, hs.woven.like hl fun i hi => hlike i ?_⟩
  rcases hi with hi | ⟨j, hj, ho⟩
  · exact refs_pos_of_mem hi
  · exact refs_pos_of_origin hj ho

theorem Safe.tail (hs : Safe h (j :: U) K P) (hv : Viewed h U) : Safe h U K P :=
  hs.sublist (List.sublist_cons_self _ _) hv

theorem Safe.ne_of_root {blk : Nat} (hs : Safe h U K P) (hne : h.owner blk ≠ .lent)
    (hb : ∀ i, 0 < refs h U i → (h.nodes i).root → (h.nodes i).buf.blk ≠ blk) (hi : i ∈ U)
    (hsd : Sound h i) (hcap : 0 < (h.nodes i).buf.cap) : (h.nodes i).buf.blk ≠ blk := by
  cases ho : (h.nodes i).origin with
  | none =>
    cases hro : (h.nodes i).readonly with
    | false => exact hb i (refs_pos_of_mem hi) ⟨ho, hro, hcap⟩
    | true =>
      rcases hs.woven.viewed i hi ⟨ho, hro, hcap⟩ with hlent | ⟨k, hk, hroot, hblk⟩
      · rintro rfl
        exact hne hlent
      · rw [← hblk]
        exact hb k (refs_pos_of_mem hk) hroot
  | some r =>
    have hsl := hs.sliced hi ho
    have h1 := hsl.fits
    have h2 := hsl.start
    have h3 := hsl.len
    rw [hsl.blk]
    rcases hsd r ho with hro | hlent
    · exact hb r (refs_pos_of_origin hi ho) ⟨hsl.origin, hro, by omega⟩
    · rintro rfl
      exact hne hlent

theorem Given.later (hg : Given h h' (refs h U) K P) (hs : Safe h U K' P') :
    Later h h' (Behind h U K P) := by
  obtain ⟨l, hf, hl⟩ := hg.freed
  refine ⟨hg.lent, l, hf, fun b hb hbeh => ?_⟩
  obtain ⟨hne, hnP, hroot, hK⟩ := hl b hb
  rcases hbeh with hlent | hP | ⟨s, hs', he⟩ | ⟨i, hi, hsd, hcap, he⟩
  · exact hne hlent
  · exact hnP hP
  · exact hK s hs' he
  · exact hs.ne_of_root hne hroot hi hsd hcap he

theorem Given.keeps (hg : Given h h' (refs h U) K P) (hs : Safe h U K' P')
    (hb : ∀ k, 0 < refs h U k → (h'.nodes k).bare = (h.nodes k).bare) : Keeps h h' U K P where
  later := hg.later hs
  node i hi := hb i (refs_pos_of_mem hi)
  sound i hi hsd := by
    have hlike := fun k hk => Node.Like.of_bare (hb k hk)
    exact hsd.like hg.lent (hlike i (refs_pos_of_mem hi)).origin fun r hr =>
      hlike r (refs_pos_of_origin hi hr)

theorem refs_le_cons : refs h U i ≤ refs h (j :: U) i := by
  rw [refs_cons]
  omega

theorem Safe.release (hs : Safe h (j :: U) K P) (hv : Viewed h U) :
    ∃ h', h.release j = some h' ∧ Safe h' U K P ∧ Given h h' (refs h U) K P ∧
      ∀ k, 0 < refs h U k → (h'.nodes k).bare = (h.nodes k).bare := by
  have hj : 0 < refs h (j :: U) j := refs_pos_of_mem (by simp)
  have hfr := hs.counted.lt j hj
  cases ho : (h.nodes j).origin with
  | none =>
    obtain ⟨h', hd, hc, hg, hb⟩ := hs.counted.drop hj
    have hrefs : Function.update (refs h (j :: U)) j (refs h (j :: U) j - 1) = refs h U := by
      funext k
      by_cases hk : k = j
      · subst hk
        simp [refs_cons, ho]
      · simp [hk, refs_cons, ho, Ne.symm hk]
    rw [hrefs] at hc hg
    have hbare : ∀ k, 0 < refs h U k → (h'.nodes k).bare = (h.nodes k).bare := fun k hk =>
      hb k fun hkj => by
        subst hkj
        rw [refs_cons, if_pos rfl]
        omega
    refine ⟨h', ?_, (hs.tail hv).of_counted hc hg.lent hbare, hg, hbare⟩
    simpa [Heap.release, Heap.nodeRelease, ho] using hd
  | some r =>
    have hor := (hs.sliced (by simp) ho).origin
    have hjr : j ≠ r := by
      rintro rfl
      simp [ho] at hor
    -- first the origin loses the reference of the slice, then the slice that of its chain
    obtain ⟨h₁, hd₁, hc₁, hg₁, hb₁⟩ :=
      hs.counted.drop (refs_pos_of_origin (List.mem_cons_self) ho)
    have hj₁ : Function.update (refs h (j :: U)) r (refs h (j :: U) r - 1) j =
        refs h (j :: U) j := by simp [hjr]
    obtain ⟨h', hd, hc, hg, hb⟩ := hc₁.drop (i := j) (by rw [hj₁]; exact hj)
    rw [hj₁] at hc hb hg
    have hrefs : Function.update (Function.update (refs h (j :: U)) r (refs h (j :: U) r - 1)) j
        (refs h (j :: U) j - 1) = refs h U := by
      funext k
      by_cases hk : k = j
      · subst hk
        simp [refs_cons, ho, Ne.symm hjr]
      · by_cases hkr : k = r
        · subst hkr
          simp [hk, refs_cons, ho, hjr]
        · simp [hk, hkr, refs_cons, ho, Ne.symm hk, Ne.symm hkr]
    rw [hrefs] at hc hg
    have hbare₁ : ∀ k, 0 < refs h U k → (h₁.nodes k).bare = (h.nodes k).bare := fun k hk =>
      hb₁ k <| by
        rintro rfl
        rw [refs_cons, if_pos ho]
        omega
    have hbare : ∀ k, 0 < refs h U k → (h'.nodes k).bare = (h.nodes k).bare := by
      intro k hk
      refine (hb k ?_).trans (hbare₁ k hk)
      rintro rfl
      rw [refs_cons, if_pos rfl]
      omega
    have hle : ∀ k, refs h U k ≤ Function.update (refs h (j :: U)) r (refs h (j :: U) r - 1) k :=
      fun k => by
        by_cases hkr : k = r
        · subst hkr
          simp [refs_cons, ho]
        · simpa [hkr] using refs_le_cons
    refine ⟨h', ?_, (hs.tail hv).of_counted hc (fun b hb => hg.lent b (hg₁.lent b hb)) hbare,
      hg₁.trans hg hle hbare₁, hbare⟩
    obtain ⟨f, hf⟩ := Nat.exists_eq_add_of_lt hfr
    simp [Heap.release, Heap.nodeRelease, ho, hf, hor, hd₁, hd]

theorem Keeps.of_like (hs : Still h h') (hb : ∀ i ∈ U, (h'.nodes i).bare = (h.nodes i).bare)
    (hl : ∀ i ∈ U, ∀ r, (h.nodes i).origin = some r → (h.nodes r).Like (h'.nodes r)) :
    Keeps h h' U K P :=
  ⟨hs.later, hb, fun i hi hsd =>
    hsd.like hs.lent (Node.Like.of_bare (hb i hi)).origin (hl i hi)⟩

def Owned (h : Heap) : List Nat → Prop
  | [] => True
  | i :: L => ((h.nodes i).view → h.owner (h.nodes i).buf.blk = .lent ∨
      ∃ L₁ k L₂, L = L₁ ++ k :: L₂ ∧ (∀ j ∈ L₁, (h.nodes j).readonly = true) ∧
        (h.nodes k).root ∧ (h.nodes k).buf.blk = (h.nodes i).buf.blk) ∧ Owned h L

theorem Owned.kin {L : List Nat} (ho : Owned h L)
    (hl : ∀ b, h.owner b = .lent → h'.owner b = .lent)
    (hn : ∀ i ∈ L, (h.nodes i).Kin (h'.nodes i)) : Owned h' L := by
  induction L with
  | nil => trivial
  | cons i L ih =>
    refine ⟨fun hv => ?_, ih ho.2 fun k hk => hn k (by simp [hk])⟩
    have hi := hn i (by simp)
    rw [hi.blk]
    rcases ho.1 (hi.view.mp hv) with hlent | ⟨L₁, k, L₂, rfl, hro, hroot, hblk⟩
    · exact .inl (hl _ hlent)
    · refine .inr ⟨L₁, k, L₂, rfl, fun j hj => ?_, (hn k (by simp)).root.mpr hroot, ?_⟩
      · rw [(hn j (by simp [hj])).readonly]
        exact hro j hj
      · rw [(hn k (by simp)).blk, hblk]

theorem Owned.like {L : List Nat} (ho : Owned h L)
    (hl : ∀ b, h.owner b = .lent → h'.owner b = .lent)
    (hn : ∀ i ∈ L, (h.nodes i).Like (h'.nodes i)) : Owned h' L :=
  ho.kin hl fun i hi => (hn i hi).kin

theorem Owned.right {A B : List Nat} (ho : Owned h (A ++ B)) : Owned h B := by
  induction A with
  | nil => exact ho
  | cons i A ih => exact ih ho.2

theorem Owned.append {A B : List Nat} (hA : Owned h A) (hB : Owned h B) : Owned h (A ++ B) := by
  induction A with
  | nil => exact hB
  | cons i A ih =>
    refine ⟨fun hv => (hA.1 hv).imp_right fun ⟨L₁, k, L₂, he, hk⟩ => ⟨L₁, k, L₂ ++ B, ?_, hk⟩,
      ih hA.2⟩
    simp [he]

theorem Owned.left {A B : List Nat} (ho : Owned h (A ++ i :: B))
    (hi : (h.nodes i).readonly = false) : Owned h (A ++ [i]) := by
  induction A with
  | nil => exact ⟨fun hv => absurd hv.2.1 (by simp [hi]), trivial⟩
  | cons j A ih =>
    refine ⟨fun hv => (ho.1 hv).imp_right fun ⟨L₁, k, L₂, he, hro, hk⟩ => ?_, ih ho.2⟩
    rcases List.append_eq_append_iff.mp he with ⟨l, rfl, hl⟩ | ⟨l, rfl, hl⟩
    · cases l with
      | nil =>
        obtain ⟨rfl, -⟩ := List.cons.inj hl
        exact ⟨A, i, [], by simp, by simpa using hro, hk⟩
      | cons x l =>
        obtain ⟨rfl, -⟩ := List.cons.inj hl
        exact absurd (hro i (by simp)) (by simp [hi])
    · cases l with
      | nil =>
        obtain ⟨rfl, -⟩ := List.cons.inj hl
        exact ⟨L₁, k, [], by simp, hro, hk⟩
      | cons x l =>
        obtain ⟨rfl, -⟩ := List.cons.inj hl
        exact ⟨L₁, k, l ++ [i], by simp, hro, hk⟩

theorem Owned.viewed (ho : Owned h U) : Viewed h U := by
  induction U with
  | nil => simp [Viewed]
  | cons i L ih =>
    intro j hj hv
    rcases List.mem_cons.mp hj with rfl | hj
    · rcases ho.1 hv with hlent | ⟨L₁, k, L₂, rfl, -, hroot, hblk⟩
      · exact .inl hlent
      · exact .inr ⟨k, by simp, hroot, hblk⟩
    · exact (ih ho.2 j hj hv).imp_right fun ⟨k, hk, hr⟩ => ⟨k, by simp [hk], hr⟩

theorem Viewed.append (hv : Viewed h U) (hv' : Viewed h U') : Viewed h (U ++ U') := by
  intro i hi hview
  rcases List.mem_append.mp hi with hi | hi
  · exact (hv i hi hview).imp_right fun ⟨k, hk, hr⟩ => ⟨k, by simp [hk], hr⟩
  · exact (hv' i hi hview).imp_right fun ⟨k, hk, hr⟩ => ⟨k, by simp [hk], hr⟩

theorem Safe.releaseTo {A B : List Nat} {head stop : Option Nat} {fuel : Nat}
    (hs : Safe h (A ++ B ++ U) K P) (hA : Chain.Seg (fun i => (h.nodes i).next) head A stop)
    (hstop : ∀ i ∈ A, stop ≠ some i) (hfuel : A.length < fuel) (ho : Owned h (A ++ B))
    (hv : Viewed h U) :
    ∃ h', h.releaseTo fuel stop head = some h' ∧ Safe h' (B ++ U) K P ∧
      Given h h' (refs h (B ++ U)) K P ∧
      ∀ k, 0 < refs h (B ++ U) k → (h'.nodes k).bare = (h.nodes k).bare := by
  induction A generalizing h head fuel with
  | nil =>
    obtain ⟨f, rfl⟩ := Nat.exists_eq_add_of_lt hfuel
    refine ⟨h, ?_, hs, .refl, fun _ _ => rfl⟩
    simp only [Chain.seg_nil] at hA
    simp [Heap.releaseTo, hA]
  | cons a A ih =>
    obtain ⟨f, rfl, hB⟩ := Chain.steps_of_length_lt hfuel
    obtain ⟨rfl, hA⟩ := hA
    obtain ⟨h₁, hr, hs₁, hg₁, hb₁⟩ :=
      Safe.release (U := A ++ B ++ U) hs (ho.2.viewed.append hv)
    have hlike : ∀ i ∈ A ++ B ++ U, (h.nodes i).Like (h₁.nodes i) := fun i hi =>
      .of_bare (hb₁ i (refs_pos_of_mem hi))
    have hnext : ∀ i ∈ A, (h₁.nodes i).next = (h.nodes i).next := fun i hi => by
      have := congrArg Node.next (hb₁ i (refs_pos_of_mem (by simp [hi])))
      exact this
    obtain ⟨h', hr', hs', hg, hb⟩ := ih hs₁ (hA.congr hnext)
      (fun i hi => hstop i (by simp [hi])) hB
      (ho.2.like hg₁.lent fun i hi => hlike i (List.mem_append_left _ hi))
      (hv.like hg₁.lent fun i hi => hlike i (by simp [hi]))
    have hrefs : refs h₁ (B ++ U) = refs h (B ++ U) := refs_congr fun j hj => by
      have := (hlike j (by simp_all)).origin
      exact this
    have hle : ∀ k, refs h (B ++ U) k ≤ refs h (A ++ B ++ U) k := fun k => by
      rw [List.append_assoc]
      exact Nat.add_le_add (List.sublist_append_right A _ |>.count_le k)
        (List.sublist_append_right A _ |>.countP_le)
    rw [hrefs] at hg hb
    have hbare₁ : ∀ k, 0 < refs h (B ++ U) k → (h₁.nodes k).bare = (h.nodes k).bare := fun k hk =>
      hb₁ k (hk.trans_le (hle k))
    refine ⟨h', ?_, hs', hg₁.trans hg hle hbare₁, fun k hk => (hb k hk).trans (hbare₁ k hk)⟩
    have ha : (some a = stop) = False := by
      simpa using (hstop a (by simp)).symm
    simpa [Heap.releaseTo, ha, hr] using hr'

theorem Counted.freeAll (hc : Counted h need (K' ++ K) P) :
    ∃ owner freed, h.freeAll K' = some { h with owner := owner, freed := freed } ∧
      Counted { h with owner := owner, freed := freed } need K P ∧
      Given h { h with owner := owner, freed := freed } need K P := by
  induction K' generalizing h with
  | nil => exact ⟨h.owner, h.freed, rfl, hc, .refl⟩
  | cons s K' ih =>
    obtain ⟨hoff, hP, hheld⟩ := hc.cache s (by simp)
    have hnd := List.nodup_cons.mp hc.cache_nodup
    have hsub : (K' ++ K).Subperm (s :: K' ++ K) := (List.sublist_cons_self _ _).subperm
    have hi : ∀ i, 0 < need i → (h.nodes i).root → (h.nodes i).buf.blk ≠ s.blk := fun i hi hr =>
      hc.apart i s (by simp) hi hr
    have hK : ∀ t ∈ K' ++ K, t.blk ≠ s.blk := fun t ht he => hnd.1 (List.mem_map.mpr ⟨t, ht, he⟩)
    obtain ⟨owner, l, hf, hl, hlent, hc₁⟩ := (hc.caches hsub).free hoff hP hheld hi hK
    obtain ⟨owner', freed', hf', hc', hg'⟩ := ih hc₁
    have hg : Given h { h with owner := owner, freed := l ++ h.freed } need K P := by
      refine ⟨rfl, rfl, hlent, l, rfl, fun b hb => ?_⟩
      rw [hl b hb]
      exact ⟨(Owner.held_ne hheld).2, hP, hi, fun t ht => hK t (by simp [ht])⟩
    exact ⟨owner', freed', by simpa [Heap.freeAll, hf] using hf', hc',
      hg.trans hg' (fun _ => le_rfl) fun _ _ => rfl⟩

theorem Counted.assign {node : Node} (hc : Counted h need K P) (hlt : i < h.fresh)
    (hp : i ∉ h.linkedPool) (hneed : ∀ k, k ≠ i → need' k = need k)
    (href : (need' i : Int) ≤ node.refer)
    (hroot : node.root → (h.owner node.buf.blk).held ∧ node.buf.off = 0 ∧
      (∀ k, k ≠ i → 0 < need k → (h.nodes k).root → (h.nodes k).buf.blk ≠ node.buf.blk) ∧
      ∀ s ∈ K, node.buf.blk ≠ s.blk)
    (hre : 0 < need' i → node.reusable → node.root ∧ ¬ P node.buf.blk) :
    Counted (h.set i node) need' K P where
  lt k hk := by
    by_cases h1 : k = i
    · exact h1 ▸ hlt
    · exact hc.lt k (hneed k h1 ▸ hk)
  refer k hk := by
    by_cases h1 : k = i
    · subst h1
      simpa using href
    · have := hc.refer k (hneed k h1 ▸ hk)
      simpa [h1, hneed k h1] using this
  unpooled k hk := by
    by_cases h1 : k = i
    · exact h1 ▸ hp
    · exact hc.unpooled k (hneed k h1 ▸ hk)
  pool_nodup := hc.pool_nodup
  pool_lt := hc.pool_lt
  pool_clean k hk := by
    have h1 : k ≠ i := by
      rintro rfl
      exact hp hk
    simpa [h1] using hc.pool_clean k hk
  top := hc.top
  live k hk hr := by
    by_cases h1 : k = i
    · subst h1
      simp only [Heap.set_nodes, Function.update_self] at hr ⊢
      exact (hroot hr).1
    · simp only [Heap.set_nodes, Function.update_of_ne h1] at hr ⊢
      exact hc.live k (hneed k h1 ▸ hk) hr
  own k hk hr := by
    by_cases h1 : k = i
    · subst h1
      simp only [Heap.set_nodes, Function.update_self] at hr ⊢
      exact (hroot hr).2.1
    · simp only [Heap.set_nodes, Function.update_of_ne h1] at hr ⊢
      exact hc.own k (hneed k h1 ▸ hk) hr
  distinct k l hk hl hrk hrl hb := by
    simp only [Heap.set_nodes] at hrk hrl hb
    by_cases h1 : k = i <;> by_cases h2 : l = i
    · rw [h1, h2]
    · subst h1
      simp only [Function.update_self, Function.update_of_ne h2] at hrk hrl hb
      exact absurd hb.symm ((hroot hrk).2.2.1 l h2 (hneed l h2 ▸ hl) hrl)
    · subst h2
      simp only [Function.update_self, Function.update_of_ne h1] at hrk hrl hb
      exact absurd hb ((hroot hrl).2.2.1 k h1 (hneed k h1 ▸ hk) hrk)
    · simp only [Function.update_of_ne h1, Function.update_of_ne h2] at hrk hrl hb
      exact hc.distinct k l (hneed k h1 ▸ hk) (hneed l h2 ▸ hl) hrk hrl hb
  reusable k hk hr := by
    by_cases h1 : k = i
    · subst h1
      simp only [Heap.set_nodes, Function.update_self] at hr ⊢
      exact hre hk hr
    · simp only [Heap.set_nodes, Function.update_of_ne h1] at hr ⊢
      exact hc.reusable k (hneed k h1 ▸ hk) hr
  cache_nodup := hc.cache_nodup
  cache := hc.cache
  apart k s hs hk hr := by
    by_cases h1 : k = i
    · subst h1
      simp only [Heap.set_nodes, Function.update_self] at hr ⊢
      exact (hroot hr).2.2.2 s hs
    · simp only [Heap.set_nodes, Function.update_of_ne h1] at hr ⊢
      exact hc.apart k s hs (hneed k h1 ▸ hk) hr
  pin := hc.pin

theorem Heap.malloc_eq (size capacity : Nat) (htop : h.owner h.top = .mcache) :
    ∃ blk cap o picks, h.malloc size capacity =
        (⟨blk, 0, size, cap⟩, { h with picks := picks }.take blk o) ∧
      h.owner blk = .mcache ∧ capacity ≤ cap ∧ o.held := by
  by_cases hcap : mallocMax < capacity
  · refine ⟨h.top, capacity, .gc, h.picks, ?_, htop, le_rfl, rfl⟩
    simp [Heap.malloc, Heap.dirtmake, hcap]
  · refine ⟨if h.owner (h.picks 0) = .mcache then h.picks 0 else h.top, capacity + h.picks 1,
      .user, fun i => h.picks (i + 1 + 1), ?_, ?_, Nat.le_add_right _ _, rfl⟩
    · simp [Heap.malloc, Heap.mcacheMalloc, Heap.pick, hcap]
    · split
      · assumption
      · exact htop

theorem Counted.picks (hc : Counted h need K P) (picks : Nat → Nat) :
    Counted { h with picks := picks } need K P :=
  hc.congr rfl rfl rfl rfl (fun _ => id) (fun _ _ => (Node.Like.refl _).kin) hc.refer fun _ _ => rfl

end Netpoll.Nocopy
