import Netpoll.Nocopy.Nodes

namespace Netpoll.Nocopy

open Netpoll.Lib Netpoll.Lib.Memory

variable {h h' : Heap} {b : LinkBuffer} {A B C D U : List Nat} {K : List Slice} {P : Nat → Prop}
  {i j k n : Nat} {blk : Nat} {cfg : Config}

abbrev Addr := Nat × Nat

def Slice.cells (s : Slice) : List Addr := Memory.cells s.blk s.off s.len

def Heap.look (h : Heap) (l : List Addr) : List UInt8 := Memory.look h.mem l

/-- The addresses of the bytes of node `i` that can be read. -/
def Heap.ready (h : Heap) (i : Nat) : List Addr :=
  Memory.cells (h.nodes i).buf.blk ((h.nodes i).buf.off + (h.nodes i).off) (h.nodes i).len

/-- The addresses of the bytes of node `i` that wait for the next flush. -/
def Heap.pending (h : Heap) (i : Nat) : List Addr :=
  Memory.cells (h.nodes i).buf.blk ((h.nodes i).buf.off + (h.nodes i).buf.len)
    ((h.nodes i).malloc - (h.nodes i).buf.len)

def Heap.content (h : Heap) (l : List Nat) : List Addr := l.flatMap h.ready

def Heap.unflushed (h : Heap) (l : List Nat) : List Addr := l.flatMap h.pending

structure Node.Fit (node : Node) : Prop where
  off : node.off ≤ node.buf.len
  len : node.buf.len ≤ node.buf.cap
  malloc : node.malloc ≤ node.buf.cap
  grown : node.origin = none → node.buf.len ≤ node.malloc

structure Rep (h : Heap) (b : LinkBuffer) (A B C D : List Nat) : Prop where
  seg : Chain.Seg (fun i => (h.nodes i).next) b.head (A ++ B ++ C ++ D) none
  read : b.read = (B ++ C).head?
  flush : b.flush = C.head?
  write : b.write = C.getLast?
  fit : ∀ i ∈ A ++ B ++ C ++ D, (h.nodes i).Fit
  submitted : ∀ i ∈ B, h.pending i = []
  spare : ∀ i ∈ D, h.ready i = [] ∧ h.pending i = []
  reader : C = [] → D = []

@[simp] theorem Heap.look_nil : h.look [] = [] := rfl

@[simp] theorem Heap.look_append {l l' : List Addr} : h.look (l ++ l') = h.look l ++ h.look l' :=
  Memory.look_append

@[simp] theorem Heap.length_look {l : List Addr} : (h.look l).length = l.length :=
  Memory.length_look

theorem Heap.bytes_eq {s : Slice} : h.bytes s = h.look s.cells := load_eq

@[simp] theorem Heap.length_ready : (h.ready i).length = (h.nodes i).len := by simp [Heap.ready]

@[simp] theorem Heap.length_pending :
    (h.pending i).length = (h.nodes i).malloc - (h.nodes i).buf.len := by simp [Heap.pending]

@[simp] theorem Heap.content_nil : h.content [] = [] := rfl

@[simp] theorem Heap.content_cons {l : List Nat} :
    h.content (i :: l) = h.ready i ++ h.content l := rfl

@[simp] theorem Heap.content_append {l l' : List Nat} :
    h.content (l ++ l') = h.content l ++ h.content l' := List.flatMap_append

theorem Heap.content_congr {l : List Nat} (hl : ∀ i ∈ l, h'.ready i = h.ready i) :
    h'.content l = h.content l := by
  simp only [Heap.content, List.flatMap_def]
  rw [List.map_congr_left hl]

@[simp] theorem Heap.unflushed_nil : h.unflushed [] = [] := rfl

@[simp] theorem Heap.unflushed_cons {l : List Nat} :
    h.unflushed (i :: l) = h.pending i ++ h.unflushed l := rfl

@[simp] theorem Heap.unflushed_append {l l' : List Nat} :
    h.unflushed (l ++ l') = h.unflushed l ++ h.unflushed l' := List.flatMap_append

theorem Heap.unflushed_congr {l : List Nat} (hl : ∀ i ∈ l, h'.pending i = h.pending i) :
    h'.unflushed l = h.unflushed l := by
  simp only [Heap.unflushed, List.flatMap_def]
  rw [List.map_congr_left hl]

theorem Heap.content_eq_nil {l : List Nat} (hl : ∀ i ∈ l, h.ready i = []) : h.content l = [] := by
  simpa [Heap.content, List.flatMap_eq_nil_iff] using hl

section Bare

variable (hb : (h'.nodes i).bare = (h.nodes i).bare)
include hb

theorem Heap.ready_of_bare : h'.ready i = h.ready i := by
  simp only [Node.bare, Node.mk.injEq] at hb
  simp only [Heap.ready, Node.len, hb]

theorem Heap.pending_of_bare : h'.pending i = h.pending i := by
  simp only [Node.bare, Node.mk.injEq] at hb
  simp only [Heap.pending, hb]

theorem Node.Fit.of_bare (hf : (h.nodes i).Fit) : (h'.nodes i).Fit := by
  simp only [Node.bare, Node.mk.injEq] at hb
  obtain ⟨h1, h2, h3, -, -, -, h4, -⟩ := hb
  constructor <;> simp only [h1, h2, h3, h4]
  exacts [hf.off, hf.len, hf.malloc, hf.grown]

end Bare

theorem Rep.congr (hr : Rep h b A B C D)
    (hnext : ∀ i ∈ A ++ B ++ C ++ D, (h'.nodes i).next = (h.nodes i).next)
    (hfit : ∀ i ∈ A ++ B ++ C ++ D, (h'.nodes i).Fit)
    (hrd : ∀ i ∈ A ++ B ++ C ++ D, h'.ready i = h.ready i)
    (hpd : ∀ i ∈ A ++ B ++ C ++ D, h'.pending i = h.pending i) : Rep h' b A B C D where
  seg := hr.seg.congr hnext
  read := hr.read
  flush := hr.flush
  write := hr.write
  fit := hfit
  submitted i hi := by rw [hpd i (by simp [hi]), hr.submitted i hi]
  spare i hi := by
    rw [hrd i (by simp [hi]), hpd i (by simp [hi])]
    exact hr.spare i hi
  reader := hr.reader

theorem Rep.of_bare (hr : Rep h b A B C D)
    (hb : ∀ i ∈ A ++ B ++ C ++ D, (h'.nodes i).bare = (h.nodes i).bare) : Rep h' b A B C D :=
  hr.congr
    (fun i hi => by
      have := congrArg Node.next (hb i hi)
      exact this)
    (fun i hi => (hr.fit i hi).of_bare (hb i hi))
    (fun i hi => Heap.ready_of_bare (hb i hi))
    fun i hi => Heap.pending_of_bare (hb i hi)

theorem Rep.keeps (hr : Rep h b A B C D) (hk : Keeps h h' U K P)
    (hU : ∀ i ∈ A ++ B ++ C ++ D, i ∈ U) : Rep h' b A B C D :=
  hr.of_bare fun i hi => hk.node i (hU i hi)

theorem Safe.set {node : Node} (hs : Safe h U K P) (hi : i ∈ U) (hl : (h.nodes i).Like node)
    (hr : node.refer = (h.nodes i).refer) : Safe (h.set i node) U K P := by
  refine hs.congr rfl rfl rfl rfl (fun k _ _ => ?_) fun k hk => ?_
  · by_cases hki : k = i
    · subst hki
      simpa using ⟨hl, hr⟩
    · simp [hki, Node.Like.refl]
  · have hki : k ≠ i := by
      rintro rfl
      exact hs.counted.unpooled k (refs_pos_of_mem hi) hk
    simp [hki]

theorem Keeps.set {node : Node} (hi : i ∉ U) (hl : (h.nodes i).Like node) :
    Keeps h (h.set i node) U K P := by
  refine .of_like ⟨fun _ _ => rfl, rfl, le_rfl, le_rfl⟩ (fun k hk => ?_) fun k _ r _ => ?_
  · have hki : k ≠ i := by
      rintro rfl
      exact hi hk
    simp [hki]
  · by_cases hri : r = i
    · subst hri
      simpa using hl
    · simp [hri, Node.Like.refl]

def Apart (h : Heap) (U : List Nat) (blk : Nat) : Prop :=
  ∀ i ∈ U, Sound h i → 0 < (h.nodes i).buf.cap → (h.nodes i).buf.blk ≠ blk

theorem Safe.apart_of_mcache (hs : Safe h U K P) (hb : h.owner blk = .mcache) :
    Apart h U blk := fun _ hi hsd hcap =>
  hs.ne_of_root (by simp [hb]) (fun _ hk hr => hs.counted.ne_of_mcache hb hk hr) hi hsd hcap

theorem Safe.apart_of_cache {s : Slice} (hs : Safe h U K P) (hb : s ∈ K) : Apart h U s.blk :=
  fun _ hi hsd hcap => hs.ne_of_root (Owner.held_ne (hs.counted.cache s hb).2.2).2
    (fun i hi hr => hs.counted.apart i s hb hi hr) hi hsd hcap

theorem Safe.store {m : Nat → Nat → UInt8} (hs : Safe h U K P) : Safe { h with mem := m } U K P :=
  hs.congr rfl rfl rfl rfl (fun _ _ _ => ⟨.refl _, rfl⟩) fun _ _ => rfl

theorem Keeps.store {m : Nat → Nat → UInt8} : Keeps h { h with mem := m } U K P :=
  .of_like ⟨fun _ _ => rfl, rfl, le_rfl, le_rfl⟩ (fun _ _ => rfl) fun _ _ _ _ => .refl _

theorem Safe.pin (hs : Safe h U K P) (ho : h.owner blk ≠ .mcache)
    (hre : ∀ i, 0 < refs h U i → (h.nodes i).reusable → (h.nodes i).buf.blk ≠ blk)
    (hK : ∀ s ∈ K, s.blk ≠ blk) : Safe h U K fun x => P x ∨ x = blk where
  nodup := hs.nodup
  woven := hs.woven
  counted := {
    hs.counted with
    reusable := fun i hi hr => by
      obtain ⟨h1, h2⟩ := hs.counted.reusable i hi hr
      exact ⟨h1, not_or.mpr ⟨h2, hre i hi hr⟩⟩
    cache := fun s hs' => by
      obtain ⟨h1, h2, h3⟩ := hs.counted.cache s hs'
      exact ⟨h1, not_or.mpr ⟨h2, hK s hs'⟩, h3⟩
    pin := fun x hx => by
      rcases hx with hx | rfl
      · exact hs.counted.pin x hx
      · exact ho }

theorem Safe.owner_cache {s : Slice} (hs : Safe h U K P) (hb : h.owner blk = .mcache)
    (hK : s ∈ K) : s.blk ≠ blk := fun he =>
  (Owner.held_ne (hs.counted.cache s hK).2.2).1 (he ▸ hb)

structure Alloc (h h' : Heap) (U : List Nat) (K : List Slice) (s : Slice) : Prop where
  off : s.off = 0
  nodes : h'.nodes = h.nodes
  mem : h'.mem = h.mem
  still : Still h h'
  fresh : h'.fresh = h.fresh
  mcache : h.owner s.blk = .mcache
  apart : Apart h U s.blk
  caches : ∀ q ∈ K, q.blk ≠ s.blk

theorem Heap.take_still {o : Owner} (hb : h.owner blk = .mcache) : Still h (h.take blk o) := by
  refine ⟨fun b hne => ?_, rfl, le_rfl, by simp only [Heap.take]; omega⟩
  have hbb : b ≠ blk := by
    rintro rfl
    exact hne hb
  simp [Heap.take, hbb]

theorem Safe.malloc (hs : Safe h U K P) (size capacity : Nat) :
    ∃ s h', h.malloc size capacity = (s, h') ∧ s.len = size ∧ capacity ≤ s.cap ∧
      Alloc h h' U K s ∧ Safe h' U (s :: K) P := by
  obtain ⟨blk, cap, o, picks, hma, hblk, hcap, ho⟩ :=
    Heap.malloc_eq size capacity (hs.counted.top h.top le_rfl)
  set h' := ({ h with picks := picks }).take blk o with hh'
  have hown : h'.owner blk = o := by simp [hh', Heap.take]
  have hst : Still h h' := by
    have := Heap.take_still (h := { h with picks := picks }) (o := o) hblk
    exact ⟨this.owner, this.freed, this.fresh, this.top⟩
  have hc : Counted h' (refs h U) (⟨blk, 0, size, cap⟩ :: K) P := by
    refine Counted.keep ((hs.counted.picks picks).take hblk) rfl
      (fun hP => hs.counted.pin blk hP hblk) (hown ▸ ho) (fun i hi hr => ?_) fun t ht => ?_
    · exact hs.counted.ne_of_mcache hblk hi hr
    · exact hs.owner_cache hblk ht
  refine ⟨_, h', hma, rfl, hcap, ⟨rfl, rfl, rfl, hst, rfl, hblk, hs.apart_of_mcache hblk,
    fun q hq => ?_⟩, hs.of_counted hc hst.lent fun _ _ => rfl⟩
  exact hs.owner_cache hblk hq

theorem Safe.dirtmake (hs : Safe h U K P) (size capacity : Nat) :
    ∃ s h', h.dirtmake size capacity = (s, h') ∧ s.len = size ∧ s.cap = capacity ∧
      Alloc h h' U K s ∧ Safe h' U K fun x => P x ∨ x = s.blk := by
  have hblk := hs.counted.top h.top le_rfl
  have hst := Heap.take_still (h := h) (o := .gc) hblk
  have hs' : Safe (h.take h.top .gc) U K P :=
    hs.of_counted (hs.counted.take hblk) hst.lent fun _ _ => rfl
  refine ⟨_, _, rfl, rfl, rfl,
    ⟨rfl, rfl, rfl, hst, rfl, hblk, hs.apart_of_mcache hblk, fun q hq => ?_⟩,
    hs'.pin ?_ (fun i hi hr => ?_) fun q hq => ?_⟩
  · exact hs.owner_cache hblk hq
  · simp [Heap.take]
  · exact hs.counted.ne_of_mcache hblk hi (hs.counted.reusable i hi hr).1
  · exact hs.owner_cache hblk hq

@[simp] theorem Heap.advance_pending : (h.advance i n).pending k = h.pending k := by
  by_cases hk : k = i
  · subst hk
    simp [Heap.pending, Heap.advance]
  · simp [Heap.pending, Heap.advance, hk]

theorem Heap.advance_ready_of_ne (hk : k ≠ i) : (h.advance i n).ready k = h.ready k := by
  simp [Heap.ready, Heap.advance, hk]

theorem Heap.advance_ready (hn : n ≤ (h.nodes i).len) :
    (h.advance i n).ready i = (h.ready i).drop n := by
  rw [Heap.ready, Heap.ready, drop_cells hn]
  simp [Heap.advance, Node.len, Nat.add_assoc, Nat.sub_sub]

theorem Heap.cells_front (hn : n ≤ (h.nodes i).len) :
    ((h.nodes i).front n).cells = (h.ready i).take n := by
  rw [Heap.ready, take_cells hn]
  rfl

theorem Node.Fit.off_add (hf : (h.nodes i).Fit) (hn : n ≤ (h.nodes i).len) :
    (h.nodes i).off + n ≤ (h.nodes i).buf.len := by
  have := hf.off
  simp only [Node.len] at hn
  omega

theorem Node.Fit.advance (hf : (h.nodes i).Fit) (hn : n ≤ (h.nodes i).len) (k : Nat)
    (hk : (h.nodes k).Fit) : ((h.advance i n).nodes k).Fit := by
  by_cases hki : k = i
  · subst hki
    have h1 := hf.off_add hn
    constructor <;> simp only [Heap.advance, Heap.set_nodes, Function.update_self]
    exacts [h1, hf.len, hf.malloc, hf.grown]
  · simpa [Heap.advance, hki] using hk

theorem Safe.advance (hs : Safe h U K P) (hi : i ∈ U) : Safe (h.advance i n) U K P := by
  refine hs.congr rfl rfl rfl rfl (fun k _ _ => Heap.advance_like i n k) fun k hk => ?_
  have hki : k ≠ i := by
    rintro rfl
    exact hs.counted.unpooled k (refs_pos_of_mem hi) hk
  simp [Heap.advance, hki]

theorem Rep.advance (hr : Rep h b A B C D) (hi : i ∈ A ++ B ++ C) (hD : i ∉ D)
    (hn : n ≤ (h.nodes i).len) : Rep (h.advance i n) b A B C D where
  seg := hr.seg.congr fun k _ => by
    by_cases hk : k = i
    · subst hk
      simp [Heap.advance]
    · simp [Heap.advance, hk]
  read := hr.read
  flush := hr.flush
  write := hr.write
  fit k hk := (hr.fit i (by simp_all)).advance hn k (hr.fit k hk)
  submitted k hk := by simpa using hr.submitted k hk
  spare k hk := by
    have hki : k ≠ i := by
      rintro rfl
      exact hD hk
    simpa [Heap.advance_ready_of_ne hki] using hr.spare k hk
  reader := hr.reader

theorem Heap.advance_content {l : List Nat} (hl : (i :: l).Nodup) (hn : n ≤ (h.nodes i).len) :
    (h.advance i n).content (i :: l) = (h.content (i :: l)).drop n := by
  have hrest : (h.advance i n).content l = h.content l := by
    apply Heap.content_congr
    intro k hk
    apply Heap.advance_ready_of_ne
    rintro rfl
    exact (List.nodup_cons.mp hl).1 hk
  rw [Heap.content_cons, Heap.content_cons, Heap.advance_ready hn, hrest,
    List.drop_append_of_le_length (by simpa using hn)]

theorem Rep.pass (hr : Rep h b A (i :: B) C D) :
    Rep h { b with read := (h.nodes i).next } (A ++ [i]) B C D where
  seg := by simpa using hr.seg
  read := by
    have hs : Chain.Seg (fun i => (h.nodes i).next) b.head (A ++ i :: (B ++ C ++ D)) none := by
      simpa using hr.seg
    rw [hs.next_eq]
    cases hBC : B ++ C with
    | nil =>
      obtain ⟨rfl, rfl⟩ := List.append_eq_nil_iff.mp hBC
      simp [hr.reader rfl]
    | cons k l => simp
  flush := hr.flush
  write := hr.write
  fit k hk := hr.fit k (by simpa using hk)
  submitted k hk := hr.submitted k (by simp [hk])
  spare := hr.spare
  reader := hr.reader

end Netpoll.Nocopy
