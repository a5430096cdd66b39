import Netpoll.Nocopy.Slice

namespace Netpoll.Nocopy

open Netpoll.Lib Netpoll.Lib.Memory LinkBuffer

/-- The nodes of a buffer, in the order of its chain. -/
structure Parts where
  old : List Nat
  front : List Nat
  back : List Nat
  spare : List Nat

def Parts.all (p : Parts) : List Nat := p.old ++ p.front ++ p.back ++ p.spare

def Parts.live (p : Parts) : List Nat := p.front ++ p.back

def Parts.early (p : Parts) : List Nat := p.front ++ p.back.take 1

def Idle (h : Heap) (p : Parts) : Prop := ∀ k ∈ p.back.tail ++ p.spare, (h.nodes k).buf.len = 0

def LinkBuffer.kept (b : LinkBuffer) : List Slice :=
  b.caches ++ b.cachePeek.toList.map fun s => { s with len := 0 }

def Heap.whole (h : Heap) (l : List Nat) : List Addr := l.flatMap fun i => h.ready i ++ h.pending i

def Heap.later (h : Heap) : List Nat → List Addr
  | [] => []
  | c :: C => h.pending c ++ h.whole C

variable {h h' : Heap} {b b' : LinkBuffer} {p p' : Parts} {U V V' L M : List Nat}
  {K K' : List Slice} {P P' : Nat → Prop} {A B C D : List Nat} {i j k n : Nat} {s : Slice}
  {cfg : Config}

structure Buffer (h : Heap) (b : LinkBuffer) (p : Parts) : Prop where
  rep : Rep h b p.old p.front p.back p.spare
  length : b.length = (h.content p.live).length
  malloc : b.mallocSize = (h.unflushed p.live).length
  owned : Owned h (p.old ++ p.front ++ p.back)
  owned_all : Owned h p.all
  peek : ∀ s, b.cachePeek = some s → s.len ≤ s.cap
  plain : p.back ≠ [] → ∀ i ∈ p.all, (h.nodes i).origin = none

def Loose (h : Heap) (V : List Nat) (K : List Slice) (a : Addr) : Prop :=
  h.owner a.1 = .mcache ∨ (∃ q ∈ K, q.blk = a.1) ∨
    ∃ i ∈ V, (h.nodes i).root ∧ (h.nodes i).buf.blk = a.1 ∧
      (h.nodes i).buf.off + (h.nodes i).malloc ≤ a.2

abbrev Calm (h h' : Heap) (V : List Nat) : Prop := Writes (Loose h V []) h.mem h'.mem

theorem Calm.of_mem {h h' : Heap} {V : List Nat} (hm : h'.mem = h.mem) : Calm h h' V := by
  rw [Calm, hm]
  exact .refl

def Parts.used (p : Parts) : List Nat := p.old ++ p.front ++ p.back

theorem Parts.mem_all_of_used (hk : k ∈ p.used) : k ∈ p.all := List.mem_append_left _ hk

def Stay (h h' : Heap) (p p' : Parts) : Prop :=
  ∀ k ∈ p.used, k ∈ p'.used ∧ (h.nodes k).Like (h'.nodes k)

theorem Stay.trans {h'' : Heap} {p'' : Parts} (hs : Stay h h' p p') (hs' : Stay h' h'' p' p'') :
    Stay h h'' p p'' := fun k hk =>
  ⟨(hs' k (hs k hk).1).1, (hs k hk).2.trans (hs' k (hs k hk).1).2⟩

structure Retained (h h' : Heap) (b b' : LinkBuffer) (p p' : Parts) : Prop where
  nodes : Stay h h' p p'
  caches : b.caches <+: b'.caches

theorem Retained.refl : Retained h h b b p p := ⟨fun _ hk => ⟨hk, .refl _⟩, List.prefix_rfl⟩

theorem Retained.of_bare (hn : ∀ k ∈ p.all, (h'.nodes k).bare = (h.nodes k).bare) :
    Retained h h' b b p p :=
  ⟨fun k hk => ⟨hk, .of_bare (hn k (Parts.mem_all_of_used hk))⟩, List.prefix_rfl⟩

structure Post (h h' : Heap) (b b' : LinkBuffer) (p p' : Parts) (U : List Nat) (K : List Slice)
    (P P' : Nat → Prop) : Prop where
  buffer : Buffer h' b' p'
  safe : Safe h' (p'.all ++ U) (b'.kept ++ K) P'
  keeps : Keeps h h' U K P
  pins : ∀ x, P x → P' x
  caches : ∀ q ∈ b'.kept, (∃ q' ∈ b.kept, q'.blk = q.blk) ∨ h.owner q.blk = .mcache

structure Node.Stays (node node' : Node) : Prop where
  blk : node'.buf.blk = node.buf.blk
  off : node'.buf.off = node.buf.off
  cap : node'.buf.cap = node.buf.cap
  len : node.buf.len ≤ node'.buf.len
  origin : node'.origin = node.origin
  readonly : node.readonly = true → node'.readonly = true ∧ node'.malloc ≤ node.malloc

theorem Node.Like.stays {node node' : Node} (hl : node.Like node') : node.Stays node' :=
  ⟨hl.blk, hl.off, hl.cap, hl.len, hl.origin, fun hr => ⟨hl.readonly.trans hr, hl.written hr⟩⟩

def Grows (h h' : Heap) (V V' : List Nat) : Prop :=
  ∀ k ∈ V', (h'.nodes k).origin = none → 0 < (h'.nodes k).buf.cap →
    (∃ i ∈ V, (h.nodes i).Stays (h'.nodes k)) ∨ h.owner (h'.nodes k).buf.blk = .mcache ∨
      h.owner (h'.nodes k).buf.blk = .lent

theorem Grows.of_like (hV : ∀ k ∈ V', k ∈ V ∧ (h.nodes k).Like (h'.nodes k)) : Grows h h' V V' :=
  fun k hk _ _ => .inl ⟨k, (hV k hk).1, (hV k hk).2.stays⟩

theorem Still.mcache {x : Nat} (hs : Still h h') (hx : h'.owner x = .mcache) :
    h.owner x = .mcache := by
  by_contra hne
  exact hne (hs.owner x hne ▸ hx)

def Adds (h h' : Heap) (V V' : List Nat) : Prop :=
  ∀ k ∈ V', k ∈ V ∧ (h.nodes k).Like (h'.nodes k) ∨ (h'.nodes k).buf.cap = 0 ∨
    (h'.nodes k).readonly = false ∧ h.owner (h'.nodes k).buf.blk = .mcache ∨
      h.owner (h'.nodes k).buf.blk = .lent

theorem Adds.grows (ha : Adds h h' V V') : Grows h h' V V' := by
  intro k hk _ hcap
  rcases ha k hk with ⟨hk, hl⟩ | h0 | ⟨-, hm⟩ | hl
  · exact .inl ⟨k, hk, hl.stays⟩
  · omega
  · exact .inr (.inl hm)
  · exact .inr (.inr hl)

theorem Adds.of_like (hV : ∀ k ∈ V', k ∈ V ∧ (h.nodes k).Like (h'.nodes k)) : Adds h h' V V' :=
  fun k hk => .inl (hV k hk)

theorem Adds.trans_like {h'' : Heap} {V'' : List Nat} (ha : Adds h h' V V')
    (hV : ∀ k ∈ V'', k ∈ V' ∧ (h'.nodes k).Like (h''.nodes k)) : Adds h h'' V V'' := by
  intro k hk
  obtain ⟨hk', hl⟩ := hV k hk
  rw [hl.cap, hl.blk, hl.readonly]
  exact (ha k hk').imp_left fun ⟨hk, hl'⟩ => ⟨hk, hl'.trans hl⟩

theorem Post.trans {h'' : Heap} {b'' : LinkBuffer} {p'' : Parts} (hs : Still h h')
    (hp : Post h h' b b' p p' U K P P) (hp' : Post h' h'' b' b'' p' p'' U K P P) :
    Post h h'' b b'' p p'' U K P P where
  buffer := hp'.buffer
  safe := hp'.safe
  keeps := hp.keeps.trans hp'.keeps
  pins _ := id
  caches q hq := by
    rcases hp'.caches q hq with ⟨q', hq', he⟩ | hm
    · rw [← he]
      exact hp.caches q' hq'
    · exact .inr (hs.mcache hm)

@[simp] theorem Heap.whole_nil : h.whole [] = [] := rfl

@[simp] theorem Heap.whole_cons : h.whole (i :: L) = h.ready i ++ h.pending i ++ h.whole L := rfl

@[simp] theorem Heap.whole_append : h.whole (L ++ M) = h.whole L ++ h.whole M := List.flatMap_append

@[simp] theorem Heap.later_nil : h.later [] = [] := rfl

theorem Heap.later_append (hL : L ≠ []) : h.later (L ++ M) = h.later L ++ h.whole M := by
  cases L with
  | nil => exact absurd rfl hL
  | cons c C => simp [Heap.later]

theorem Heap.whole_congr (hr : ∀ i ∈ L, h'.ready i = h.ready i)
    (hp : ∀ i ∈ L, h'.pending i = h.pending i) : h'.whole L = h.whole L := by
  simp only [Heap.whole, List.flatMap_def]
  rw [List.map_congr_left fun i hi => by rw [hr i hi, hp i hi]]

theorem Heap.later_congr (hr : ∀ i ∈ L.tail, h'.ready i = h.ready i)
    (hp : ∀ i ∈ L, h'.pending i = h.pending i) : h'.later L = h.later L := by
  cases L with
  | nil => rfl
  | cons c C =>
    rw [Heap.later, Heap.later, hp c (by simp), Heap.whole_congr (L := C) hr
      fun i hi => hp i (by simp [hi])]

theorem Heap.whole_eq_nil (hL : ∀ i ∈ L, h.ready i = [] ∧ h.pending i = []) : h.whole L = [] := by
  simpa [Heap.whole, List.flatMap_eq_nil_iff] using hL

theorem Heap.unflushed_eq_nil (hL : ∀ i ∈ L, h.pending i = []) : h.unflushed L = [] := by
  simpa [Heap.unflushed, List.flatMap_eq_nil_iff] using hL

theorem Heap.content_early :
    h.content (B ++ C) = h.content (B ++ C.take 1) ++ h.content C.tail := by
  rw [← List.drop_one, ← Heap.content_append, List.append_assoc, List.take_append_drop]

theorem Parts.content_live : h.content p.live = h.content p.early ++ h.content p.back.tail :=
  Heap.content_early

theorem Rep.unflushed_live (hr : Rep h b A B C D) : h.unflushed (B ++ C) = h.unflushed C := by
  rw [Heap.unflushed_append, Heap.unflushed_eq_nil hr.submitted, List.nil_append]

theorem Parts.mem_all_of_live (hi : i ∈ p.live) : i ∈ p.all := by
  simp only [Parts.live, Parts.all, List.mem_append] at hi ⊢
  grind

theorem Parts.mem_live_of_early (hi : i ∈ p.early) : i ∈ p.live := by
  have := List.mem_of_mem_take (l := p.back) (i := 1) (a := i)
  simp only [Parts.early, Parts.live, List.mem_append] at hi ⊢
  grind

theorem Parts.mem_all_of_back (hi : i ∈ p.back) : i ∈ p.all := by simp [Parts.all, hi]

theorem Heap.unflushed_bare (hb : ∀ i ∈ L, (h'.nodes i).bare = (h.nodes i).bare) :
    h'.unflushed L = h.unflushed L :=
  Heap.unflushed_congr fun i hi => Heap.pending_of_bare (hb i hi)

theorem Heap.content_bare (hb : ∀ i ∈ L, (h'.nodes i).bare = (h.nodes i).bare) :
    h'.content L = h.content L :=
  Heap.content_congr fun i hi => Heap.ready_of_bare (hb i hi)

theorem Heap.later_bare (hb : ∀ i ∈ L, (h'.nodes i).bare = (h.nodes i).bare) :
    h'.later L = h.later L :=
  Heap.later_congr (fun i hi => Heap.ready_of_bare (hb i (List.mem_of_mem_tail hi)))
    fun i hi => Heap.pending_of_bare (hb i hi)

theorem Buffer.of_bare (hb : Buffer h b p) (hl : ∀ x, h.owner x = .lent → h'.owner x = .lent)
    (hn : ∀ i ∈ p.all, (h'.nodes i).bare = (h.nodes i).bare) : Buffer h' b p where
  rep := hb.rep.of_bare hn
  length := by
    rw [Heap.content_bare fun i hi => hn i (Parts.mem_all_of_live hi), hb.length]
  malloc := by
    rw [Heap.unflushed_bare fun i hi => hn i (Parts.mem_all_of_live hi), hb.malloc]
  owned := hb.owned.like hl fun i hi => .of_bare (hn i (List.mem_append_left _ hi))
  owned_all := hb.owned_all.like hl fun i hi => .of_bare (hn i hi)
  peek := hb.peek
  plain hback i hi := by
    rw [(Node.Like.of_bare (hn i hi)).origin]
    exact hb.plain hback i hi

theorem Rep.of_eq (hr : Rep h b A B C D) (h₁ : b'.head = b.head) (h₂ : b'.read = b.read)
    (h₃ : b'.flush = b.flush) (h₄ : b'.write = b.write) : Rep h b' A B C D :=
  { hr with
    seg := h₁ ▸ hr.seg
    read := h₂ ▸ hr.read
    flush := h₃ ▸ hr.flush
    write := h₄ ▸ hr.write }

theorem Node.Fit.mem_bounds {a : Addr} (hf : (h.nodes i).Fit) (ha : a ∈ h.ready i ++ h.pending i) :
    a.1 = (h.nodes i).buf.blk ∧ (h.nodes i).buf.off + (h.nodes i).off ≤ a.2 ∧
      a.2 < (h.nodes i).buf.off + max (h.nodes i).buf.len (h.nodes i).malloc ∧
      0 < (h.nodes i).buf.cap := by
  have hfo := hf.off
  have hfl := hf.len
  have hfm := hf.malloc
  rcases List.mem_append.mp ha with ha | ha
  · rw [Heap.ready, mem_cells, Node.len] at ha
    exact ⟨ha.1, ha.2.1, by omega, by omega⟩
  · rw [Heap.pending, mem_cells] at ha
    exact ⟨ha.1, by omega, by omega, by omega⟩

theorem Safe.not_loose {a : Addr} (hs : Safe h U K P) (hi : i ∈ U) (hsd : Sound h i)
    (hf : (h.nodes i).Fit) (ha : a ∈ h.ready i ++ h.pending i)
    (hV : ∀ k ∈ V, k ∈ U ∧ (h.nodes k).Fit) (hK : ∀ q ∈ K', q ∈ K) : ¬ Loose h V K' a := by
  have hfl := hf.len
  have hfm := hf.malloc
  obtain ⟨hblk, hlo, hhi, hcap⟩ := hf.mem_bounds ha
  rintro (hm | ⟨q, hq, he⟩ | ⟨k, hk, hroot, he, hle⟩)
  · exact hs.apart_of_mcache hm i hi hsd hcap hblk.symm
  · exact hs.apart_of_cache (hK q hq) i hi hsd hcap (he ▸ hblk.symm)
  · obtain ⟨hkU, hfk⟩ := hV k hk
    have hk' : 0 < refs h U k := refs_pos_of_mem hkU
    have hlive := Owner.held_ne (hs.counted.live k hk' hroot)
    have hgrown := hfk.grown hroot.1
    have hsame : (h.nodes i).buf.blk = (h.nodes k).buf.blk := hblk.symm.trans he.symm
    cases ho : (h.nodes i).origin with
    | none =>
      have hgi := hf.grown ho
      by_cases hik : i = k
      · subst hik
        omega
      · cases hro : (h.nodes i).readonly with
        | false =>
          exact hik (hs.counted.distinct i k (refs_pos_of_mem hi) hk' ⟨ho, hro, hcap⟩ hroot hsame)
        | true =>
          have hp := hs.woven.parted i hi k hkU hik ⟨ho, hro, hcap⟩ hroot.1 hroot.2.2 hsame
            (hsame ▸ hlive.2)
          have h1 := hp.1
          have h2 := hfk.off
          rcases hp.2 with hle' | ⟨hro', -⟩
          · omega
          · simp [hroot.2.1] at hro'
    | some r =>
      have hsl := hs.sliced hi ho
      have h1 := hsl.fits
      have h2 := hsl.len
      have h3 := hsl.start
      rcases hsd r ho with hro | hlent
      · have hrk : r = k := hs.counted.distinct r k (refs_pos_of_origin hi ho) hk'
          ⟨hsl.origin, hro, by omega⟩ hroot (hsl.blk ▸ hsame)
        subst hrk
        omega
      · rw [← hsl.blk, hsame] at hlent
        exact hlive.2 hlent

theorem Writes.look_ready {m : Nat → Nat → UInt8} (hw : Writes (Loose h V K') h.mem m)
    (hs : Safe h U K P) (hL : ∀ i ∈ L, i ∈ U ∧ Sound h i ∧ (h.nodes i).Fit)
    (hV : ∀ k ∈ V, k ∈ U ∧ (h.nodes k).Fit) (hK : ∀ q ∈ K', q ∈ K) {l : List Addr}
    (hl : ∀ a ∈ l, ∃ i ∈ L, a ∈ h.ready i ++ h.pending i) : Memory.look m l = h.look l :=
  hw.look fun a ha => by
    obtain ⟨i, hi, hai⟩ := hl a ha
    exact hs.not_loose (hL i hi).1 (hL i hi).2.1 (hL i hi).2.2 hai hV hK

theorem Took.later_eq {A' B' : List Nat} (ht : Took h h' b' A B C D U K P n A' B') :
    h'.later C = h.later C :=
  Heap.later_congr ht.rest fun i hi => by
    have := ht.sameBuf i (by simp [hi])
    simp only [Heap.pending, this.1, this.2]

theorem Took.buffer {A' B' : List Nat} (hb : Buffer h b p)
    (ht : Took h h' b' p.old p.front p.back p.spare U K P n A' B')
    (hn : n ≤ (h.content p.early).length) (hlen : b'.length = b.length - n)
    (hms : b'.mallocSize = b.mallocSize) (hpk : ∀ s, b'.cachePeek = some s → s.len ≤ s.cap) :
    Buffer h' b' ⟨A', B', p.back, p.spare⟩ where
  rep := ht.rep
  length := by
    have htail : h'.content p.back.tail = h.content p.back.tail :=
      Heap.content_congr fun i hi => ht.rest i hi
    rw [hlen, hb.length, Parts.content_live, Parts.content_live, htail, List.length_append,
      List.length_append, Parts.early, Parts.early, ht.content, List.length_drop]
    simp only [Parts.early] at hn
    omega
  malloc := by
    have hback : h'.unflushed p.back = h.unflushed p.back := Heap.unflushed_congr fun i hi => by
      have := ht.sameBuf i (by simp [hi])
      simp only [Heap.pending, this.1, this.2]
    rw [hms, hb.malloc, Parts.live, Parts.live, hb.rep.unflushed_live, ht.rep.unflushed_live, hback]
  owned := by
    rw [ht.split]
    exact hb.owned.like ht.still.lent fun i hi => ht.like i (List.mem_append_left _ hi)
  owned_all := by
    rw [Parts.all, ht.split]
    exact hb.owned_all.like ht.still.lent ht.like
  peek := hpk
  plain hback i hi := by
    rw [Parts.all, ht.split] at hi
    rw [(ht.like i hi).origin]
    exact hb.plain hback i hi

end Netpoll.Nocopy
