import Netpoll.Nocopy.World

namespace Netpoll.Nocopy

open Netpoll.Lib Netpoll.Lib.Memory

variable {h h' : Heap} {b b' : LinkBuffer} {p p' : Parts} {U V : List Nat} {K K' : List Slice}
  {P P' : Nat → Prop} {i j k n : Nat} {s : Slice} {l : List Addr} {C : List Nat} {cfg : Config}
  {a : Act} {o : Out}

def Written (h : Heap) (V : List Nat) (K : List Slice) (x : Addr) : Prop :=
  Loose h V K x ∨ (∃ k ∈ V, (h.nodes k).origin = none ∧ x ∈ h.pending k) ∧ h.owner x.1 ≠ .lent

def Act.acks : Act → Bool
  | .mallocAck _ => true
  | _ => false

def Act.splits : Act → Bool
  | .writeDirect _ _ => true
  | _ => false

def Act.quiet : Act → Bool
  | .peek _ | .release | .close => false
  | _ => true

def Act.remain : Act → Int
  | .writeDirect _ r => r
  | _ => 0

def Act.acked : Act → Option Nat
  | .mallocAck n => if 0 ≤ n then some n.toNat else none
  | _ => none

def Unsplit (h : Heap) (V : List Nat) : Prop :=
  ∀ k ∈ V, (h.nodes k).view → h.owner (h.nodes k).buf.blk = .lent

structure Acted (h h' : Heap) (b b' : LinkBuffer) (p p' : Parts) (a : Act) (U : List Nat)
    (K : List Slice) (P P' : Nat → Prop) : Prop where
  buffer : Buffer h' b' p'
  safe : Safe h' (p'.all ++ U) (b'.kept ++ K) P'
  node : ∀ k ∈ U, (h'.nodes k).bare = (h.nodes k).bare
  later : Later h h' fun x => h.owner x = .lent ∨ P x
  keeps : a.splits = false → Keeps h h' U K P
  still : a.quiet → Still h h'
  calm : a.quiet → Writes (Written h p.all []) h.mem h'.mem
  pins : ∀ x, P x → P' x
  caches : ∀ q ∈ b'.kept, (∃ q' ∈ b.kept, q'.blk = q.blk) ∨ h.owner q.blk = .mcache
  writes : Writes (Written h p.all b.kept) h.mem h'.mem
  grows : a.acks = false → Grows h h' p.all p'.all
  writer : p.back ≠ [] ∨ p.all = [] → p'.back ≠ [] ∨ p'.all = []
  opens : a ≠ .close → p.back ≠ [] → p'.back ≠ []
  flushed : h.content p.back.tail = [] → h'.content p'.back.tail = []
  unsplit : a.splits = false → Unsplit h p.all → Unsplit h' p'.all
  idle : a.splits = false → Idle h p → Idle h' p'

theorem Post.later (hp : Post h h' b b' p p' U K P P') :
    Later h h' fun x => h.owner x = .lent ∨ P x :=
  hp.keeps.later.mono fun _ hx => hx.imp_right .inl

theorem Heap.length_later :
    (h.later C).length = (h.unflushed C).length + (h.content C.tail).length := by
  cases C with
  | nil => rfl
  | cons c C =>
    simp only [Heap.later, Heap.unflushed_cons, List.length_append, Heap.length_whole,
      List.tail_cons]
    omega

theorem flushed_of_length
    {C C' : List Nat} {l : List Addr} (hl : (h'.later C').length = (h.later C).length + l.length)
    (hu : (h'.unflushed C').length = (h.unflushed C).length + l.length)
    (hc : h.content C.tail = []) :
    h'.content C'.tail = [] := by
  rw [Heap.length_later, Heap.length_later, hu, hc, List.length_nil] at hl
  exact List.eq_nil_of_length_eq_zero (by omega)

theorem Unsplit.kin {V' : List Nat} (hu : Unsplit h V)
    (hl : ∀ x, h.owner x = .lent → h'.owner x = .lent)
    (hV : ∀ k ∈ V', k ∈ V ∧ (h.nodes k).Kin (h'.nodes k)) : Unsplit h' V' := by
  intro k hk hv
  obtain ⟨hk, hkin⟩ := hV k hk
  rw [hkin.blk]
  exact hl _ (hu k hk (hkin.view.mp hv))

theorem Unsplit.adds {V' : List Nat} (hu : Unsplit h V)
    (hl : ∀ x, h.owner x = .lent → h'.owner x = .lent) (ha : Adds h h' V V') : Unsplit h' V' := by
  intro k hk hv
  rcases ha k hk with ⟨hk, hlike⟩ | h0 | ⟨hro, -⟩ | hlent
  · rw [hlike.blk]
    exact hl _ (hu k hk (hlike.view.mp hv))
  · exact absurd hv.2.2 (by simp [h0])
  · exact absurd hv.2.1 (by simp [hro])
  · exact hl _ hlent

theorem Acted.refl (hb : Buffer h b p) (hs : Safe h (p.all ++ U) (b.kept ++ K) P) :
    Acted h h b b p p a U K P P where
  buffer := hb
  safe := hs
  node _ _ := rfl
  later := Still.refl.later
  keeps _ := .refl
  still _ := .refl
  calm _ := .refl
  pins _ := id
  caches q hq := .inl ⟨q, hq, rfl⟩
  writes := .refl
  grows _ := .of_like fun _ hk => ⟨hk, .refl _⟩
  writer := id
  opens _ := id
  flushed := id
  unsplit _ := id
  idle _ := id

theorem Buffer.spare_congr (hb : Buffer h b p) (hb' : Buffer h' b' p') (hall : p'.all = p.all)
    (hback : p'.back = p.back) (hnd : p'.all.Nodup) : p'.spare = p.spare := by
  cases hC : p.back with
  | nil => rw [hb.rep.reader hC, hb'.rep.reader (hback.trans hC)]
  | cons c C =>
    rw [Parts.all, Parts.all, hback, hC, List.append_assoc (p'.old ++ _),
      List.append_assoc (p.old ++ _), List.cons_append] at hall
    rw [Parts.all, hback, hC, List.append_assoc, List.cons_append] at hnd
    obtain ⟨-, hcC, hdis⟩ := List.nodup_append.mp hnd
    obtain ⟨-, -, htail⟩ := (List.append_cons_inj_of_notMem (fun hc => hdis c hc c (by simp) rfl)
      (List.nodup_cons.mp hcC).1).mp hall
    exact List.append_cancel_left htail

theorem ReadPost.spare (hb : Buffer h b p) (hp : ReadPost h h' b b' p p' n U K P P') :
    p'.spare = p.spare :=
  hb.spare_congr hp.post.buffer hp.all hp.back hp.post.safe.nodup.of_append_left

theorem ReadPost.stay (hb : Buffer h b p) (hp : ReadPost h h' b b' p p' n U K P P') :
    Stay h h' p p' := by
  have hused : p'.used = p.used := by
    have hall := hp.all
    rw [Parts.all, Parts.all, hp.spare hb] at hall
    exact List.append_cancel_right hall
  exact fun k hk => ⟨hused ▸ hk, hp.like k (Parts.mem_all_of_used hk)⟩

theorem Parts.mem_all_of_tail (hk : k ∈ p.back.tail ++ p.spare) : k ∈ p.all := by
  rcases List.mem_append.mp hk with hk | hk
  · exact Parts.mem_all_of_back (List.mem_of_mem_tail hk)
  · exact List.mem_append_right _ hk

theorem ReadPost.acted (hb : Buffer h b p) (hp : ReadPost h h' b b' p p' n U K P P')
    (hw : Writes (Loose h p.all b.kept) h.mem h'.mem) (hst : a.quiet → Still h h')
    (hc : a.quiet → Calm h h' p.all) : Acted h h' b b' p p' a U K P P' where
  buffer := hp.post.buffer
  safe := hp.post.safe
  node := hp.post.keeps.node
  later := hp.post.later
  keeps _ := hp.post.keeps
  still := hst
  calm hq := (hc hq).mono fun _ => .inl
  pins := hp.post.pins
  caches := hp.post.caches
  writes := hw.mono fun _ => .inl
  grows _ := hp.grows
  writer hb := hb.imp (hp.back ▸ ·) (hp.all ▸ ·)
  opens _ hb := hp.back ▸ hb
  flushed := by
    have hu : h'.unflushed p'.back = h.unflushed p.back := by
      rw [hp.back]
      exact Heap.unflushed_congr fun k hk => by
        have := hp.sameBuf k (Parts.mem_all_of_back hk)
        simp only [Heap.pending, this.1, this.2]
    exact flushed_of_length (l := []) (by rw [hp.later]; rfl) (by rw [hu]; rfl)
  unsplit _ hu := hu.kin hp.post.keeps.later.lent fun k hk =>
    ⟨hp.all ▸ hk, (hp.like k (hp.all ▸ hk)).kin⟩
  idle _ hi k hk := by
    rw [hp.back, hp.spare hb] at hk
    rw [(hp.sameBuf k (Parts.mem_all_of_tail hk)).1]
    exact hi k hk

theorem Loose.mono {V' : List Nat} {x : Addr} (hx : Loose h V K x) (hV : ∀ k ∈ V, k ∈ V')
    (hK : ∀ q ∈ K, q ∈ K') : Loose h V' K' x := by
  rcases hx with hm | ⟨q, hq, he⟩ | ⟨k, hk, hr⟩
  · exact .inl hm
  · exact .inr (.inl ⟨q, hK q hq, he⟩)
  · exact .inr (.inr ⟨k, hV k hk, hr⟩)

theorem Calm.loose (hc : Calm h h' V) : Writes (Loose h V K) h.mem h'.mem :=
  Writes.mono hc fun _ hx => hx.mono (fun _ hk => hk) fun _ hq => by cases hq

theorem Wrote.acted (hw : Wrote h h' b b' p p' l U K P) (hc : Calm h h' p.all) :
    Acted h h' b b' p p' a U K P P where
  buffer := hw.post.buffer
  safe := hw.post.safe
  node := hw.post.keeps.node
  later := hw.post.later
  keeps _ := hw.post.keeps
  still _ := hw.still
  calm _ := hc.mono fun _ => .inl
  pins := hw.post.pins
  caches := hw.post.caches
  writes := hc.loose.mono fun _ => .inl
  grows _ := hw.adds.grows
  writer _ := .inl hw.back
  opens _ _ := hw.back
  flushed := flushed_of_length (l := l) (by rw [hw.later, List.length_append])
    (by rw [hw.pending, List.length_append])
  unsplit _ hu := hu.adds hw.still.lent hw.adds
  idle _ := hw.idle

theorem FlushPost.acted (hf : FlushPost h h' b b' p p' U K P) : Acted h h' b b' p p' a U K P P where
  buffer := hf.post.buffer
  safe := hf.post.safe
  node := hf.post.keeps.node
  later := hf.post.later
  keeps _ := hf.post.keeps
  still _ := hf.still
  calm _ := by
    rw [hf.mem]
    exact .refl
  pins := hf.post.pins
  caches := hf.post.caches
  writes := by
    rw [hf.mem]
    exact .refl
  grows _ := hf.adds.grows
  writer _ := .inl hf.back
  opens _ _ := hf.back
  flushed _ := by
    have hl := Heap.length_later (h := h') (C := p'.back)
    rw [hf.later, List.length_nil] at hl
    exact List.eq_nil_of_length_eq_zero (by omega)
  unsplit _ hu := hu.adds hf.still.lent hf.adds
  idle _ := hf.idle

theorem ackSplit_sub (h : Heap) (L : List Nat) (n : Nat) :
    (∀ k ∈ (ackSplit h L n).1.tail, k ∈ L.tail) ∧
      (ackSplit h L n).1 ++ (ackSplit h L n).2 = L := by
  induction L generalizing n with
  | nil => simp [ackSplit]
  | cons i L ih =>
    simp only [ackSplit]
    split
    · simp
    · refine ⟨fun k hk => ?_, by simp [(ih _).2]⟩
      rw [List.tail_cons] at hk ⊢
      rw [← (ih (n - ((h.nodes i).malloc - (h.nodes i).buf.len))).2]
      exact List.mem_append_left _ hk

theorem ackSplit_rest (h : Heap) (L : List Nat) (n : Nat) :
    ∀ k ∈ (ackSplit h L n).2, k ∈ L.tail := by
  cases L with
  | nil => simp [ackSplit]
  | cons i L =>
    simp only [ackSplit]
    split
    · exact fun k hk => hk
    · intro k hk
      rw [List.tail_cons, ← (ackSplit_sub h L (n - ((h.nodes i).malloc - (h.nodes i).buf.len))).2]
      exact List.mem_append_right _ hk

theorem AckPost.acted (ha : AckPost h h' b b' p p' n U K P) (hack : a.acks) :
    Acted h h' b b' p p' a U K P P where
  buffer := ha.post.buffer
  safe := ha.post.safe
  node := ha.post.keeps.node
  later := ha.post.later
  keeps _ := ha.post.keeps
  still _ := ha.still
  calm _ := by
    rw [ha.mem]
    exact .refl
  pins := ha.post.pins
  caches := ha.post.caches
  writes := by
    rw [ha.mem]
    exact .refl
  grows hn := by simp [hack] at hn
  writer _ := .inl ha.back
  opens _ _ := ha.back
  flushed hc := by
    refine Heap.content_eq_nil fun k hk => ?_
    rw [ha.ready k (List.mem_of_mem_tail hk)]
    rw [ha.parts] at hk
    have hk := (ackSplit_sub h p.back n).1 k hk
    simp only [Heap.content, List.flatMap_eq_nil_iff] at hc
    exact hc k hk
  unsplit _ hu := hu.kin ha.still.lent fun k hk => by
    refine ⟨?_, ha.kin k⟩
    rw [ha.parts] at hk
    have hsp := (ackSplit_sub h p.back n).2
    rw [Parts.all, ← hsp]
    simpa [Parts.all, or_assoc] using hk
  idle _ hi k hk := by
    have hk : k ∈ p.back.tail ++ p.spare := by
      rw [ha.parts] at hk
      simp only [List.mem_append] at hk ⊢
      have h1 := (ackSplit_sub h p.back n).1 k
      have h2 := ackSplit_rest h p.back n k
      tauto
    exact Nat.le_zero.mp (hi k hk ▸ ha.len k)

theorem DirectPost.acted {r : Nat} (hd : DirectPost h h' b b' p p' s r U K P) (hsp : a.splits) :
    Acted h h' b b' p p' a U K P P where
  buffer := hd.buffer
  safe := hd.safe
  node k hk := by rw [hd.node k hk]
  later := hd.still.later
  keeps hn := by simp [hsp] at hn
  still _ := hd.still
  calm _ := by
    rw [hd.mem]
    exact .refl
  pins _ := id
  caches q hq := .inl ⟨q, hd.kept ▸ hq, rfl⟩
  writes := by
    rw [hd.mem]
    exact .refl
  grows _ := hd.grows
  writer _ := .inl hd.back
  opens _ _ := hd.back
  flushed hc := hd.content.trans hc
  unsplit hn := by simp [hsp] at hn
  idle hn := by simp [hsp] at hn

namespace LinkBuffer

def wants (b : LinkBuffer) (h : Heap) : Act → Int
  | .next n | .peek n | .skip n | .readBinary n | .readString n => n
  | .readByte => 1
  | .readUntil c =>
    match b.indexByte h c 0 with
    | some (some k) => k + 1
    | _ => 0
  | _ => 0

/-- Only bytes are read that have been flushed, although `WriteBuffer` counts others at once. -/
def Modest (b : LinkBuffer) (h : Heap) (n : Int) : Prop :=
  n ≤ b.length → n ≤ (b.readable h).length

/-- The node that `WriteDirect` cuts has a block that can be written. -/
def CutsOwn (b : LinkBuffer) (h : Heap) (r : Int) : Prop :=
  0 < r → ∀ x ∈ cutLoop (h.fresh + 1) h b.flush (b.mallocSize - r),
    (h.nodes x.1).readonly = false ∧ 0 < (h.nodes x.1).buf.cap

def discards (b : LinkBuffer) (h : Heap) (n : Nat) : List Nat :=
  (ackSplit h (b.back h) n).2 ++ b.spare h

/-- `MallocAck(n)` trims the last node it keeps. -/
def Trims (b : LinkBuffer) (h : Heap) (n : Nat) : Prop :=
  n = 0 → ∀ c ∈ (b.back h).head?, h.pending c = []

/-- `MallocAck(n)` empties no node with bytes that have been flushed. -/
def Spares (b : LinkBuffer) (h : Heap) (n : Nat) : Prop :=
  h.content (ackSplit h (b.back h) n).2 = []

def Unsliced (b : LinkBuffer) (h : Heap) (V : List Nat) (n : Nat) : Prop :=
  ∀ j ∈ b.discards h n, ∀ k ∈ V, (h.nodes k).origin ≠ some j

def KeepsParts (b : LinkBuffer) (h : Heap) (n : Nat) : Prop :=
  ∀ j ∈ b.discards h n, (h.nodes j).root → ∀ i ∈ b.chain h, i ∉ b.discards h n → (h.nodes i).view →
    (h.nodes i).buf.blk ≠ (h.nodes j).buf.blk

/-- The call leaves the nodes `V` of all buffers in order. -/
def Careful (b : LinkBuffer) (h : Heap) (V : List Nat) (a : Act) : Prop :=
  b.Modest h (b.wants h a) ∧ b.CutsOwn h a.remain ∧
    ∀ n ∈ a.acked, b.Trims h n ∧ b.Spares h n ∧ b.Unsliced h V n ∧ b.KeepsParts h n

def CutsFree (b : LinkBuffer) (h : Heap) (P : Nat → Prop) (r : Int) : Prop :=
  0 < r → ∀ x ∈ cutLoop (h.fresh + 1) h b.flush (b.mallocSize - r), ¬ P (h.nodes x.1).buf.blk

instance (b : LinkBuffer) (h : Heap) (n : Int) : Decidable (b.Modest h n) :=
  inferInstanceAs (Decidable (_ → _))

instance (b : LinkBuffer) (h : Heap) (r : Int) : Decidable (b.CutsOwn h r) :=
  inferInstanceAs (Decidable (_ → ∀ x ∈ cutLoop _ _ _ _, _))

instance (b : LinkBuffer) (h : Heap) (n : Nat) : Decidable (b.Trims h n) :=
  inferInstanceAs (Decidable (_ → ∀ c ∈ (b.back h).head?, _))

instance (b : LinkBuffer) (h : Heap) (n : Nat) : Decidable (b.Spares h n) :=
  inferInstanceAs (Decidable (_ = []))

instance (b : LinkBuffer) (h : Heap) (V : List Nat) (n : Nat) : Decidable (b.Unsliced h V n) :=
  inferInstanceAs (Decidable (∀ j ∈ b.discards h n, ∀ k ∈ V, _))

instance (node : Node) : Decidable node.root := inferInstanceAs (Decidable (_ ∧ _))

instance (node : Node) : Decidable node.view := inferInstanceAs (Decidable (_ ∧ _))

instance (b : LinkBuffer) (h : Heap) (n : Nat) : Decidable (b.KeepsParts h n) :=
  inferInstanceAs (Decidable (∀ j ∈ b.discards h n, _ → ∀ i ∈ b.chain h, _ → _ → _))

instance (b : LinkBuffer) (h : Heap) (V : List Nat) (a : Act) : Decidable (b.Careful h V a) :=
  inferInstanceAs (Decidable (_ ∧ _ ∧ ∀ n ∈ a.acked, _))

end LinkBuffer

section Run

variable (hb : Buffer h b p) (hs : Safe h (p.all ++ U) (b.kept ++ K) P) (hv : Viewed h U)
include hb hs

theorem read_acted {m : Int} (hm : b.Modest h m) (hun : m ≤ 0 ∨ b.length < m → b' = b ∧ h' = h)
    (htake : ∀ n : Nat, m = n → 0 < n → n ≤ (h.content p.early).length → ¬ b.length < n →
      ∃ p' P', Acted h h' b b' p p' a U K P P') : ∃ p' P', Acted h h' b b' p p' a U K P P' := by
  by_cases hc : m ≤ 0 ∨ b.length < m
  · obtain ⟨rfl, rfl⟩ := hun hc
    exact ⟨p, P, .refl hb hs⟩
  · obtain ⟨n, rfl⟩ : ∃ n : Nat, m = n := ⟨m.toNat, by omega⟩
    have hn := hm (by omega)
    rw [hb.readable_eq hs] at hn
    exact htake n rfl (by omega) (by omega) (by omega)

theorem next_acted {m : Int} {r : Except String Slice} (hm : b.Modest h m)
    (hrun : b.next h m = some (r, b', h')) : ∃ p' P', Acted h h' b b' p p' a U K P P' := by
  refine read_acted hb hs hm (fun hc => ?_) fun n hmn hpos hn hlen => ?_
  · simp only [LinkBuffer.next] at hrun
    split_ifs at hrun <;> simp_all
  · obtain ⟨s, b₁, h₁, p', P', htake, hp, hst, hc, -⟩ := takeNext_spec hb hs hpos hn
    subst hmn
    simp only [LinkBuffer.next, show ¬ (n : Int) ≤ 0 by omega, if_false, if_neg hlen,
      Int.toNat_natCast, htake, Option.map_some, Option.some.injEq, Prod.mk.injEq] at hrun
    obtain ⟨-, rfl, rfl⟩ := hrun
    exact ⟨p', P', hp.acted hb hc.loose (fun _ => hst) fun _ => hc⟩

theorem readBinary_acted {m : Int} {r : Except String Slice} (hm : b.Modest h m)
    (hrun : b.readBinary h cfg m = some (r, b', h')) :
    ∃ p' P', Acted h h' b b' p p' a U K P P' := by
  refine read_acted hb hs hm (fun hc => ?_) fun n hmn hpos hn hlen => ?_
  · simp only [LinkBuffer.readBinary] at hrun
    split_ifs at hrun <;> simp_all
  · obtain ⟨s, b₁, h₁, p', P', htake, hp, hst, hc, -⟩ := readBinaryN_spec cfg hb hs hpos hn
    subst hmn
    simp only [LinkBuffer.readBinary, show ¬ (n : Int) ≤ 0 by omega, if_false, if_neg hlen,
      Int.toNat_natCast, htake, Option.map_some, Option.some.injEq, Prod.mk.injEq] at hrun
    obtain ⟨-, rfl, rfl⟩ := hrun
    exact ⟨p', P', hp.acted hb hc.loose (fun _ => hst) fun _ => hc⟩

omit hb hs in
theorem writeString_eq : b.writeString h cfg s = b.writeBinary h cfg s := by
  simp only [LinkBuffer.writeString, LinkBuffer.writeBinary]
  split <;> rfl

omit hb hs in
theorem readString_eq {m : Int} {r : Except String Slice}
    (hrun : b.readString h cfg m = some (r, b', h')) :
    ∃ r', b.readBinary h cfg m = some (r', b', h') := by
  simp only [LinkBuffer.readString, LinkBuffer.readBinary] at hrun ⊢
  split_ifs at hrun ⊢
  · exact ⟨_, hrun⟩
  · simp only [Option.some.injEq, Prod.mk.injEq] at hrun
    exact ⟨_, by rw [hrun.2.1, hrun.2.2]⟩
  · exact ⟨_, hrun⟩

theorem peek_acted {m : Int} {r : Except String Slice} (hq : a.quiet = false) (hm : b.Modest h m)
    (hrun : b.peek h m = some (r, b', h')) : ∃ p' P', Acted h h' b b' p p' a U K P P' := by
  refine read_acted hb hs hm (fun hc => ?_) fun n hmn hpos hn hlen => ?_
  · simp only [LinkBuffer.peek] at hrun
    split_ifs at hrun <;> simp_all
  · obtain ⟨s, b₁, h₁, p', htake, hp, -, hw, -⟩ := takePeek_spec hb hs hpos hn
    subst hmn
    simp only [LinkBuffer.peek, show ¬ (n : Int) ≤ 0 by omega, if_false, if_neg hlen,
      Int.toNat_natCast, htake, Option.map_some, Option.some.injEq, Prod.mk.injEq] at hrun
    obtain ⟨-, rfl, rfl⟩ := hrun
    exact ⟨p', P, hp.acted hb hw (fun h => by simp [hq] at h) fun h => by simp [hq] at h⟩

theorem skip_acted {m : Int} {r : Except String Unit} (hm : b.Modest h m)
    (hrun : b.skip h m = some (r, b', h')) : ∃ p' P', Acted h h' b b' p p' a U K P P' := by
  refine read_acted hb hs hm (fun hc => ?_) fun n hmn hpos hn hlen => ?_
  · simp only [LinkBuffer.skip] at hrun
    split_ifs at hrun <;> simp_all
  · obtain ⟨b₁, h₁, p', htake, hp, hst, hmem⟩ := skip_spec hb hs hpos hn
    rw [hmn, htake, Option.some.injEq, Prod.mk.injEq, Prod.mk.injEq] at hrun
    obtain ⟨-, rfl, rfl⟩ := hrun
    exact ⟨p', P, hp.acted hb (Calm.of_mem hmem).loose (fun _ => hst) fun _ => .of_mem hmem⟩

theorem readByte_acted {r : Except String UInt8} (hm : b.Modest h 1)
    (hrun : b.readByte h = some (r, b', h')) : ∃ p' P', Acted h h' b b' p p' a U K P P' := by
  refine read_acted hb hs hm (fun hc => ?_) fun n hmn hpos hn hlen => ?_
  · simp only [LinkBuffer.readByte] at hrun
    split_ifs at hrun <;> simp_all
  · obtain ⟨c, b₁, h₁, p', htake, hp, hst, hmem, -⟩ := readByte_spec hb hs (by omega)
    rw [htake, Option.some.injEq, Prod.mk.injEq, Prod.mk.injEq] at hrun
    obtain ⟨-, rfl, rfl⟩ := hrun
    exact ⟨p', P, hp.acted hb (Calm.of_mem hmem).loose (fun _ => hst) fun _ => .of_mem hmem⟩

theorem readUntil_acted {c : UInt8} {r : Except String Slice}
    (hm : b.Modest h (b.wants h (.readUntil c))) (hrun : b.readUntil h c = some (r, b', h')) :
    ∃ p' P', Acted h h' b b' p p' a U K P P' := by
  simp only [LinkBuffer.readUntil] at hrun
  obtain ⟨x, hx, hrun⟩ := Option.bind_eq_some_iff.mp hrun
  cases x with
  | none =>
    simp only [Option.pure_def, Option.some.injEq, Prod.mk.injEq] at hrun
    obtain ⟨-, rfl, rfl⟩ := hrun
    exact ⟨p, P, .refl hb hs⟩
  | some k =>
    simp only [LinkBuffer.wants, hx] at hm
    exact next_acted hb hs hm hrun

omit hs in
theorem write_none (hback : p.back = []) : b.write = Option.none ∧ b.flush = Option.none := by
  rw [hb.rep.write, hb.rep.flush, hback]
  exact ⟨rfl, rfl⟩

include hv

theorem release_post (hq : a.quiet = false) :
    ∃ b' h' p', b.release h = some (b', h') ∧ Acted h h' b b' p p' a U K P P ∧ b'.kept = [] ∧
      h'.mem = h.mem ∧ p'.back = p.back ∧ h'.content p'.early = h.content p.early ∧
      h'.later p'.back = h.later p.back := by
  obtain ⟨b₁, h₁, p', hrel, hp, hk, hkept, hmem, hback, hsub, hcont, hlater, hspare⟩ :=
    release_buffer hb hs hv
  have hlike : ∀ k ∈ p'.all, k ∈ p.all ∧ (h.nodes k).Like (h₁.nodes k) := fun k hk' =>
    ⟨hsub k hk', .of_bare (hk.node k (List.mem_append_left _ hk'))⟩
  have hu : h₁.unflushed p'.back = h.unflushed p.back := by
    rw [hback]
    exact Heap.unflushed_bare fun k hk' =>
      hk.node k (List.mem_append_left _ (Parts.mem_all_of_back (hback ▸ hk')))
  refine ⟨b₁, h₁, p', hrel, ⟨hp.buffer, hp.safe, hp.keeps.node, hp.later, fun _ => hp.keeps,
    fun h => by
    simp [hq] at h,
      fun h => by
      simp [hq] at h, hp.pins, hp.caches, ?_, fun _ => .of_like hlike,
        fun hne => hne.imp (hback ▸ ·) fun he => List.eq_nil_iff_forall_not_mem.mpr fun k hk => by
      simpa [he] using hsub k hk, fun _ hne => hback ▸ hne,
    flushed_of_length (l := []) (by rw [hlater]; rfl) (by rw [hu]; rfl),
    fun _ hu => hu.kin hp.keeps.later.lent fun k hk => ⟨(hlike k hk).1, (hlike k hk).2.kin⟩,
    fun _ hi k hk' => ?_⟩, hkept, hmem, hback, hcont, hlater⟩
  · rw [hmem]
    exact .refl
  · have hbare := hk.node k (List.mem_append_left _ (Parts.mem_all_of_tail hk'))
    rw [hback, hspare] at hk'
    rw [(Node.SameBuf.of_bare hbare).1]
    exact hi k hk'

theorem release_acted (hq : a.quiet = false) (hrun : b.release h = some (b', h')) :
    ∃ p' P', Acted h h' b b' p p' a U K P P' := by
  obtain ⟨b₁, h₁, p', hrel, hA, -⟩ := release_post hb hs hv hq
  rw [hrel, Option.some.injEq, Prod.mk.injEq] at hrun
  obtain ⟨rfl, rfl⟩ := hrun
  exact ⟨p', P, hA⟩

theorem close_acted (hrun : b.close h = some (b', h')) :
    ∃ p' P', Acted h h' b b' p p' .close U K P P' := by
  obtain ⟨b₁, h₁, hclose, hp, hmem, -⟩ := close_spec hb hs hv
  rw [hclose, Option.some.injEq, Prod.mk.injEq] at hrun
  obtain ⟨rfl, rfl⟩ := hrun
  refine ⟨.none, P, ⟨hp.buffer, hp.safe, hp.keeps.node, hp.later, fun _ => hp.keeps,
    fun hq => (by cases hq), fun hq => (by cases hq), hp.pins, hp.caches, ?_,
    fun _ => .of_like (fun k hk => by cases hk), fun _ => .inr rfl, fun hc => absurd rfl hc,
    fun _ => rfl,
    fun _ _ k hk => (List.not_mem_nil hk).elim, fun _ _ k hk => (List.not_mem_nil hk).elim⟩⟩
  rw [hmem]
  exact .refl

theorem malloc_acted {m : Int} (hrun : b.malloc h cfg m = some (s, b', h')) :
    ∃ p' P', Acted h h' b b' p p' a U K P P' := by
  by_cases h0 : m ≤ 0
  · simp only [LinkBuffer.malloc, if_pos h0, Option.some.injEq, Prod.mk.injEq] at hrun
    obtain ⟨-, rfl, rfl⟩ := hrun
    exact ⟨p, P, .refl hb hs⟩
  · obtain ⟨n, rfl⟩ : ∃ n : Nat, m = n := ⟨m.toNat, by omega⟩
    by_cases hback : p.back = []
    · simp only [LinkBuffer.malloc, if_neg h0, LinkBuffer.growth, (write_none hb hback).1,
        Option.bind_eq_bind, Option.bind_none, reduceCtorEq] at hrun
    · obtain ⟨s₁, b₁, h₁, p', hma, hw, hmem, -⟩ :=
        malloc_spec (n := n) hb hs hv hback cfg (by omega)
      rw [hma, Option.some.injEq, Prod.mk.injEq, Prod.mk.injEq] at hrun
      obtain ⟨-, rfl, rfl⟩ := hrun
      exact ⟨p', P, hw.acted (.of_mem hmem)⟩

theorem writeBinary_acted (hl : h.owner s.blk = .lent ∧ s.len ≤ s.cap)
    (hrun : b.writeBinary h cfg s = some (n, b', h')) :
    ∃ p' P', Acted h h' b b' p p' a U K P P' := by
  by_cases h0 : s.len = 0
  · simp only [LinkBuffer.writeBinary, if_pos h0, Option.some.injEq, Prod.mk.injEq] at hrun
    obtain ⟨-, rfl, rfl⟩ := hrun
    exact ⟨p, P, .refl hb hs⟩
  · by_cases hback : p.back = []
    · simp [LinkBuffer.writeBinary, h0, LinkBuffer.growth, LinkBuffer.addTail,
        (write_none hb hback).1] at hrun
    · obtain ⟨b₁, h₁, p', l, hwb, hw, hc, -⟩ :=
        writeBinary_spec hb hs hv hback cfg (by omega) hl.2 hl.1
      rw [hwb, Option.some.injEq, Prod.mk.injEq, Prod.mk.injEq] at hrun
      obtain ⟨-, rfl, rfl⟩ := hrun
      exact ⟨p', P, hw.acted hc⟩

theorem writeByte_acted {c : UInt8} (hrun : b.writeByte h cfg c = some (b', h')) :
    ∃ p' P', Acted h h' b b' p p' a U K P P' := by
  by_cases hback : p.back = []
  · simp [LinkBuffer.writeByte, LinkBuffer.malloc, LinkBuffer.growth, (write_none hb hback).1]
      at hrun
  · obtain ⟨b₁, h₁, p', l, hwb, hw, hc, -⟩ := writeByte_spec (c := c) hb hs hv hback cfg
    rw [hwb, Option.some.injEq, Prod.mk.injEq] at hrun
    obtain ⟨rfl, rfl⟩ := hrun
    exact ⟨p', P, hw.acted hc⟩

theorem flush_acted (hrun : b.doFlush h cfg = some (b', h')) :
    ∃ p' P', Acted h h' b b' p p' a U K P P' := by
  by_cases hback : p.back = []
  · simp [LinkBuffer.doFlush, LinkBuffer.flushTail, (write_none hb hback).1] at hrun
  · obtain ⟨b₁, h₁, p', hfl, hf⟩ := doFlush_spec hb hs hv hback cfg
    rw [hfl, Option.some.injEq, Prod.mk.injEq] at hrun
    obtain ⟨rfl, rfl⟩ := hrun
    exact ⟨p', P, hf.acted⟩

omit hv in
theorem discards_eq : b.discards h n = (ackSplit h p.back n).2 ++ p.spare := by
  rw [LinkBuffer.discards, hb.back_eq hs, hb.spare_eq hs]

omit hv in
theorem keepsParts_split (hpart : b.KeepsParts h n) :
    ∀ j ∈ (ackSplit h p.back n).2 ++ p.spare, (h.nodes j).root →
      ∀ i ∈ p.old ++ p.front ++ (ackSplit h p.back n).1, (h.nodes i).view →
        (h.nodes i).buf.blk ≠ (h.nodes j).buf.blk := by
  have hall : p.all = p.old ++ p.front ++ (ackSplit h p.back n).1 ++
      ((ackSplit h p.back n).2 ++ p.spare) := by
    rw [Parts.all]
    nth_rewrite 1 [← (ackSplit_sub h p.back n).2]
    simp
  have hnd : (p.old ++ p.front ++ (ackSplit h p.back n).1 ++
      ((ackSplit h p.back n).2 ++ p.spare)).Nodup := hall ▸ hs.nodup.of_append_left
  rw [LinkBuffer.KeepsParts, discards_eq hb hs, hb.chain_eq hs] at hpart
  exact fun j hj hr i hi hvi => hpart j hj hr i (hall ▸ List.mem_append_left _ hi)
    (fun hi' => (List.nodup_append.mp hnd).2.2 i hi i hi' rfl) hvi

theorem mallocAck_post (hback : p.back ≠ []) (hl : (n : Int) ≤ b.mallocSize)
    (hc : b.Trims h n ∧ b.Spares h n ∧ b.Unsliced h V n ∧ b.KeepsParts h n)
    (hV : ∀ k ∈ p.all ++ U, k ∈ V) :
    ∃ b' h' p', b.mallocAck h n = some (.ok (), b', h') ∧ AckPost h h' b b' p p' n U K P := by
  obtain ⟨hz, hempty, hone, hpart⟩ := hc
  rw [LinkBuffer.Trims, hb.back_eq hs] at hz
  rw [LinkBuffer.Spares, hb.back_eq hs] at hempty
  rw [LinkBuffer.Unsliced, discards_eq hb hs] at hone
  have hm : n ≤ (h.unflushed p.back).length := by
    rw [hb.malloc, Parts.live, hb.rep.unflushed_live] at hl
    omega
  exact mallocAck_spec hb hs hv hback hm hz hempty (fun j hj k hk => hone j hj k (hV k hk))
    (keepsParts_split hb hs hpart)

theorem mallocAck_acted {m : Int} {r : Except String Unit} (hack : a.acks) (hl : m ≤ b.mallocSize)
    (hc : 0 ≤ m → b.Trims h m.toNat ∧ b.Spares h m.toNat ∧ b.Unsliced h V m.toNat ∧
      b.KeepsParts h m.toNat)
    (hV : ∀ k ∈ p.all ++ U, k ∈ V)
    (hrun : b.mallocAck h m = some (r, b', h')) : ∃ p' P', Acted h h' b b' p p' a U K P P' := by
  by_cases h0 : m < 0
  · simp only [LinkBuffer.mallocAck, if_pos h0, Option.some.injEq, Prod.mk.injEq] at hrun
    obtain ⟨-, rfl, rfl⟩ := hrun
    exact ⟨p, P, .refl hb hs⟩
  · obtain ⟨n, rfl⟩ : ∃ n : Nat, m = n := ⟨m.toNat, by omega⟩
    by_cases hback : p.back = []
    · have hf := (write_none hb hback).2
      by_cases hn : n = 0 <;> simp [LinkBuffer.mallocAck, h0, LinkBuffer.ackLoop, hf, hn] at hrun
    · obtain ⟨b₁, h₁, p', hma, ha⟩ := mallocAck_post hb hs hv hback hl (hc (by omega)) hV
      rw [hma, Option.some.injEq, Prod.mk.injEq, Prod.mk.injEq] at hrun
      obtain ⟨-, rfl, rfl⟩ := hrun
      exact ⟨p', P, ha.acted hack⟩

omit hv in
theorem writeDirect_acted {m : Int} (hsp : a.splits)
    (hl : h.owner s.blk = .lent ∧ s.len ≤ s.cap ∧ m ≤ b.mallocSize)
    (hcut : b.CutsOwn h m) (hP : b.CutsFree h P m)
    (hrun : b.writeDirect h cfg s m = some (b', h')) :
    ∃ p' P', Acted h h' b b' p p' a U K P P' := by
  by_cases h0 : s.len = 0 ∨ m < 0
  · simp only [LinkBuffer.writeDirect, if_pos h0, Option.some.injEq, Prod.mk.injEq] at hrun
    obtain ⟨rfl, rfl⟩ := hrun
    exact ⟨p, P, .refl hb hs⟩
  · obtain ⟨n, rfl⟩ : ∃ n : Nat, m = n := ⟨m.toNat, by omega⟩
    by_cases hback : p.back = []
    · simp [LinkBuffer.writeDirect, h0, LinkBuffer.cutLoop, (write_none hb hback).2] at hrun
    · have hm : n ≤ (h.unflushed p.back).length := by
        have := hl.2.2
        rw [hb.malloc, Parts.live, hb.rep.unflushed_live] at this
        omega
      obtain ⟨b₁, h₁, p', hwd, hd⟩ := writeDirect_spec hb hs hback hm
        (fun hpos i ack he => ⟨(hcut (by omega) _ he).1, (hcut (by omega) _ he).2,
          hP (by omega) _ he⟩) cfg (by omega) hl.2.1 hl.1
      rw [hwd, Option.some.injEq, Prod.mk.injEq] at hrun
      obtain ⟨rfl, rfl⟩ := hrun
      exact ⟨p', P, hd.acted hsp⟩

omit hv in
theorem fill_writes {x : Addr} {v : UInt8} (hl : x ∈ b.pending h ∧ h.owner x.1 ≠ .lent) :
    Writes (Written h p.all K') h.mem (store h.mem x.1 x.2 [v]) := by
  refine writes_store.mono fun y hy => .inr ?_
  have hy : y = x := by simpa [cells] using hy
  obtain ⟨hx, hne⟩ := hl
  rw [hb.pending_eq hs, Heap.unflushed, List.mem_flatMap] at hx
  obtain ⟨k, hk, hkx⟩ := hx
  have hka := Parts.mem_all_of_back hk
  exact hy ▸ ⟨⟨k, hka, hb.plain (List.ne_nil_of_mem hk) k hka, hkx⟩, hne⟩

omit hv in
theorem fill_acted {x : Addr} {v : UInt8} (hl : x ∈ b.pending h ∧ h.owner x.1 ≠ .lent) :
    Acted h { h with mem := store h.mem x.1 x.2 [v] } b b p p a U K P P where
  buffer := hb.of_bare (fun _ => id) fun _ _ => rfl
  safe := hs.store
  node _ _ := rfl
  later := ⟨fun _ => id, [], rfl, by simp⟩
  keeps _ := .store
  still _ := ⟨fun _ _ => rfl, rfl, le_rfl, le_rfl⟩
  calm _ := fill_writes hb hs hl
  pins _ := id
  caches q hq := .inl ⟨q, hq, rfl⟩
  writes := fill_writes hb hs hl
  grows _ := .of_like fun _ hk => ⟨hk, .refl _⟩
  writer := id
  opens _ := id
  flushed := id
  unsplit _ := id
  idle _ := id

theorem run_acted (hl : b.legal h a) (hc : b.Careful h V a) (hV : ∀ k ∈ p.all ++ U, k ∈ V) 
    (hP : b.CutsFree h P a.remain) (hrun : b.run cfg h a = some (o, b', h')) :
    ∃ p' P', Acted h h' b b' p p' a U K P P' := by
  cases a with
  | fill x v =>
    simp only [LinkBuffer.run, Option.some.injEq, Prod.mk.injEq] at hrun
    obtain ⟨-, rfl, rfl⟩ := hrun
    exact ⟨p, P, fill_acted hb hs (by simpa [LinkBuffer.legal] using hl)⟩
  | malloc m =>
    obtain ⟨⟨s, b₁, h₁⟩, hr, he⟩ := Option.map_eq_some_iff.mp hrun
    cases he
    exact malloc_acted hb hs hv hr
  | writeBinary s =>
    obtain ⟨⟨s, b₁, h₁⟩, hr, he⟩ := Option.map_eq_some_iff.mp hrun
    cases he
    exact writeBinary_acted hb hs hv (by simpa [LinkBuffer.legal] using hl) hr
  | writeString s =>
    obtain ⟨⟨m, b₁, h₁⟩, hr, he⟩ := Option.map_eq_some_iff.mp hrun
    cases he
    exact writeBinary_acted hb hs hv (by simpa [LinkBuffer.legal] using hl) (writeString_eq ▸ hr)
  | writeByte c =>
    obtain ⟨⟨b₁, h₁⟩, hr, he⟩ := Option.map_eq_some_iff.mp hrun
    cases he
    exact writeByte_acted hb hs hv hr
  | writeDirect s r =>
    obtain ⟨⟨b₁, h₁⟩, hr, he⟩ := Option.map_eq_some_iff.mp hrun
    cases he
    exact writeDirect_acted (m := r) hb hs rfl (by simpa [LinkBuffer.legal] using hl) hc.2.1 hP hr
  | mallocAck m =>
    obtain ⟨⟨r, b₁, h₁⟩, hr, he⟩ := Option.map_eq_some_iff.mp hrun
    cases he
    exact mallocAck_acted hb hs hv rfl (by simpa [LinkBuffer.legal] using hl)
      (fun h0 => hc.2.2 _ (by simp [Act.acked, h0])) hV hr
  | flush =>
    obtain ⟨⟨b₁, h₁⟩, hr, he⟩ := Option.map_eq_some_iff.mp hrun
    cases he
    exact flush_acted hb hs hv hr
  | next m =>
    obtain ⟨⟨r, b₁, h₁⟩, hr, he⟩ := Option.map_eq_some_iff.mp hrun
    cases he
    exact next_acted hb hs hc.1 hr
  | peek m =>
    obtain ⟨⟨r, b₁, h₁⟩, hr, he⟩ := Option.map_eq_some_iff.mp hrun
    cases he
    exact peek_acted hb hs rfl hc.1 hr
  | skip m =>
    obtain ⟨⟨r, b₁, h₁⟩, hr, he⟩ := Option.map_eq_some_iff.mp hrun
    cases he
    exact skip_acted hb hs hc.1 hr
  | readBinary m =>
    obtain ⟨⟨r, b₁, h₁⟩, hr, he⟩ := Option.map_eq_some_iff.mp hrun
    cases he
    exact readBinary_acted hb hs hc.1 hr
  | readString m =>
    obtain ⟨⟨r, b₁, h₁⟩, hr, he⟩ := Option.map_eq_some_iff.mp hrun
    cases he
    obtain ⟨r', hr⟩ := readString_eq hr
    exact readBinary_acted hb hs hc.1 hr
  | readByte =>
    obtain ⟨⟨r, b₁, h₁⟩, hr, he⟩ := Option.map_eq_some_iff.mp hrun
    cases he
    exact readByte_acted hb hs hc.1 hr
  | readUntil c =>
    obtain ⟨⟨r, b₁, h₁⟩, hr, he⟩ := Option.map_eq_some_iff.mp hrun
    cases he
    exact readUntil_acted hb hs hc.1 hr
  | release =>
    obtain ⟨⟨b₁, h₁⟩, hr, he⟩ := Option.map_eq_some_iff.mp hrun
    cases he
    exact release_acted hb hs hv rfl hr
  | close =>
    obtain ⟨⟨b₁, h₁⟩, hr, he⟩ := Option.map_eq_some_iff.mp hrun
    cases he
    exact close_acted hb hs hv hr

end Run

end Netpoll.Nocopy
