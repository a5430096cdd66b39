import Netpoll.Nocopy.Layout
import Mathlib.Data.List.Perm.Subperm

namespace Netpoll.Nocopy

open Netpoll.Lib Netpoll.Lib.Memory LinkBuffer

variable {h h' : Heap} {b : LinkBuffer} {A B C D U : List Nat} {K K₀ : List Slice} {P : Nat → Prop}
  {i j k n fuel blk : Nat} {cfg : Config}

theorem Safe.length_le (hs : Safe h U K P) : U.length ≤ h.fresh := by
  have hsub : U ⊆ List.range h.fresh := fun i hi =>
    List.mem_range.mpr (hs.counted.lt i (refs_pos_of_mem hi))
  simpa using (hs.nodup.subperm hsub).length_le

theorem Safe.length_lt (hs : Safe h (A ++ B ++ C ++ D ++ U) K P) : B.length < h.fresh + 1 := by
  have := hs.length_le
  simp at this
  omega

structure Stop (h : Heap) (b : LinkBuffer) (A B C D : List Nat) (n : Nat) (A' B' : List Nat)
    (i m : Nat) : Prop where
  split : A' ++ B' = A ++ B
  rep : Rep h { b with read := some i } A' B' C D
  head : (B' ++ C).head? = some i
  le : m ≤ (h.nodes i).len
  content : (h.content (B' ++ C.take 1)).drop m = (h.content (B ++ C.take 1)).drop n

theorem Rep.seg_old (hr : Rep h b A B C D) :
    Chain.Seg (fun i => (h.nodes i).next) b.head A b.read ∧
      Chain.Seg (fun i => (h.nodes i).next) b.read (B ++ C ++ D) none := by
  have hseg := hr.seg
  rw [List.append_assoc, List.append_assoc] at hseg
  obtain ⟨c, hA, hrest⟩ := Chain.seg_append.mp hseg
  have hc : c = b.read := by
    rw [hrest.head, hr.read, ← List.append_assoc]
    cases hBC : B ++ C with
    | nil =>
      obtain ⟨rfl, rfl⟩ := List.append_eq_nil_iff.mp hBC
      simp [hr.reader rfl]
    | cons k l => simp
  subst hc
  exact ⟨hA, by simpa using hrest⟩

theorem Rep.seg_early (hr : Rep h b A B C D) :
    ∃ e, Chain.Seg (fun i => (h.nodes i).next) b.read (B ++ C.take 1) e := by
  have hseg := hr.seg_old.2
  rw [← List.take_append_drop 1 C, ← List.append_assoc, List.append_assoc (B ++ C.take 1)] at hseg
  obtain ⟨e, hB, -⟩ := Chain.seg_append.mp hseg
  exact ⟨e, hB⟩

theorem Rep.read_cons (hr : Rep h b A (i :: B) C D) : b.read = some i := hr.read

theorem Rep.read_flush (hr : Rep h b A [] C D) (hn : n ≤ (h.content (C.take 1)).length)
    (hpos : 0 < n) :
    ∃ i C', C = i :: C' ∧ b.read = some i ∧ b.flush = some i ∧ n ≤ (h.nodes i).len := by
  cases C with
  | nil =>
    simp at hn
    omega
  | cons i C => exact ⟨i, C, rfl, hr.read, hr.flush, by simpa using hn⟩

theorem Rep.read_eq (hr : Rep h b A B C D) (hi : b.read = some i) :
    { b with read := some i } = b := by
  cases b
  simp_all

theorem Rep.stop (hr : Rep h b A B C D) (hi : b.read = some i) (hn : n ≤ (h.nodes i).len) :
    Stop h b A B C D n A B i n :=
  ⟨rfl, hr.read_eq hi ▸ hr, hr.read ▸ hi, hn, rfl⟩

theorem Stop.pass {A' B' : List Nat} {m : Nat}
    (hst : Stop h { b with read := (h.nodes i).next } (A ++ [i]) B C D (n - (h.nodes i).len) A' B' j
      m)
    (hlt : (h.nodes i).len ≤ n) : Stop h b A (i :: B) C D n A' B' j m where
  split := by simpa using hst.split
  rep := hst.rep
  head := hst.head
  le := hst.le
  content := by
    rw [hst.content, List.cons_append, Heap.content_cons, List.drop_append]
    simp [hlt]

theorem skipLoop_spec (hr : Rep h b A B C D)
    (hn : n ≤ (h.content (B ++ C.take 1)).length) (hpos : 0 < n) (hf : B.length < fuel) :
    ∃ A' B' i m, Stop h b A B C D n A' B' i m ∧
      skipLoop fuel h b.read n = some (some i, h.advance i m) := by
  induction B generalizing b A n fuel with
  | nil =>
    obtain ⟨i, C', rfl, hi, -, hle⟩ := hr.read_flush hn hpos
    obtain ⟨f, rfl⟩ := Nat.exists_eq_add_of_lt hf
    refine ⟨A, [], i, n, hr.stop hi hle, ?_⟩
    simp [skipLoop, Nat.ne_of_gt hpos, hi, hle, Heap.advance]
  | cons i B ih =>
    obtain ⟨f, rfl, hB⟩ := Chain.steps_of_length_lt hf
    have hi := hr.read_cons
    by_cases hle : n ≤ (h.nodes i).len
    · refine ⟨A, i :: B, i, n, hr.stop hi hle, ?_⟩
      simp [skipLoop, Nat.ne_of_gt hpos, hi, hle, Heap.advance]
    · have hlt : (h.nodes i).len ≤ n := by omega
      simp only [List.cons_append, Heap.content_cons, List.length_append, Heap.length_ready] at hn
      obtain ⟨A', B', j, m, hst, hloop⟩ := ih (n := n - (h.nodes i).len)
        hr.pass (by omega) (by omega) hB
      refine ⟨A', B', j, m, hst.pass hlt, ?_⟩
      simpa [skipLoop, Nat.ne_of_gt hpos, hi, hle] using hloop

theorem readByteLoop_spec (hr : Rep h b A B C D)
    (hn : 1 ≤ (h.content (B ++ C.take 1)).length) (hf : B.length < fuel) :
    ∃ A' B' i, Stop h b A B C D 0 A' B' i 0 ∧ 1 ≤ (h.nodes i).len ∧
      readByteLoop h fuel b.read = (h.nodeNext i 1).map fun (p, h') => (p, some i, h') := by
  induction B generalizing b A fuel with
  | nil =>
    obtain ⟨i, C', rfl, hi, -, hle⟩ := hr.read_flush hn Nat.one_pos
    obtain ⟨f, rfl⟩ := Nat.exists_eq_add_of_lt hf
    refine ⟨A, [], i, hr.stop hi (Nat.zero_le _), hle, ?_⟩
    cases hnext : h.nodeNext i 1 <;> simp [readByteLoop, hi, hle, hnext]
  | cons i B ih =>
    obtain ⟨f, rfl, hB⟩ := Chain.steps_of_length_lt hf
    have hi := hr.read_cons
    by_cases hle : 1 ≤ (h.nodes i).len
    · refine ⟨A, i :: B, i, hr.stop hi (Nat.zero_le _), hle, ?_⟩
      cases hnext : h.nodeNext i 1 <;> simp [readByteLoop, hi, hle, hnext]
    · have h0 : (h.nodes i).len = 0 := by omega
      simp only [List.cons_append, Heap.content_cons, List.length_append, Heap.length_ready] at hn
      obtain ⟨A', B', j, hst, hlen, hloop⟩ := ih hr.pass (by omega) hB
      refine ⟨A', B', j, .pass (by simpa [h0] using hst) (by omega), hlen, ?_⟩
      simpa [readByteLoop, hi, h0] using hloop

def Node.SameBuf (node node' : Node) : Prop := node'.buf = node.buf ∧ node'.malloc = node.malloc

theorem Node.SameBuf.refl (node : Node) : node.SameBuf node := ⟨rfl, rfl⟩

theorem Node.SameBuf.trans {node node' node'' : Node} (h₁ : node.SameBuf node')
    (h₂ : node'.SameBuf node'') : node.SameBuf node'' := ⟨h₂.1.trans h₁.1, h₂.2.trans h₁.2⟩

theorem Node.SameBuf.of_bare {node node' : Node} (hb : node'.bare = node.bare) :
    node.SameBuf node' := by
  simp only [Node.bare, Node.mk.injEq] at hb
  exact ⟨hb.1, hb.2.2.1⟩

theorem Heap.advance_sameBuf (i n k : Nat) : (h.nodes k).SameBuf ((h.advance i n).nodes k) := by
  by_cases hk : k = i
  · subst hk
    simp [Heap.advance, Node.SameBuf]
  · simp [Heap.advance, hk, Node.SameBuf]

structure Took (h h' : Heap) (b' : LinkBuffer) (A B C D U : List Nat) (K : List Slice)
    (P : Nat → Prop) (n : Nat) (A' B' : List Nat) : Prop where
  split : A' ++ B' = A ++ B
  rep : Rep h' b' A' B' C D
  content : h'.content (B' ++ C.take 1) = (h.content (B ++ C.take 1)).drop n
  rest : ∀ k ∈ C.tail, h'.ready k = h.ready k
  keeps : Keeps h h' U K P
  still : Still h h'
  like : ∀ k ∈ A ++ B ++ C ++ D, (h.nodes k).Like (h'.nodes k)
  sameBuf : ∀ k ∈ A ++ B ++ C ++ D, (h.nodes k).SameBuf (h'.nodes k)

theorem Keeps.advance (hi : i ∉ U) : Keeps h (h.advance i n) U K P :=
  .set hi ⟨rfl, rfl, rfl, le_rfl, id, rfl, id, rfl, Nat.le_add_right _ _, fun _ => le_rfl⟩

theorem Stop.took {A' B' : List Nat} {m : Nat} (hst : Stop h b A B C D n A' B' i m)
    (hs : Safe h (A ++ B ++ C ++ D ++ U) K₀ P) :
    Took h (h.advance i m) { b with read := some i } A B C D U K P n A' B' := by
  rw [← hst.split] at hs
  obtain ⟨l, hl⟩ : ∃ l, B' ++ C.take 1 = i :: l := by
    have hh := hst.head
    cases B' with
    | nil =>
      cases C with
      | nil => simp at hh
      | cons c C => exact ⟨[], by simpa using hh⟩
    | cons x B' => exact ⟨B' ++ C.take 1, by simpa using hh⟩
  have hs' : Safe h (A' ++ i :: l ++ C.tail ++ D ++ U) K₀ P := by
    rw [← hl, List.append_assoc A', List.append_assoc B', ← List.drop_one, List.take_append_drop,
      ← List.append_assoc A']
    exact hs
  have hnd := hs'.nodup
  simp only [List.append_assoc, List.cons_append] at hnd
  obtain ⟨-, hnd, -⟩ := List.nodup_append.mp hnd
  obtain ⟨hil, hnd⟩ := List.nodup_cons.mp hnd
  simp only [List.mem_append, not_or] at hil
  have hndl : (i :: l).Nodup := List.nodup_cons.mpr ⟨hil.1, hnd.of_append_left⟩
  refine ⟨hst.split, hst.rep.advance ?_ hil.2.2.1 hst.le, ?_, fun k hk => ?_,
    .advance hil.2.2.2, ⟨fun _ _ => rfl, rfl, le_rfl, le_rfl⟩,
    fun k _ => (Heap.advance_like i m k).1, fun k _ => Heap.advance_sameBuf i m k⟩
  · have := List.mem_of_mem_head? (Option.mem_def.mpr hst.head)
    simp only [List.mem_append] at this ⊢
    grind
  · rw [hl, Heap.advance_content hndl hst.le, ← hl, hst.content]
  · rw [Heap.advance_ready_of_ne]
    rintro rfl
    exact hil.2.1 hk

theorem Stop.safe {A' B' : List Nat} {m : Nat} (hst : Stop h b A B C D n A' B' i m)
    (hs : Safe h (A ++ B ++ C ++ D ++ U) K₀ P) :
    Safe (h.advance i m) (A ++ B ++ C ++ D ++ U) K₀ P := by
  apply hs.advance
  rw [← hst.split, List.append_assoc A' B' C]
  have := List.mem_of_mem_head? (Option.mem_def.mpr hst.head)
  simp only [List.mem_append] at this ⊢
  grind

theorem skipEmpty_spec (hr : Rep h b A B C D) (hs : Safe h (A ++ B ++ C ++ D ++ U) K₀ P)
    (hn : 0 < (h.content (B ++ C.take 1)).length) (hf : B.length < fuel) :
    ∃ A' B' i, Stop h b A B C D 0 A' B' i 0 ∧ 0 < (h.nodes i).len ∧
      skipEmpty h b.flush fuel b.read = some (some i) := by
  induction B generalizing b A fuel with
  | nil =>
    obtain ⟨i, C', rfl, hi, hfl, hle⟩ := hr.read_flush hn Nat.one_pos
    obtain ⟨f, rfl⟩ := Nat.exists_eq_add_of_lt hf
    exact ⟨A, [], i, hr.stop hi (Nat.zero_le _), hle, by simp [skipEmpty, hi, hfl]⟩
  | cons i B ih =>
    obtain ⟨f, rfl, hB⟩ := Chain.steps_of_length_lt hf
    have hi := hr.read_cons
    by_cases hle : (h.nodes i).len = 0
    · have hfl : b.flush ≠ some i := by
        rw [hr.flush]
        intro he
        have hiC : i ∈ C := List.mem_of_mem_head? (Option.mem_def.mpr he)
        have := hs.nodup
        simp only [List.append_assoc, List.cons_append] at this
        obtain ⟨-, this, -⟩ := List.nodup_append.mp this
        exact (List.nodup_cons.mp this).1 (by simp [hiC])
      simp only [List.cons_append, Heap.content_cons, List.length_append, Heap.length_ready,
        hle] at hn
      obtain ⟨A', B', j, hst, hlen, hloop⟩ := ih hr.pass
        (by simpa using hs) (by omega) hB
      refine ⟨A', B', j, .pass (by simpa [hle] using hst) (by omega), hlen, ?_⟩
      simpa [skipEmpty, hi, hle, Ne.symm hfl] using hloop
    · exact ⟨A, i :: B, i, hr.stop hi (Nat.zero_le _), Nat.pos_of_ne_zero hle,
        by simp [skipEmpty, hi, hle]⟩

theorem isSingleNode_spec (hr : Rep h b A B C D) (hs : Safe h (A ++ B ++ C ++ D ++ U) K₀ P)
    (hn : n ≤ (h.content (B ++ C.take 1)).length) (hpos : 0 < n) :
    ∃ A' B' i, Stop h b A B C D 0 A' B' i 0 ∧ 0 < (h.nodes i).len ∧
      b.isSingleNode h n = some (decide (n ≤ (h.nodes i).len), { b with read := some i }) := by
  obtain ⟨A', B', i, hst, hlen, hloop⟩ := skipEmpty_spec hr hs (hpos.trans_le hn) hs.length_lt
  refine ⟨A', B', i, hst, hlen, ?_⟩
  simp [isSingleNode, Nat.ne_of_gt hpos, hloop]

theorem Stop.more {A' B' : List Nat} (hst : Stop h b A B C D 0 A' B' i 0)
    (hn : n ≤ (h.nodes i).len) : Stop h b A B C D n A' B' i n where
  __ := hst
  le := hn
  content := by
    have := hst.content
    simp only [List.drop_zero] at this
    rw [this]

theorem Took.after {h'' : Heap} {b' : LinkBuffer} {A' B' : List Nat}
    (ht : Took h h' b' A B C D U K P n A' B') (hst : Still h' h'')
    (hk : Keeps h' h'' (A ++ B ++ C ++ D ++ U) K P) :
    Took h h'' b' A B C D U K P n A' B' := by
  have hall : ∀ i ∈ A ++ B ++ C ++ D, (h''.nodes i).bare = (h'.nodes i).bare := fun i hi =>
    hk.node i (List.mem_append_left _ hi)
  have hC : ∀ i ∈ C, (h''.nodes i).bare = (h'.nodes i).bare := fun i hi => hall i (by simp [hi])
  have hall' : ∀ i ∈ A' ++ B' ++ C ++ D, (h''.nodes i).bare = (h'.nodes i).bare := by
    rw [ht.split]
    exact hall
  refine ⟨ht.split, ht.rep.of_bare hall', ?_, fun k hk' => ?_,
    ht.keeps.trans (hk.mono (fun i hi => List.mem_append_right _ hi) (fun _ hs => hs)
      fun _ hx => hx),
    ht.still.trans hst, fun k hk' => (ht.like k hk').trans (.of_bare (hall k hk')),
    fun k hk' => (ht.sameBuf k hk').trans (.of_bare (hall k hk'))⟩
  · rw [← ht.content]
    refine Heap.content_congr fun i hi => Heap.ready_of_bare ?_
    rcases List.mem_append.mp hi with hi | hi
    · exact hall' i (by simp [hi])
    · exact hC i (List.mem_of_mem_take hi)
  · rw [Heap.ready_of_bare (hC k (List.mem_of_mem_tail hk')), ht.rest k hk']

theorem Took.mark {b' : LinkBuffer} {A' B' : List Nat} (ht : Took h h' b' A B C D U K P n A' B')
    (hi : i ∉ U) : Took h (h'.mark i) b' A B C D U K P n A' B' := by
  have hnode : ∀ k, ∃ m, (h'.mark i).nodes k = { h'.nodes k with nocopyRead := m } ∧
      (h'.nodes k).Like ((h'.mark i).nodes k) := by
    intro k
    by_cases hk : k = i
    · subst hk
      refine ⟨true, by simp [Heap.mark], ?_⟩
      simp only [Heap.mark, Heap.set_nodes, Function.update_self]
      exact ⟨rfl, rfl, rfl, le_rfl, id, rfl, fun _ => rfl, rfl, le_rfl, fun _ => le_rfl⟩
    · exact ⟨(h'.nodes k).nocopyRead, by simp [Heap.mark, hk], by
        simp [Heap.mark, hk, Node.Like.refl]⟩
  have hrd : ∀ k, (h'.mark i).ready k = h'.ready k := fun k => by
    obtain ⟨m, hm, -⟩ := hnode k
    simp only [Heap.ready, Node.len, hm]
  have hpd : ∀ k, (h'.mark i).pending k = h'.pending k := fun k => by
    obtain ⟨m, hm, -⟩ := hnode k
    simp only [Heap.pending, hm]
  refine ⟨ht.split, ht.rep.congr (fun k _ => ?_) (fun k hk => ?_) (fun k _ => hrd k)
    fun k _ => hpd k, ?_, fun k hk => (hrd k).trans (ht.rest k hk),
    ht.keeps.trans (.set hi ?_), ht.still.trans ⟨fun _ _ => rfl, rfl, le_rfl, le_rfl⟩,
    fun k hk => (ht.like k hk).trans (hnode k).choose_spec.2,
    fun k hk => (ht.sameBuf k hk).trans ?_⟩
  · obtain ⟨m, hm, -⟩ := hnode k
    rw [hm]
  · obtain ⟨m, hm, -⟩ := hnode k
    have hf := ht.rep.fit k hk
    rw [hm]
    exact ⟨hf.off, hf.len, hf.malloc, hf.grown⟩
  · rw [← ht.content]
    exact Heap.content_congr fun k _ => hrd k
  · exact ⟨rfl, rfl, rfl, le_rfl, id, rfl, fun _ => rfl, rfl, le_rfl, fun _ => le_rfl⟩
  · obtain ⟨m, hm, -⟩ := hnode k
    exact ⟨by rw [hm], by rw [hm]⟩

theorem Took.refl (hr : Rep h b A B C D) : Took h h b A B C D U K P 0 A B :=
  ⟨rfl, hr, rfl, fun _ _ => rfl, .refl, .refl, fun _ _ => .refl _, fun _ _ => .refl _⟩

theorem Took.trans {h'' : Heap} {b' b'' : LinkBuffer} {A' B' A'' B'' : List Nat} {m : Nat}
    (ht : Took h h' b' A B C D U K P n A' B') (ht' : Took h' h'' b'' A' B' C D U K P m A'' B'') :
    Took h h'' b'' A B C D U K P (n + m) A'' B'' where
  split := ht'.split.trans ht.split
  rep := ht'.rep
  content := by rw [ht'.content, ht.content, List.drop_drop]
  rest k hk := (ht'.rest k hk).trans (ht.rest k hk)
  keeps := ht.keeps.trans ht'.keeps
  still := ht.still.trans ht'.still
  like k hk := (ht.like k hk).trans (ht'.like k (ht.split ▸ hk))
  sameBuf k hk := (ht.sameBuf k hk).trans (ht'.sameBuf k (ht.split ▸ hk))

theorem Took.pass {b' : LinkBuffer} {A' B' : List Nat}
    (ht : Took h h' b' A B C D U K P n A' (i :: B')) (hi : h'.ready i = []) :
    Took h h' { b' with read := (h'.nodes i).next } A B C D U K P n (A' ++ [i]) B' where
  split := by simpa using ht.split
  rep := ht.rep.pass
  content := by simpa [hi] using ht.content
  rest := ht.rest
  keeps := ht.keeps
  still := ht.still
  like := ht.like
  sameBuf := ht.sameBuf

theorem Rep.fit_read (hr : Rep h b A B C D) (hi : b.read = some i) : (h.nodes i).Fit := by
  refine hr.fit i ?_
  have := List.mem_of_mem_head? (Option.mem_def.mpr (hr.read ▸ hi))
  simp only [List.mem_append] at this ⊢
  grind

theorem gather_step {dst : Slice} (hr : Rep h b A B C D)
    (hs : Safe h (A ++ B ++ C ++ D ++ U) K₀ P) (hi : b.read = some i)
    (hn : n ≤ (h.nodes i).len) (hdst : n ≤ dst.len) :
    ∃ h', h.nodeNext i n = some ((h.nodes i).front n, h.advance i n) ∧
      (h.advance i n).copy dst ((h.advance i n).bytes ((h.nodes i).front n)) = h' ∧
      Took h h' b A B C D U K P n A B ∧ Safe h' (A ++ B ++ C ++ D ++ U) K₀ P ∧
      h'.fresh = h.fresh ∧ h'.nodes = (h.advance i n).nodes ∧
      h'.mem = store h.mem dst.blk dst.off (h.look ((h.ready i).take n)) := by
  have hst := hr.stop hi hn
  have hfit := hr.fit_read hi
  refine ⟨_, Heap.nodeNext_eq ((hfit.off_add hn).trans hfit.len), rfl, ?_, ?_, rfl, rfl, ?_⟩
  · have ht := hst.took (K := K) hs
    rw [hr.read_eq hi] at ht
    exact ht.after ⟨fun _ _ => rfl, rfl, le_rfl, le_rfl⟩ .store
  · exact (hst.safe hs).store
  · have hb : (h.advance i n).bytes ((h.nodes i).front n) = h.look ((h.ready i).take n) := by
      rw [← Heap.cells_front hn]
      exact Heap.bytes_eq
    simp only [Heap.copy, hb]
    rw [List.take_of_length_le]
    · rfl
    · simp
      omega

theorem gather_spec {dst : Slice} (hr : Rep h b A B C D)
    (hs : Safe h (A ++ B ++ C ++ D ++ U) K₀ P)
    (hn : n ≤ (h.content (B ++ C.take 1)).length) (hpos : 0 < n) (hf : B.length < fuel)
    (hdst : n ≤ dst.len) :
    ∃ A' B' read h', gather fuel h b.read dst n = some (read, h') ∧
      Took h h' { b with read := read } A B C D U K P n A' B' ∧
      Safe h' (A ++ B ++ C ++ D ++ U) K₀ P ∧ h'.fresh = h.fresh ∧
      Writes (·.1 = dst.blk) h.mem h'.mem ∧
      ((∀ a ∈ h.content (B ++ C.take 1), a.1 ≠ dst.blk) →
        h'.mem = store h.mem dst.blk dst.off (h.look ((h.content (B ++ C.take 1)).take n))) := by
  have hwr : ∀ {m : Nat → Nat → UInt8} {o : Nat} {l : List UInt8},
      Writes (·.1 = dst.blk) m (store m dst.blk o l) := fun {m o l} =>
    (writes_store (m := m) (k := dst.blk) (i := o) (l := l)).mono fun a ha => (mem_cells.mp ha).1
  induction B generalizing h b A n fuel dst with
  | nil =>
    obtain ⟨i, C', rfl, hi, -, hle⟩ := hr.read_flush hn hpos
    obtain ⟨f, rfl⟩ := Nat.exists_eq_add_of_lt hf
    obtain ⟨h', hnext, hcopy, ht, hs', hfr, -, hm⟩ := gather_step (K := K) hr hs hi hle hdst
    refine ⟨A, [], some i, h', ?_, (hr.read_eq hi).symm ▸ ht, hs', hfr, hm ▸ hwr, fun _ => ?_⟩
    · simp [gather, Nat.ne_of_gt hpos, hi, hle, hnext, hcopy]
    · rw [hm]
      simp
  | cons i B ih =>
    obtain ⟨f, rfl, hB⟩ := Chain.steps_of_length_lt hf
    have hi := hr.read_cons
    by_cases hle : n ≤ (h.nodes i).len
    · obtain ⟨h', hnext, hcopy, ht, hs', hfr, -, hm⟩ := gather_step (K := K) hr hs hi hle hdst
      refine ⟨A, i :: B, some i, h', ?_, (hr.read_eq hi).symm ▸ ht, hs', hfr, hm ▸ hwr, fun _ => ?_⟩
      · simp [gather, Nat.ne_of_gt hpos, hi, hle, hnext, hcopy]
      · rw [hm, List.cons_append, Heap.content_cons,
          List.take_append_of_le_length (by simpa using hle)]
    · have hlt : (h.nodes i).len < n := by omega
      have hn' : n - (h.nodes i).len ≤ (h.content (B ++ C.take 1)).length := by
        simp only [List.cons_append, Heap.content_cons, List.length_append, Heap.length_ready] at hn
        omega
      have hadd : (h.nodes i).len + (n - (h.nodes i).len) = n := by omega
      have htake : (h.content (i :: B ++ C.take 1)).take n =
          h.ready i ++ (h.content (B ++ C.take 1)).take (n - (h.nodes i).len) := by
        rw [List.cons_append, Heap.content_cons, List.take_append, List.take_of_length_le]
        · simp
        · simpa using hlt.le
      by_cases hl : 0 < (h.nodes i).len
      · obtain ⟨h₁, hnext, hcopy, ht, hs₁, hfr, hnodes, hm⟩ :=
          gather_step (K := K) hr hs hi le_rfl (hlt.le.trans hdst)
        have hempty : h₁.ready i = [] := by
          apply List.eq_nil_of_length_eq_zero
          simp [hnodes, Heap.advance, Node.len]
          omega
        have ht := ht.pass hempty
        have hcont : h₁.content (B ++ C.take 1) = h.content (B ++ C.take 1) := by
          rw [ht.content, List.cons_append, Heap.content_cons, List.drop_left' (by simp)]
        have hdst' : n - (h.nodes i).len ≤ (⟨dst.blk, dst.off + (h.nodes i).len,
            dst.len - (h.nodes i).len, dst.cap - (h.nodes i).len⟩ : Slice).len := by
          simp only
          omega
        obtain ⟨A', B', read, h', hg, ht', hs', hfr', hw', hm'⟩ := ih ht.rep (by simpa using hs₁)
          (hcont ▸ hn') (by omega) hB hdst' hwr
        refine ⟨A', B', read, h', ?_, hadd ▸ ht.trans ht', by simpa using hs', hfr'.trans hfr,
          (hm ▸ hwr : Writes _ h.mem h₁.mem).trans hw', fun hap => ?_⟩
        · have hafter : dst.after (h.nodes i).len = some ⟨dst.blk, dst.off + (h.nodes i).len,
              dst.len - (h.nodes i).len, dst.cap - (h.nodes i).len⟩ := by
            simp [Slice.after, hlt.le.trans hdst]
          simpa [gather, Nat.ne_of_gt hpos, hi, hle, hl, hnext, hafter, hcopy, hnodes] using hg
        · have hap' : ∀ a ∈ h.content (B ++ C.take 1), a.1 ≠ dst.blk := fun a ha =>
            hap a (by rw [List.cons_append, Heap.content_cons]; exact List.mem_append_right _ ha)
          have hrd : (h.ready i).take (h.nodes i).len = h.ready i :=
            List.take_of_length_le (by simp)
          have hlook : h₁.look ((h.content (B ++ C.take 1)).take (n - (h.nodes i).len)) =
              h.look ((h.content (B ++ C.take 1)).take (n - (h.nodes i).len)) :=
            (hm ▸ hwr : Writes _ h.mem h₁.mem).look fun a ha => hap' a (List.mem_of_mem_take ha)
          rw [hm' (by rwa [hcont]), hcont, hlook, hm, hrd, htake,
            Heap.look_append, ← store_store_append, Heap.length_look, Heap.length_ready]
      · have h0 : (h.nodes i).len = 0 := by omega
        have hempty : h.ready i = [] := List.eq_nil_of_length_eq_zero (by simpa using h0)
        have ht := (Took.refl (U := U) (K := K) (P := P) hr).pass hempty
        obtain ⟨A', B', read, h', hg, ht', hs', hfr', hw', hm'⟩ := ih
          ht.rep (by simpa using hs) (by simpa [h0] using hn') hpos hB hdst hwr
        refine ⟨A', B', read, h', ?_, by simpa using ht.trans ht', by simpa using hs', hfr', hw',
          fun hap => ?_⟩
        · simpa [gather, Nat.ne_of_gt hpos, hi, hle, hl] using hg
        · rw [hm' (by simpa [hempty] using hap), htake, hempty, h0]
          rfl

theorem idxOf?_append {l l' : List UInt8} {c : UInt8} :
    (l ++ l').idxOf? c = (l.idxOf? c).or ((l'.idxOf? c).map (· + l.length)) :=
  List.findIdx?_append

theorem indexLoop_zero {c : UInt8} {size skip : Nat} {node : Option Nat} (hf : 0 < fuel) :
    indexLoop h c size fuel 0 skip node = some none := by
  obtain ⟨f, rfl⟩ := Nat.exists_eq_add_of_lt hf
  simp [indexLoop]

theorem indexLoop_node {c : UInt8} {size unread skip : Nat} (hfit : (h.nodes i).Fit)
    (hpos : 0 < unread) (hle : (h.nodes i).len ≤ unread) :
    indexLoop h c size (fuel + 1) unread skip (some i) =
      match ((h.look (h.ready i)).drop skip).idxOf? c with
      | some k => some (some (size - unread + skip + k))
      | none => indexLoop h c size fuel (unread - (h.nodes i).len) (skip - (h.nodes i).len)
          (h.nodes i).next := by
  have hn : (if unread ≤ (h.nodes i).len then unread else (h.nodes i).len) = (h.nodes i).len := by
    split <;> omega
  have hpeek := Heap.nodePeek_eq (h := h) ((hfit.off_add le_rfl).trans hfit.len)
  have hbytes : h.bytes ((h.nodes i).front (h.nodes i).len) = h.look (h.ready i) := by
    rw [Heap.bytes_eq, Heap.cells_front le_rfl, List.take_of_length_le (by simp)]
  have h1 : unread ≠ 0 := by omega
  by_cases hskip : (h.nodes i).len ≤ skip
  · have hnil : (h.look (h.ready i)).drop skip = [] :=
      List.drop_eq_nil_of_le (by simpa using hskip)
    simp [indexLoop, h1, hn, hskip, hnil]
  · have h0 : skip - (h.nodes i).len = 0 := by omega
    cases hidx : ((h.look (h.ready i)).drop skip).idxOf? c <;>
      simp [indexLoop, h1, hn, hskip, hpeek, hbytes, h0, hidx]

theorem indexLoop_spec {c : UInt8} {size unread skip : Nat} {L : List Nat} {node e : Option Nat}
    (hL : Chain.Seg (fun i => (h.nodes i).next) node L e) (hfit : ∀ i ∈ L, (h.nodes i).Fit)
    (hn : (h.content L).length = unread) (hle : unread ≤ size) (hf : L.length < fuel) :
    indexLoop h c size fuel unread skip node =
      some ((((h.look (h.content L)).drop skip).idxOf? c).map (size - unread + skip + ·)) := by
  induction L generalizing node unread skip fuel with
  | nil =>
    have h0 : unread = 0 := by simpa using hn.symm
    rw [h0, indexLoop_zero (by omega)]
    simp
  | cons i L ih =>
    obtain ⟨rfl, hL⟩ := hL
    obtain ⟨f, rfl, hB⟩ := Chain.steps_of_length_lt hf
    simp only [Heap.content_cons, List.length_append, Heap.length_ready] at hn ⊢
    by_cases h0 : unread = 0
    · have hnil : h.ready i ++ h.content L = [] :=
        List.eq_nil_of_length_eq_zero (by simp only [List.length_append, Heap.length_ready]; omega)
      rw [h0, indexLoop_zero (by omega), hnil]
      simp
    · have hn' : (h.content L).length = unread - (h.nodes i).len := by omega
      have ih : indexLoop h c size f _ (skip - (h.nodes i).len) _ = _ :=
        ih hL (fun k hk => hfit k (by simp [hk])) hn' (by omega) hB
      have hlen : (h.look (h.ready i)).length = (h.nodes i).len := by simp
      rw [indexLoop_node (hfit i (by simp)) (by omega) (by omega), ih,
        Heap.look_append, List.drop_append, hlen, idxOf?_append]
      cases hx : ((h.look (h.ready i)).drop skip).idxOf? c with
      | some k => simp
      | none =>
        simp only [Option.none_or, Option.map_map, List.length_drop, hlen]
        congr 2
        funext k
        simp only [Function.comp_apply]
        omega

theorem peekLoop_done {p : Slice} {scanned : Nat} {node : Option Nat} (hn : n ≤ p.len)
    (hf : 0 < fuel) : peekLoop n fuel h scanned node p = some (p, h) := by
  obtain ⟨f, rfl⟩ := Nat.exists_eq_add_of_lt hf
  simp [peekLoop, hn]

def Heap.extend (h : Heap) (p : Slice) (l : List UInt8) : Heap :=
  { h with mem := store h.mem p.blk (p.off + p.len) l }

theorem Heap.append_eq {p : Slice} {l : List UInt8} (hcap : p.len + l.length ≤ p.cap) :
    h.append p l = ({ p with len := p.len + l.length }, h.extend p l) := by
  simp [Heap.append, hcap, Heap.extend]

theorem Heap.extend_extend {p : Slice} {l l' : List UInt8} :
    (h.extend p l).extend { p with len := p.len + l.length } l' = h.extend p (l ++ l') := by
  simp only [Heap.extend, ← store_store_append, Nat.add_assoc]

theorem peekLoop_node {p : Slice} {scanned start copyn : Nat} (hfit : (h.nodes i).Fit)
    (hlt : p.len < n) (hsc : ¬ scanned + (h.nodes i).len ≤ p.len)
    (hcap : n ≤ p.cap) (hst : start = p.len - scanned)
    (hcn : copyn = min (n - p.len) ((h.nodes i).len - start)) :
    peekLoop n (fuel + 1) h scanned (some i) p =
      peekLoop n fuel (h.extend p (h.look (((h.ready i).drop start).take copyn)))
        (scanned + (h.nodes i).len) (h.nodes i).next { p with len := p.len + copyn } := by
  have hpeek := Heap.nodePeek_eq (h := h) ((hfit.off_add le_rfl).trans hfit.len)
  have hcut : ((h.nodes i).front (h.nodes i).len).cut start (start + copyn) =
      some ⟨(h.nodes i).buf.blk, (h.nodes i).buf.off + (h.nodes i).off + start, copyn, copyn⟩ := by
    rw [Slice.cut_eq (Nat.le_add_right _ _) (by simp only [Node.front]; omega)]
    simp [Node.front]
  have hbytes : h.bytes ⟨(h.nodes i).buf.blk, (h.nodes i).buf.off + (h.nodes i).off + start,
      copyn, copyn⟩ = h.look (((h.ready i).drop start).take copyn) := by
    rw [Heap.bytes_eq, Heap.ready, drop_cells (by omega), take_cells (by omega)]
    rfl
  have hlen : (h.look (((h.ready i).drop start).take copyn)).length = copyn := by
    simp
    omega
  have happ := Heap.append_eq (h := h) (p := p) (l := h.look (((h.ready i).drop start).take copyn))
    (by rw [hlen]; omega)
  rw [hlen] at happ
  have hnot : ¬ n ≤ p.len := by omega
  simp only [peekLoop, hnot, if_false, hsc, hpeek, ← hst, ← hcn, hcut, hbytes, happ,
    Option.bind_eq_bind, Option.bind_some, Heap.extend]

theorem drop_take_append {Q R S : List Addr} {a : Nat} (h₁ : Q.length ≤ a)
    (h₂ : a ≤ Q.length + R.length) :
    ((Q ++ R ++ S).take n).drop a = (R.drop (a - Q.length)).take (n - a) ++
      ((Q ++ R ++ S).take n).drop (Q.length + R.length) := by
  simp only [List.drop_take, List.append_assoc]
  rw [List.drop_append, List.drop_eq_nil_of_le h₁, List.nil_append,
    List.drop_append_of_le_length (by omega), List.take_append, ← List.append_assoc Q R S,
    List.drop_left' (by simp)]
  congr 2
  simp
  omega

structure Peeked (h h' : Heap) (p : Slice) (l : List Addr) (n : Nat) : Prop where
  nodes : ∃ m, h' = { h with mem := m }
  writes : Writes (· ∈ Memory.cells p.blk (p.off + p.len) (n - p.len)) h.mem h'.mem
  bytes : (∀ a ∈ l, a.1 ≠ p.blk) → h' = h.extend p (h.look ((l.take n).drop p.len))

theorem Peeked.done {p : Slice} {l : List Addr} (hn : n ≤ p.len) : Peeked h h p l n := by
  refine ⟨⟨h.mem, rfl⟩, .refl, fun _ => ?_⟩
  rw [List.drop_eq_nil_of_le (by simp; omega)]
  simp [Heap.extend]

theorem Peeked.step {p : Slice} {Q R S : List Addr} {c : Nat} (hlt : p.len < n)
    (hQ : Q.length ≤ p.len) (hR : p.len ≤ Q.length + R.length)
    (hc : c = min (n - p.len) (R.length - (p.len - Q.length)))
    (hp : Peeked (h.extend p (h.look ((R.drop (p.len - Q.length)).take c))) h'
      { p with len := p.len + c } (Q ++ R ++ S) n) : Peeked h h' p (Q ++ R ++ S) n := by
  have hlen : (h.look ((R.drop (p.len - Q.length)).take c)).length = c := by
    simp
    omega
  have hw : Writes (· ∈ Memory.cells p.blk (p.off + p.len) (n - p.len)) h.mem
      (h.extend p (h.look ((R.drop (p.len - Q.length)).take c))).mem :=
    writes_store.mono fun a ha => by
      rw [mem_cells, hlen] at ha
      exact mem_cells.mpr ⟨ha.1, ha.2.1, by omega⟩
  refine ⟨?_, hw.trans (hp.writes.mono fun a ha => ?_), fun hap => ?_⟩
  · obtain ⟨m, rfl⟩ := hp.nodes
    exact ⟨m, rfl⟩
  · rw [mem_cells] at ha ⊢
    simp only at ha
    exact ⟨ha.1, by omega, by omega⟩
  · have hlook : ∀ l : List Addr, (∀ a ∈ l, a.1 ≠ p.blk) →
        (h.extend p (h.look ((R.drop (p.len - Q.length)).take c))).look l = h.look l := fun l hl =>
      hw.look fun a ha hm => hl a ha (mem_cells.mp hm).1
    have hdrop := drop_take_append (n := n) (R := R) (S := S) hQ hR
    have htake : (R.drop (p.len - Q.length)).take (n - p.len) =
        (R.drop (p.len - Q.length)).take c := by
      rw [List.take_eq_take_iff]
      simp
      omega
    rw [hp.bytes hap, hlook _ fun a ha => hap a (List.mem_of_mem_take (List.mem_of_mem_drop ha)),
      hdrop, htake, Heap.look_append, ← Heap.extend_extend]
    have hend : ((Q ++ R ++ S).take n).drop (p.len + c) =
        ((Q ++ R ++ S).take n).drop (Q.length + R.length) := by
      by_cases hcn : c = R.length - (p.len - Q.length)
      · rw [show p.len + c = Q.length + R.length by omega]
      · rw [List.drop_eq_nil_of_le (by simp; omega), List.drop_eq_nil_of_le (by simp; omega)]
    rw [hend, hlen]

theorem peekLoop_spec {p : Slice} {Q : List Addr} {L : List Nat} {node e : Option Nat}
    (hL : Chain.Seg (fun i => (h.nodes i).next) node L e) (hfit : ∀ i ∈ L, (h.nodes i).Fit)
    (hn : n ≤ (Q ++ h.content L).length) (hQ : Q.length ≤ p.len) (hcap : n ≤ p.cap)
    (hf : L.length < fuel) :
    ∃ h', peekLoop n fuel h Q.length node p = some ({ p with len := max n p.len }, h') ∧
      Peeked h h' p (Q ++ h.content L) n := by
  by_cases hlt : p.len < n
  · induction L generalizing h node p Q fuel with
    | nil =>
      simp only [Heap.content_nil, List.append_nil] at hn
      omega
    | cons i L ih =>
      obtain ⟨rfl, hL⟩ := hL
      obtain ⟨f, rfl, hB⟩ := Chain.steps_of_length_lt hf
      simp only [Heap.content_cons, ← List.append_assoc] at hn ⊢
      have hfit' : ∀ k ∈ L, (h.nodes k).Fit := fun k hk => hfit k (by simp [hk])
      by_cases hsc : Q.length + (h.nodes i).len ≤ p.len
      · obtain ⟨h', hloop, hp⟩ :=
          ih (Q := Q ++ h.ready i) hL hfit' hn (by simpa using hsc) hcap hB hlt
        refine ⟨h', ?_, hp⟩
        have hnot : ¬ n ≤ p.len := by omega
        simpa [peekLoop, hnot, hsc] using hloop
      · set c := min (n - p.len) ((h.nodes i).len - (p.len - Q.length)) with hc
        set l := h.look (((h.ready i).drop (p.len - Q.length)).take c) with hl
        have hstep : ∀ h', Peeked (h.extend p l) h' { p with len := p.len + c }
            (Q ++ h.ready i ++ h.content L) n → Peeked h h' p (Q ++ h.ready i ++ h.content L) n :=
          fun _ => Peeked.step hlt hQ (by simp; omega) (by simp [hc])
        rw [peekLoop_node (hfit i (by simp)) hlt hsc hcap rfl hc]
        by_cases hlt' : p.len + c < n
        · obtain ⟨h', hloop, hp⟩ := ih (h := h.extend p l) (Q := Q ++ h.ready i)
            (p := { p with len := p.len + c }) hL hfit' hn (by simp; omega) hcap hB hlt'
          refine ⟨h', ?_, hstep h' hp⟩
          have hmax : max n (p.len + c) = max n p.len := by omega
          simpa [hmax] using hloop
        · refine ⟨h.extend p l, ?_, hstep _ (.done (by simp only; omega))⟩
          rw [peekLoop_done (by simp only; omega) (by omega),
            show max n p.len = p.len + c by omega]
  · refine ⟨h, ?_, .done (by omega)⟩
    rw [peekLoop_done (by omega) (by omega), Nat.max_eq_right (Nat.le_of_not_lt hlt)]

end Netpoll.Nocopy
