import Netpoll.Nocopy.Release

namespace Netpoll.Nocopy

open Netpoll.Lib Netpoll.Lib.Memory LinkBuffer

variable {h h' : Heap} {b b' : LinkBuffer} {p p' : Parts} {U : List Nat}
  {K : List Slice} {P P' : Nat → Prop} {A B C D : List Nat} {i j k n w fuel : Nat} {s : Slice}
  {cfg : Config} {size : Int}

theorem Rep.write_last (hr : Rep h b A B (C ++ [w]) D) : b.write = some w := by
  rw [hr.write]
  simp

structure New (h h' : Heap) (k : Nat) : Prop where
  off : (h'.nodes k).off = 0
  malloc : (h'.nodes k).malloc = 0
  refer : (h'.nodes k).refer = 1
  len : (h'.nodes k).buf.len = 0
  start : (h'.nodes k).buf.off = 0
  origin : (h'.nodes k).origin = none
  next : (h'.nodes k).next = none
  block : (h'.nodes k).buf.cap = 0 ∨ (h'.nodes k).readonly = false ∧
    h.owner (h'.nodes k).buf.blk = .mcache

theorem Made.new (hm : Made h h' cfg size j) : New h h' j where
  off := hm.off
  malloc := hm.malloc
  refer := hm.refer
  len := hm.len
  start := hm.start
  origin := hm.origin
  next := hm.next
  block := by
    by_cases hsize : size ≤ 0
    · exact .inl (hm.bare hsize)
    · exact .inr ⟨by simp [hm.readonly, hsize], (hm.block (by omega)).1⟩

theorem New.ready (hn : New h h' j) : h'.ready j = [] := by
  simp [Heap.ready, Node.len, hn.len]

theorem New.pending (hn : New h h' j) : h'.pending j = [] := by
  simp [Heap.pending, hn.malloc]

theorem New.fit (hn : New h h' j) : (h'.nodes j).Fit :=
  ⟨by simp [hn.off], by simp [hn.len], by simp [hn.malloc], fun _ => by simp [hn.len]⟩

theorem New.owned (hn : New h h' j) : Owned h' [j] := by
  refine ⟨fun hv => ?_, trivial⟩
  rcases hn.block with hcap | ⟨hro, -⟩
  · exact absurd hv.2.2 (by simp [hcap])
  · exact absurd hv.2.1 (by simp [hro])

def Linked (h h' : Heap) (k : Nat) : Prop := ∃ next, h'.nodes k = { h.nodes k with next := next }

theorem Linked.refl : Linked h h k := ⟨_, rfl⟩

theorem Linked.like (hl : Linked h h' k) : (h.nodes k).Like (h'.nodes k) := by
  obtain ⟨next, hn⟩ := hl
  rw [hn]
  exact .next _

theorem Linked.ready (hl : Linked h h' k) : h'.ready k = h.ready k := by
  obtain ⟨next, hn⟩ := hl
  simp only [Heap.ready, hn, Node.len]

theorem Linked.pending (hl : Linked h h' k) : h'.pending k = h.pending k := by
  obtain ⟨next, hn⟩ := hl
  simp only [Heap.pending, hn]

theorem Linked.fit (hl : Linked h h' k) (hf : (h.nodes k).Fit) : (h'.nodes k).Fit := by
  obtain ⟨next, hn⟩ := hl
  rw [hn]
  exact ⟨hf.off, hf.len, hf.malloc, hf.grown⟩

structure Grown (h h' : Heap) (b b' : LinkBuffer) (A B C D L D' : List Nat) (w : Nat) (U : List Nat)
    (K : List Slice) (P : Nat → Prop) : Prop where
  ptr : b' = { b with write := some w }
  last : (C ++ L).getLast? = some w
  rep : Rep h' b' A B (C ++ L) D'
  safe : Safe h' (A ++ B ++ (C ++ L) ++ D' ++ U) K P
  keeps : Keeps h h' U K P
  still : Still h h'
  mem : h'.mem = h.mem
  empty : ∀ k ∈ L, h'.ready k = [] ∧ h'.pending k = []
  same : ∀ k ∈ A ++ B ++ C, Linked h h' k
  added : ∀ k ∈ L, k ∈ D ∧ Linked h h' k ∨ New h h' k
  rest : ∀ k ∈ D', k ∈ D ∧ Linked h h' k
  owned : Owned h' (A ++ B ++ (C ++ L))
  owned_all : Owned h' (A ++ B ++ (C ++ L) ++ D')

theorem tail_spec (hr : Rep h b A B (C ++ [w]) D)
    (hs : Safe h (A ++ B ++ (C ++ [w]) ++ D ++ U) K P) (ho : Owned h (A ++ B ++ (C ++ [w])))
    (hv : Viewed h U) (cfg : Config) (size : Int) :
    ∃ j h₁ h', h.newLinkBufferNode cfg size = (j, h₁) ∧ h₁.link w (some j) = h' ∧
      Grown h h' b { b with write := some j } A B (C ++ [w]) D [j] [] j U K P ∧ New h h' j ∧
      (h'.nodes j).readonly = decide (size ≤ 0) ∧
      (0 < size → size.toNat ≤ (h'.nodes j).buf.cap) ∧ (size ≤ 0 → (h'.nodes j).buf.cap = 0) := by
  obtain ⟨j, h₁, hnew, hj, hs₁, hm⟩ := hs.newNode cfg size
  have hjU : j ∉ A ++ B ++ (C ++ [w]) ++ D ++ U := fun hmem => by
    have := refs_pos_of_mem (h := h) hmem
    omega
  have hL : ∀ k ∈ A ++ B ++ (C ++ [w]), k ≠ j := by
    rintro k hk rfl
    exact hjU (List.mem_append_left _ (List.mem_append_left _ hk))
  have hwj : w ≠ j := hL w (by simp)
  have hU : ∀ k ∈ U, k ≠ j := by
    rintro k hk rfl
    exact hjU (List.mem_append_right _ hk)
  have hnode : ∀ k, k ≠ j → Linked h (h₁.link w (some j)) k :=
    fun k hk => ⟨_, by rw [Heap.link_nodes, hm.others k hk]⟩
  have hnew_j : (h₁.link w (some j)).nodes j = h₁.nodes j := by
    simp [Heap.link, Ne.symm hwj]
  have hnew' : New h (h₁.link w (some j)) j := by
    constructor <;> rw [hnew_j]
    exacts [hm.new.off, hm.new.malloc, hm.new.refer, hm.new.len, hm.new.start, hm.new.origin,
      hm.new.next, hm.new.block]
  have hown : Owned (h₁.link w (some j)) (A ++ B ++ (C ++ [w] ++ [j])) := by
    rw [← List.append_assoc (A ++ B)]
    have ho' : Owned (h₁.link w (some j)) (A ++ B ++ (C ++ [w])) :=
      ho.like (hm.still.trans Heap.link_still).lent fun k hk => (hnode k (hL k hk)).like
    exact ho'.append hnew'.owned
  have hw : w ∉ U := fun hwU => (List.nodup_append.mp hs.nodup).2.2 w (by simp) w hwU rfl
  refine ⟨j, h₁, _, hnew, rfl, ?_, hnew', by rw [hnew_j, hm.readonly],
    fun hsize => by rw [hnew_j]; exact (hm.cap hsize).1, fun hsize => by rw [hnew_j, hm.bare hsize]⟩
  refine ⟨rfl, by simp, ⟨?_, ?_, ?_, by simp, ?_, ?_, by simp, by simp⟩, ?_, ?_,
    hm.still.trans Heap.link_still, hm.mem, ?_, fun k hk => hnode k (hL k hk), ?_, by simp, hown,
    by simpa using hown⟩
  · obtain ⟨c, hseg, -⟩ := Chain.seg_append.mp hr.seg
    have hseg₁ : Chain.Seg (fun k => (h₁.nodes k).next) b.head (A ++ B ++ C ++ [w]) c := by
      rw [List.append_assoc]
      exact hseg.congr fun k hk => by rw [hm.others k (hL k hk)]
    have hw : w ∉ A ++ B ++ C := by
      have hnd := hs.nodup.of_append_left.of_append_left
      rw [← List.append_assoc] at hnd
      exact fun hmem => (List.nodup_append.mp hnd).2.2 w hmem w (by simp) rfl
    rw [Heap.link_next]
    have hj : Chain.Seg (fun k => (h₁.nodes k).next) (some j) [j] none := by simp [hm.next]
    simpa using hseg₁.set_next hw hj (by simpa using hwj)
  · rw [show b.read = _ from hr.read]
    simp
  · rw [show b.flush = _ from hr.flush]
    simp
  · intro k hk
    simp only [List.append_nil, ← List.append_assoc, List.mem_append, List.mem_singleton] at hk
    rcases hk with hk | rfl
    · have hk' : k ∈ A ++ B ++ (C ++ [w]) := by simpa [or_assoc] using hk
      exact (hnode k (hL k hk')).fit (hr.fit k (List.mem_append_left _ hk'))
    · exact hnew'.fit
  · intro k hk
    rw [(hnode k (hL k (by simp [hk]))).pending, hr.submitted k hk]
  · have hsub : (j :: (A ++ B ++ (C ++ [w]) ++ U)).Sublist
      (j :: (A ++ B ++ (C ++ [w]) ++ D ++ U)) :=
      ((List.sublist_append_left _ _).append (List.Sublist.refl U)).cons_cons j
    have hview : Viewed h₁ ([j] ++ (A ++ B ++ (C ++ [w]) ++ U)) := by
      refine hm.new.owned.viewed.append ((ho.viewed.append hv).like hm.still.lent fun k hk => ?_)
      rw [hm.others k ((List.mem_append.mp hk).elim (hL k) (hU k))]
      exact .refl _
    refine ((hs₁.sublist hsub hview).congr_list fun a => ?_).link (by simp)
    simp only [List.count_append, List.count_cons, List.count_nil]
    omega
  · refine (hm.keeps ?_).trans (.link hw)
    have hle : refs h U j ≤ refs h (A ++ B ++ (C ++ [w]) ++ D ++ U) j :=
      Nat.add_le_add ((List.sublist_append_right _ _).count_le j)
        (List.sublist_append_right _ _).countP_le
    omega
  · intro k hk
    rw [List.mem_singleton.mp hk]
    exact ⟨hnew'.ready, hnew'.pending⟩
  · intro k hk
    rw [List.mem_singleton.mp hk]
    exact .inr hnew'

theorem exists_last (hC : C ≠ []) : ∃ C' w, C = C' ++ [w] :=
  ⟨C.dropLast, C.getLast hC, (List.dropLast_append_getLast hC).symm⟩

theorem addTail_spec (hr : Rep h b A B C D) (hC : C ≠ []) (hs : Safe h (A ++ B ++ C ++ D ++ U) K P)
    (ho : Owned h (A ++ B ++ C)) (hv : Viewed h U) (cfg : Config) (size : Int) :
    ∃ j b' h', b.addTail h cfg size = some (j, b', h') ∧
      Grown h h' b b' A B C D [j] [] j U K P ∧ New h h' j ∧
      (h'.nodes j).readonly = decide (size ≤ 0) ∧
      (0 < size → size.toNat ≤ (h'.nodes j).buf.cap) ∧ (size ≤ 0 → (h'.nodes j).buf.cap = 0) := by
  obtain ⟨C, w, rfl⟩ := exists_last hC
  obtain ⟨j, h₁, h', hnew, hlink, hg⟩ := tail_spec hr hs ho hv cfg size
  exact ⟨j, _, h', by simp [addTail, hr.write_last, hnew, hlink], hg⟩

theorem Rep.useSpare {d : Nat} (hr : Rep h b A B C (d :: D)) :
    Rep h { b with write := some d } A B (C ++ [d]) D := by
  have hC : C ≠ [] := fun he => by cases hr.reader he
  refine ⟨by simpa using hr.seg, ?_, ?_, by simp, fun k hk => hr.fit k (by simpa using hk),
    hr.submitted, fun k hk => hr.spare k (by simp [hk]), by simp⟩
  · rw [show b.read = _ from hr.read]
    cases C
    · exact absurd rfl hC
    · cases B <;> simp
  · rw [show b.flush = _ from hr.flush]
    cases C
    · exact absurd rfl hC
    · simp

theorem Grown.refl (hr : Rep h b A B (C ++ [w]) D)
    (hs : Safe h (A ++ B ++ (C ++ [w]) ++ D ++ U) K P) (ho : Owned h (A ++ B ++ (C ++ [w]) ++ D))
    (hro : (h.nodes w).readonly = false) :
    Grown h h b b A B (C ++ [w]) D [] D w U K P where
  ptr := by
    have := hr.write_last
    cases b
    simp_all
  last := by simp
  rep := by simpa using hr
  safe := by simpa using hs
  keeps := .refl
  still := .refl
  mem := rfl
  empty := by simp
  same _ _ := .refl
  added := by simp
  rest k hk := ⟨hk, .refl⟩
  owned := by
    rw [List.append_assoc, List.append_assoc, List.append_assoc, ← List.append_assoc,
      ← List.append_assoc, List.singleton_append] at ho
    simpa using ho.left hro
  owned_all := by simpa using ho

theorem growth_spec (hr : Rep h b A B C D) (hC : C ≠ []) (hs : Safe h (A ++ B ++ C ++ D ++ U) K P)
    (ho : Owned h (A ++ B ++ C ++ D)) (hv : Viewed h U) (cfg : Config) (hpos : 0 < n)
    (hf : D.length < fuel) :
    ∃ L D' w b' h', growth cfg n fuel b h = some (b', h') ∧
      Grown h h' b b' A B C D L D' w U K P ∧ (h'.nodes w).readonly = false ∧
      (h'.nodes w).malloc + n ≤ (h'.nodes w).buf.cap := by
  induction D generalizing b C fuel with
  | nil =>
    obtain ⟨C, x, rfl⟩ := exists_last hC
    obtain ⟨f, rfl⟩ := Nat.exists_eq_add_of_lt hf
    have hx := hr.write_last
    by_cases hcond : (h.nodes x).readonly = true ∨ (h.nodes x).buf.cap - (h.nodes x).malloc < n
    · have hnext : (h.nodes x).next = none := by
        have hseg := hr.seg
        simp only [List.append_nil, ← List.append_assoc] at hseg
        simpa using hseg.next_eq
      obtain ⟨j, h₁, h', hnew, hlink, hg, hn, hro, hcap, -⟩ :=
        tail_spec hr hs (by simpa using ho) hv cfg n
      refine ⟨[j], [], j, _, h', ?_, hg, ?_, ?_⟩
      · simp only [growth, hx, Option.bind_eq_bind, Option.bind_some, if_pos hcond, hnext, hnew,
          hlink, Option.pure_def]
      · rw [hro]
        simp
        omega
      · have := hcap (by omega)
        rw [hn.malloc]
        omega
    · have hm := (hr.fit x (by simp)).malloc
      simp only [not_or, Bool.not_eq_true, Nat.not_lt] at hcond
      exact ⟨[], [], x, b, h, by simp [growth, hx, hcond], .refl hr hs ho hcond.1,
        hcond.1, by omega⟩
  | cons d D ih =>
    obtain ⟨C, x, rfl⟩ := exists_last hC
    obtain ⟨f, rfl, hB⟩ := Chain.steps_of_length_lt hf
    have hx := hr.write_last
    by_cases hcond : (h.nodes x).readonly = true ∨ (h.nodes x).buf.cap - (h.nodes x).malloc < n
    · have hnext : (h.nodes x).next = some d := by
        have hseg := hr.seg
        rw [← List.append_assoc, List.append_assoc _ [x]] at hseg
        simpa using hseg.next_eq
      obtain ⟨L, D', w, b', h', hg, hgr, hro, hroom⟩ := ih hr.useSpare (by simp)
        (by simpa using hs) (by simpa using ho) hB
      have hd : Linked h h' d := hgr.same d (by simp)
      refine ⟨d :: L, D', w, b', h', ?_, ⟨hgr.ptr, by simpa using hgr.last, by simpa using hgr.rep,
        by simpa using hgr.safe, hgr.keeps, hgr.still, hgr.mem, fun k hk => ?_, fun k hk => ?_,
        fun k hk => ?_, fun k hk => (hgr.rest k hk).imp_left fun hD => by simp [hD],
        by simpa using hgr.owned, by simpa using hgr.owned_all⟩, hro, hroom⟩
      · simp only [growth, hx, Option.bind_eq_bind, Option.bind_some, if_pos hcond, hnext]
        exact hg
      · rcases List.mem_cons.mp hk with rfl | hk
        · rw [hd.ready, hd.pending]
          exact hr.spare k (by simp)
        · exact hgr.empty k hk
      · exact hgr.same k (by rw [← List.append_assoc]; exact List.mem_append_left _ hk)
      · rcases List.mem_cons.mp hk with rfl | hk
        · exact .inl ⟨by simp, hd⟩
        · exact (hgr.added k hk).imp_left fun ⟨hD, hl⟩ => ⟨by simp [hD], hl⟩
    · have hm := (hr.fit x (by simp)).malloc
      simp only [not_or, Bool.not_eq_true, Nat.not_lt] at hcond
      exact ⟨[], d :: D, x, b, h, by simp [growth, hx, hcond], .refl hr hs ho hcond.1, hcond.1,
        by omega⟩

end Netpoll.Nocopy
