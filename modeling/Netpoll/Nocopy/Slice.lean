import Netpoll.Nocopy.Read

namespace Netpoll.Nocopy

open Netpoll.Lib Netpoll.Lib.Memory LinkBuffer

variable {h h' : Heap} {b r : LinkBuffer} {A B C D U X : List Nat} {K : List Slice}
  {P : Nat → Prop} {i j k n m fuel tail : Nat} {cfg : Config}

theorem Safe.congr_list {V : List Nat} (hs : Safe h U K P) (he : ∀ a, U.count a = V.count a) :
    Safe h V K P :=
  hs.perm (List.perm_iff_count.mpr he)

structure Referred (h : Heap) (j : Nat) (l : List Addr) : Prop where
  next : (h.nodes j).next = none
  fit : (h.nodes j).Fit
  pending : h.pending j = []
  ready : h.ready j = l
  origin : (h.nodes j).origin ≠ none

def Based (h : Heap) (i : Nat) : Prop :=
  (h.nodes ((h.nodes i).origin.getD i)).readonly = false ∨
    h.owner (h.nodes ((h.nodes i).origin.getD i)).buf.blk = .lent

def taken (h : Heap) : List Nat → Nat → List Nat
  | [], _ => []
  | i :: L, n =>
    if n = 0 then [] else if (h.nodes i).len = 0 then taken h L n
    else i :: taken h L (n - (h.nodes i).len)

theorem taken_zero {L : List Nat} : taken h L 0 = [] := by cases L <;> simp [taken]

theorem taken_congr {L : List Nat} (hL : ∀ i ∈ L, (h'.nodes i).len = (h.nodes i).len) :
    taken h' L n = taken h L n := by
  induction L generalizing n with
  | nil => rfl
  | cons i L ih =>
    have hi := hL i (by simp)
    have ih := fun n => ih (n := n) fun k hk => hL k (by simp [hk])
    simp only [taken, hi, ih]

theorem mem_of_mem_taken {L : List Nat} (hi : i ∈ taken h L n) : i ∈ L := by
  induction L generalizing n with
  | nil => exact hi
  | cons k L ih =>
    simp only [taken] at hi
    split at hi
    · cases hi
    · split at hi
      · exact List.mem_cons_of_mem _ (ih hi)
      · exact (List.mem_cons.mp hi).elim (fun he => by simp [he]) fun hi =>
          List.mem_cons_of_mem _ (ih hi)

theorem taken_of_empty {L M : List Nat} (hL : h.content L = []) :
    taken h (L ++ M) n = taken h M n := by
  induction L with
  | nil => rfl
  | cons i L ih =>
    rw [Heap.content_cons, List.append_eq_nil_iff] at hL
    have h0 : (h.nodes i).len = 0 := by rw [← Heap.length_ready, hL.1, List.length_nil]
    rw [List.cons_append, taken, if_pos h0, ih hL.2]
    split
    · next hn => rw [hn, taken_zero]
    · rfl

theorem Node.len_of_bare {node node' : Node} (hb : node'.bare = node.bare) :
    node'.len = node.len := by
  simp only [Node.bare, Node.mk.injEq] at hb
  simp only [Node.len, hb]

theorem taken_advance {L : List Nat} (hi : i ∉ L)
    (hL : ∀ k ∈ L, (h'.nodes k).bare = ((h.advance i m).nodes k).bare) :
    taken h' L n = taken h L n :=
  taken_congr fun k hk => by
    have hki : k ≠ i := by
      rintro rfl
      exact hi hk
    rw [Node.len_of_bare (hL k hk)]
    simp [Heap.advance, hki]

theorem Rep.notMem_early (hs : Safe h (A ++ i :: B ++ C ++ D ++ U) K P) : i ∉ B ++ C.take 1 := by
  intro hi
  have hnd := hs.nodup
  simp only [List.append_assoc, List.cons_append] at hnd
  obtain ⟨-, hnd, -⟩ := List.nodup_append.mp hnd
  refine (List.nodup_cons.mp hnd).1 ?_
  have := fun hk : i ∈ C.take 1 => List.mem_of_mem_take hk
  simp only [List.mem_append] at hi ⊢
  grind

theorem refer_spec (hr : Rep h b A B C D) (hs : Safe h (A ++ B ++ C ++ D ++ U) K P) (cfg : Config)
    (hi : b.read = some i) (hpos : 0 < m) (hm : m ≤ (h.nodes i).len) :
    ∃ j h', h.nodeRefer cfg i m = some (j, h') ∧ Took h h' b A B C D U K P m A B ∧
      Safe h' (A ++ B ++ C ++ D ++ (j :: U)) K P ∧ Referred h' j ((h.ready i).take m) ∧
      h'.mem = h.mem ∧ (Based h i → Sound h' j) ∧
      ∀ k ∈ A ++ B ++ C ++ D, (h'.nodes k).bare = ((h.advance i m).nodes k).bare ∧
        (Based h k → Based h' k) := by
  have hfit := hr.fit_read hi
  have hst := hr.stop hi hm
  have hi' : i ∈ A ++ B ++ C ++ D := by
    have := List.mem_of_mem_head? (Option.mem_def.mpr (hr.read ▸ hi))
    simp only [List.mem_append] at this ⊢
    grind
  have hiU : i ∈ A ++ B ++ C ++ D ++ U := List.mem_append_left _ hi'
  obtain ⟨j, h', href, hj, hs', hmem, hstill, hnj, hnk⟩ :=
    hs.refer cfg hiU hpos (hfit.off_add hm) hfit.len
  have hjpos : ∀ k, 0 < refs h (A ++ B ++ C ++ D ++ U) k → k ≠ j := by
    rintro k hk rfl
    omega
  have hbare : ∀ k, 0 < refs h (A ++ B ++ C ++ D ++ U) k →
      (h'.nodes k).bare = ((h.advance i m).nodes k).bare := fun k hk => hnk k (hjpos k hk)
  have hlike : ∀ k, 0 < refs h (A ++ B ++ C ++ D ++ U) k → (h.nodes k).Like (h'.nodes k) :=
    fun k hk =>
    (Heap.advance_like i m k).1.trans (.of_bare (hbare k hk))
  have hroot : ∀ k ∈ A ++ B ++ C ++ D ++ U,
      (h.nodes ((h.nodes k).origin.getD k)).Like (h'.nodes ((h.nodes k).origin.getD k)) := by
    intro k hk
    apply hlike
    cases ho : (h.nodes k).origin with
    | none => exact refs_pos_of_mem hk
    | some r => exact refs_pos_of_origin hk ho
  have hkeep : Keeps (h.advance i m) h' (A ++ B ++ C ++ D ++ U) K P := by
    refine .of_like ⟨hstill.owner, hstill.freed, hstill.fresh, hstill.top⟩
      (fun k hk => hbare k (refs_pos_of_mem hk)) fun k hk r hr => ?_
    rw [(Heap.advance_like i m k).1.origin] at hr
    exact .of_bare (hbare r (refs_pos_of_origin hk hr))
  have ht := hst.took (K := K) hs
  rw [hr.read_eq hi] at ht
  have hlent : ∀ k ∈ A ++ B ++ C ++ D ++ U, Based h k →
      (h'.nodes ((h.nodes k).origin.getD k)).readonly = false ∨
        h'.owner (h'.nodes ((h.nodes k).origin.getD k)).buf.blk = .lent := fun k hk hb => by
    rw [(hroot k hk).readonly, (hroot k hk).blk]
    exact hb.imp_right (hstill.lent _)
  refine ⟨j, h', href, ht.after ⟨hstill.owner, hstill.freed, hstill.fresh, hstill.top⟩ hkeep,
    hs'.congr_list fun a => ?_, ⟨?_, ?_, ?_, ?_, ?_⟩, hmem, fun hb r hr => ?_,
    fun k hk => ⟨hbare k (refs_pos_of_mem (List.mem_append_left U hk)), fun hb => ?_⟩⟩
  · simp only [List.count_append, List.count_cons]
    omega
  · simp [hnj, Node.slice]
  · rw [hnj]
    constructor <;> simp [Node.slice, Node.front]
  · simp [Heap.pending, hnj, Node.slice]
  · rw [← Heap.cells_front hm, Heap.ready, hnj]
    simp [Node.slice, Node.front, Node.len, Slice.cells]
  · simp [hnj, Node.slice]
  · simp only [hnj, Node.slice, Option.some.injEq] at hr
    exact hr ▸ hlent i hiU hb
  · have hk := List.mem_append_left U hk
    rw [Based, (hlike k (refs_pos_of_mem hk)).origin]
    exact hlent k hk hb

theorem Heap.link_nodes {next : Option Nat} (k : Nat) : (h.link i next).nodes k =
    { h.nodes k with next := if k = i then next else (h.nodes k).next } := by
  by_cases hk : k = i
  · subst hk
    simp [Heap.link]
  · simp [Heap.link, hk]

@[simp] theorem Heap.link_ready {next : Option Nat} : (h.link i next).ready k = h.ready k := by
  simp only [Heap.ready, Heap.link_nodes, Node.len]

@[simp] theorem Heap.link_pending {next : Option Nat} :
    (h.link i next).pending k = h.pending k := by
  simp only [Heap.pending, Heap.link_nodes]

theorem Node.Fit.link {next : Option Nat} (hf : (h.nodes k).Fit) :
    ((h.link i next).nodes k).Fit := by
  rw [Heap.link_nodes]
  exact ⟨hf.off, hf.len, hf.malloc, hf.grown⟩

theorem Node.Like.next {n : Option Nat} (node : Node) : node.Like { node with next := n } :=
  ⟨rfl, rfl, rfl, le_rfl, id, rfl, id, rfl, le_rfl, fun _ => le_rfl⟩

theorem Safe.link {next : Option Nat} (hs : Safe h U K P) (hi : i ∈ U) :
    Safe (h.link i next) U K P :=
  hs.set hi (.next _) rfl

theorem Keeps.link {next : Option Nat} (hi : i ∉ U) : Keeps h (h.link i next) U K P :=
  .set hi (.next _)

theorem Heap.link_still {next : Option Nat} : Still h (h.link i next) :=
  ⟨fun _ _ => rfl, rfl, le_rfl, le_rfl⟩

theorem Heap.link_like {next : Option Nat} : (h.nodes k).Like ((h.link i next).nodes k) := by
  rw [Heap.link_nodes]
  exact .next _

theorem Heap.link_next {next : Option Nat} : (fun k => ((h.link i next).nodes k).next) =
    Function.update (fun k => (h.nodes k).next) i next := by
  funext k
  by_cases hk : k = i
  · subst hk
    simp [Heap.link]
  · simp [Heap.link, hk]

structure Chained (h : Heap) (r : LinkBuffer) (X : List Nat) : Prop where
  rep : Rep h r [] X [] []
  origin : ∀ k ∈ X, (h.nodes k).origin ≠ none

theorem Chained.keeps (hc : Chained h r X) (hk : Keeps h h' X K P) : Chained h' r X :=
  ⟨hc.rep.keeps hk fun k hk => by simpa using hk, fun k hkX => by
    rw [(Node.Like.of_bare (hk.node k hkX)).origin]
    exact hc.origin k hkX⟩

theorem Rep.link {l : List Addr} (hr : Rep h r [] (X ++ [tail]) [] []) (hj : Referred h j l)
    (hnd : (X ++ [tail] ++ [j]).Nodup) :
    Rep (h.link tail (some j)) r [] (X ++ [tail] ++ [j]) [] [] where
  seg := by
    have hd := List.nodup_append.mp hnd
    have ht : tail ∉ X := fun hm => (List.nodup_append.mp hd.1).2.2 tail hm tail (by simp) rfl
    have htj : tail ≠ j := hd.2.2 tail (by simp) j (by simp)
    rw [Heap.link_next]
    simpa using Chain.Seg.set_next (l := X) (by simpa using hr.seg) ht
      (show Chain.Seg _ (some j) [j] none by simp [hj.next]) (by simpa using htj)
  read := by
    rw [hr.read]
    cases X <;> rfl
  flush := hr.flush
  write := hr.write
  fit k hk := by
    simp only [List.nil_append, List.append_nil] at hk
    rcases List.mem_append.mp hk with hk | hk
    · exact (hr.fit k (by simpa using hk)).link
    · rw [List.mem_singleton.mp hk]
      exact hj.fit.link
  submitted k hk := by
    rw [Heap.link_pending]
    rcases List.mem_append.mp hk with hk | hk
    · exact hr.submitted k hk
    · rw [List.mem_singleton.mp hk]
      exact hj.pending
  spare k hk := by simp at hk
  reader _ := rfl

theorem Chained.link {l : List Addr} (hc : Chained h r (X ++ [tail])) (hj : Referred h j l)
    (hnd : (X ++ [tail] ++ [j]).Nodup) :
    Chained (h.link tail (some j)) r (X ++ [tail] ++ [j]) := by
  refine ⟨hc.rep.link hj hnd, fun k hk => ?_⟩
  rw [Heap.link_like.origin]
  rcases List.mem_append.mp hk with hk | hk
  · exact hc.origin k hk
  · rw [List.mem_singleton.mp hk]
    exact hj.origin

theorem Sound.link {next : Option Nat} (hs : Sound h k) : Sound (h.link i next) k :=
  hs.like (fun _ => id) Heap.link_like.origin fun _ _ => Heap.link_like

theorem Based.link {next : Option Nat} (hb : Based h k) : Based (h.link i next) k := by
  rw [Based, (Heap.link_like (h := h) (k := k)).origin, Heap.link_like.readonly, Heap.link_like.blk]
  exact hb

theorem refer_step (hr : Rep h b A B C D) (hrd : Chained h r (X ++ [tail]))
    (hs : Safe h (A ++ B ++ C ++ D ++ (X ++ [tail] ++ U)) K P) (cfg : Config)
    (hi : b.read = some i) (hpos : 0 < m) (hm : m ≤ (h.nodes i).len) :
    ∃ j h₁ h', h.nodeRefer cfg i m = some (j, h₁) ∧ h₁.link tail (some j) = h' ∧
      Took h h' b A B C D U K P m A B ∧ Chained h' r (X ++ [tail] ++ [j]) ∧
      Safe h' (A ++ B ++ C ++ D ++ (X ++ [tail] ++ [j] ++ U)) K P ∧
      h'.content (X ++ [tail] ++ [j]) = h.content (X ++ [tail]) ++ (h.ready i).take m ∧
      h'.mem = h.mem ∧
      (Based h i → (∀ k ∈ X ++ [tail], Sound h k) → ∀ k ∈ X ++ [tail] ++ [j], Sound h' k) ∧
      (∀ k ∈ A ++ B ++ C ++ D, (h'.nodes k).bare = ((h.advance i m).nodes k).bare ∧
        (Based h k → Based h' k)) := by
  obtain ⟨j, h₁, href, ht, hs₁, hj, hmem, hsd, hnodes⟩ := refer_spec hr hs cfg hi hpos hm
  have hs₁ : Safe h₁ (A ++ B ++ C ++ D ++ (X ++ [tail] ++ [j] ++ U)) K P :=
    hs₁.congr_list fun a => by
      simp only [List.count_append, List.count_cons, List.count_nil]
      omega
  have hnd := hs₁.nodup
  obtain ⟨-, hnd₁, hdis⟩ := List.nodup_append.mp hnd
  have hndX : (X ++ [tail] ++ [j]).Nodup := hnd₁.of_append_left
  have htail : tail ∉ A ++ B ++ C ++ D ++ U := by
    intro hmem'
    rcases List.mem_append.mp hmem' with hm' | hm'
    · exact hdis tail hm' tail (by simp) rfl
    · exact (List.nodup_append.mp hnd₁).2.2 tail (by simp) tail hm' rfl
  have hkX : Keeps h h₁ (X ++ [tail]) K P :=
    ht.keeps.mono (fun _ hk => List.mem_append_left _ hk) (fun _ hs => hs) fun _ hx => hx
  have htU : Took h h₁ b A B C D U K P m A B :=
    { ht with
      keeps := ht.keeps.mono (fun _ hk => List.mem_append_right _ hk) (fun _ hs => hs)
        fun _ hx => hx }
  refine ⟨j, h₁, _, href, rfl, htU.after Heap.link_still (.link htail), ?_, hs₁.link (by simp), ?_,
    hmem, fun hb hX k hk => ?_, fun k hk => ⟨?_, fun hb => ((hnodes k hk).2 hb).link⟩⟩
  · exact (hrd.keeps hkX).link hj hndX
  · have hX : h₁.content (X ++ [tail]) = h.content (X ++ [tail]) :=
      Heap.content_congr fun k hk => Heap.ready_of_bare (hkX.node k hk)
    rw [Heap.content_congr (h := h₁) fun k _ => Heap.link_ready, Heap.content_append, hX]
    simp [hj.ready]
  · rcases List.mem_append.mp hk with hk | hk
    · exact (hkX.sound k hk (hX k hk)).link
    · rw [List.mem_singleton.mp hk]
      exact (hsd hb).link
  · have hkt : k ≠ tail := by
      rintro rfl
      exact htail (List.mem_append_left _ hk)
    rw [← (hnodes k hk).1]
    simp [Heap.link, hkt]

theorem sliceLoop_spec (hr : Rep h b A B C D) (hrd : Chained h r (X ++ [tail]))
    (hs : Safe h (A ++ B ++ C ++ D ++ (X ++ [tail] ++ U)) K P) (cfg : Config)
    (hn : n ≤ (h.content (B ++ C.take 1)).length) (hpos : 0 < n) (hf : B.length < fuel) :
    ∃ A' B' X' read tail' h', sliceLoop cfg fuel h b.read tail n = some (read, tail', h') ∧
      Took h h' { b with read := read } A B C D U K P n A' B' ∧ Chained h' r (X' ++ [tail']) ∧
      Safe h' (A ++ B ++ C ++ D ++ (X' ++ [tail'] ++ U)) K P ∧
      h'.content (X' ++ [tail']) = h.content (X ++ [tail]) ++ (h.content (B ++ C.take 1)).take n ∧
      h'.mem = h.mem ∧ ((∀ k ∈ taken h (B ++ C.take 1) n, Based h k) →
        (∀ k ∈ X ++ [tail], Sound h k) → ∀ k ∈ X' ++ [tail'], Sound h' k) := by
  induction B generalizing h b A n fuel X tail with
  | nil =>
    obtain ⟨i, C', rfl, hi, -, hle⟩ := hr.read_flush hn hpos
    obtain ⟨f, rfl⟩ := Nat.exists_eq_add_of_lt hf
    obtain ⟨j, h₁, h', href, rfl, ht, hrd', hs', hcont, hmem, hsd, -⟩ :=
      refer_step hr hrd hs cfg hi hpos hle
    refine ⟨A, [], X ++ [tail], some i, j, _, ?_, (hr.read_eq hi).symm ▸ ht, hrd', hs', ?_, hmem,
      fun hb hX => hsd (hb i ?_) hX⟩
    · simp [sliceLoop, Nat.ne_of_gt hpos, hi, hle, href]
    · rw [hcont]
      simp
    · have : (h.nodes i).len ≠ 0 := by omega
      simp [taken, Nat.ne_of_gt hpos, this]
  | cons i B ih =>
    obtain ⟨f, rfl, hB⟩ := Chain.steps_of_length_lt hf
    have hi := hr.read_cons
    by_cases hle : n ≤ (h.nodes i).len
    · obtain ⟨j, h₁, h', href, rfl, ht, hrd', hs', hcont, hmem, hsd, -⟩ :=
        refer_step hr hrd hs cfg hi hpos hle
      refine ⟨A, i :: B, X ++ [tail], some i, j, _, ?_, (hr.read_eq hi).symm ▸ ht, hrd', hs', ?_,
        hmem, fun hb hX => hsd (hb i ?_) hX⟩
      · simp [sliceLoop, Nat.ne_of_gt hpos, hi, hle, href]
      · rw [hcont, List.cons_append, Heap.content_cons,
          List.take_append_of_le_length (by simpa using hle)]
      · have : (h.nodes i).len ≠ 0 := by omega
        simp [taken, Nat.ne_of_gt hpos, this]
    · have hlt : (h.nodes i).len < n := by omega
      have hn' : n - (h.nodes i).len ≤ (h.content (B ++ C.take 1)).length := by
        simp only [List.cons_append, Heap.content_cons, List.length_append, Heap.length_ready] at hn
        omega
      have hadd : (h.nodes i).len + (n - (h.nodes i).len) = n := by omega
      have htake : (h.content (i :: B ++ C.take 1)).take n =
          h.ready i ++ (h.content (B ++ C.take 1)).take (n - (h.nodes i).len) := by
        rw [List.cons_append, Heap.content_cons, List.take_append, List.take_of_length_le]
        · simp
        · simpa using hlt.le
      by_cases hl : 0 < (h.nodes i).len
      · obtain ⟨j, h₁, h₂, href, hlink, ht, hrd₂, hs₂, hcont₂, hmem, hsd, hnodes⟩ :=
          refer_step hr hrd hs cfg hi hl le_rfl
        have hbi := (hnodes i (by simp)).1
        have hnext : (h₂.nodes i).next = (h.nodes i).next := by
          have := congrArg Node.next hbi
          simpa [Node.bare, Heap.advance] using this
        have hempty : h₂.ready i = [] := by
          apply List.eq_nil_of_length_eq_zero
          rw [Heap.length_ready, Node.len_of_bare hbi]
          simp [Heap.advance, Node.len]
          omega
        have ht := ht.pass hempty
        have hcont : h₂.content (B ++ C.take 1) = h.content (B ++ C.take 1) := by
          rw [ht.content, List.cons_append, Heap.content_cons, List.drop_left' (by simp)]
        obtain ⟨A', B', X', read, tail', h', hg, ht', hrd', hs', hcont', hmem', hsd'⟩ :=
          ih (n := n - (h.nodes i).len) ht.rep hrd₂ (by simpa using hs₂) (hcont ▸ hn') (by omega) hB
        have hin : ∀ k ∈ B ++ C.take 1, k ∈ A ++ i :: B ++ C ++ D := fun k hk => by
          have := fun hk : k ∈ C.take 1 => List.mem_of_mem_take hk
          simp only [List.mem_append, List.mem_cons] at hk ⊢
          grind
        refine ⟨A', B', X', read, tail', h', ?_, hadd ▸ ht.trans ht', hrd', by simpa using hs', ?_,
          hmem'.trans hmem, fun hb hX => hsd' (fun k hk => ?_) (hsd (hb i ?_) hX)⟩
        · simpa [sliceLoop, Nat.ne_of_gt hpos, hi, hle, hl, href, hlink] using hg
        · have hrdy : (h.ready i).take (h.nodes i).len = h.ready i :=
            List.take_of_length_le (by simp)
          rw [hcont', hcont₂, hcont, htake, hrdy, List.append_assoc]
        · rw [taken_advance (Rep.notMem_early hs) fun k hk => (hnodes k (hin k hk)).1] at hk
          exact (hnodes k (hin k (mem_of_mem_taken hk))).2
            (hb k (by simp [taken, Nat.ne_of_gt hpos, Nat.ne_of_gt hl, hk]))
        · simp [taken, Nat.ne_of_gt hpos, Nat.ne_of_gt hl]
      · have h0 : (h.nodes i).len = 0 := by omega
        have hempty : h.ready i = [] := List.eq_nil_of_length_eq_zero (by simpa using h0)
        have ht := (Took.refl (U := U) (K := K) (P := P) hr).pass hempty
        obtain ⟨A', B', X', read, tail', h', hg, ht', hrd', hs', hcont', hmem', hsd'⟩ :=
          ih ht.rep hrd (by simpa using hs) (by simpa [h0] using hn') hpos hB
        refine ⟨A', B', X', read, tail', h', ?_, by simpa using ht.trans ht', hrd',
          by simpa using hs', ?_, hmem', fun hb hX => hsd' (fun k hk => hb k ?_) hX⟩
        · simpa [sliceLoop, Nat.ne_of_gt hpos, hi, hle, hl] using hg
        · rw [hcont', htake, hempty, h0]
          rfl
        · simpa [taken, Nat.ne_of_gt hpos, h0] using hk

end Netpoll.Nocopy
