import Netpoll.Nocopy.Buffer

namespace Netpoll.Nocopy

open Netpoll.Lib Netpoll.Lib.Memory LinkBuffer

variable {h h' : Heap} {b b' : LinkBuffer} {p p' : Parts} {U : List Nat} {K : List Slice}
  {P P' : Nat → Prop} {i j k n : Nat} {s : Slice} {cfg : Config}

structure ReadPost (h h' : Heap) (b b' : LinkBuffer) (p p' : Parts) (n : Nat)
    (U : List Nat) (K : List Slice) (P P' : Nat → Prop) : Prop where
  post : Post h h' b b' p p' U K P P'
  readable : h'.content p'.early = (h.content p.early).drop n
  later : h'.later p'.back = h.later p.back
  all : p'.all = p.all
  back : p'.back = p.back
  like : ∀ i ∈ p.all, (h.nodes i).Like (h'.nodes i)
  sameBuf : ∀ i ∈ p.all, (h.nodes i).SameBuf (h'.nodes i)

theorem ReadPost.grows (hp : ReadPost h h' b b' p p' n U K P P') : Grows h h' p.all p'.all :=
  .of_like fun k hk => ⟨hp.all ▸ hk, hp.like k (hp.all ▸ hk)⟩

@[simp] theorem recalLen_kept (d : Int) : (b.recalLen d).kept = b.kept := by
  simp only [LinkBuffer.kept, LinkBuffer.recalLen]
  cases b.cachePeek <;> split <;> simp

theorem recalLen_peek {d : Int} (hd : d < 0) (hs : (b.recalLen d).cachePeek = some s) :
    s.len = 0 := by
  simp only [LinkBuffer.recalLen, if_pos hd, Option.map_eq_some_iff] at hs
  obtain ⟨q, -, rfl⟩ := hs
  rfl

theorem Rep.recalLen {A B C D : List Nat} (hr : Rep h b A B C D) (d : Int) :
    Rep h (b.recalLen d) A B C D := hr.of_eq rfl rfl rfl rfl

theorem Slice.len_zero_peek {d : Int} (hd : d < 0) (hp : b'.cachePeek = (b.recalLen d).cachePeek) :
    ∀ s, b'.cachePeek = some s → s.len ≤ s.cap := by
  intro s hs
  rw [recalLen_peek hd (hp ▸ hs)]
  exact Nat.zero_le _

theorem Took.post {A' B' : List Nat} (hb : Buffer h b p)
    (ht : Took h h' b' p.old p.front p.back p.spare U K P n A' B')
    (hn : n ≤ (h.content p.early).length) (hlen : b'.length = b.length - n)
    (hms : b'.mallocSize = b.mallocSize) (hpk : ∀ s, b'.cachePeek = some s → s.len ≤ s.cap)
    (hs : Safe h' (p.all ++ U) (b'.kept ++ K) P') (hP : ∀ x, P x → P' x)
    (hca : ∀ q ∈ b'.kept, (∃ q' ∈ b.kept, q'.blk = q.blk) ∨ h.owner q.blk = .mcache) :
    ReadPost h h' b b' p ⟨A', B', p.back, p.spare⟩ n U K P P' := by
  have hall : (⟨A', B', p.back, p.spare⟩ : Parts).all = p.all := by
    simp only [Parts.all, ht.split]
  exact ⟨⟨ht.buffer hb hn hlen hms hpk, hall ▸ hs, ht.keeps, hP, hca⟩, ht.content, ht.later_eq,
    hall, rfl, ht.like, ht.sameBuf⟩

theorem kept_recalLen {d : Int} (hc : b'.caches = b.caches)
    (hp : b'.cachePeek = (b.recalLen d).cachePeek) :
    ∀ q ∈ b'.kept, (∃ q' ∈ b.kept, q'.blk = q.blk) ∨ h.owner q.blk = .mcache := by
  have hk : b'.kept = (b.recalLen d).kept := by
    rw [LinkBuffer.kept, hc, hp]
    rfl
  exact fun q hq => .inl ⟨q, by rwa [hk, recalLen_kept] at hq, rfl⟩

theorem Took.readPost {A' B' : List Nat} (hb : Buffer h b p)
    (ht : Took h h' b' p.old p.front p.back p.spare U (b.kept ++ K) P n A' B')
    (hn : n ≤ (h.content p.early).length) (hpos : 0 < n) (hlen : b'.length = b.length - n)
    (hms : b'.mallocSize = b.mallocSize) (hpk : b'.cachePeek = (b.recalLen (-n)).cachePeek)
    (hs : Safe h' (p.all ++ U) (b'.kept ++ K) P') (hP : ∀ x, P x → P' x)
    (hca : ∀ q ∈ b'.kept, (∃ q' ∈ b.kept, q'.blk = q.blk) ∨ h.owner q.blk = .mcache) :
    ReadPost h h' b b' p ⟨A', B', p.back, p.spare⟩ n U K P P' := by
  have hk := ht.keeps.mono (fun _ hi => hi) (fun _ hq => List.mem_append_right b.kept hq)
    fun _ hx => hx
  exact Took.post hb { ht with keeps := hk } hn hlen hms (Slice.len_zero_peek (by omega) hpk) hs hP
    hca

theorem mem_used_of_head {A' B' : List Nat} (hsp : A' ++ B' = p.old ++ p.front)
    (hh : (B' ++ p.back).head? = some i) : i ∈ p.used := by
  have := List.mem_of_mem_head? (Option.mem_def.mpr hh)
  rw [Parts.used, ← hsp, List.append_assoc]
  exact List.mem_append_right _ this

theorem mem_all_of_head {A' B' : List Nat} (hsp : A' ++ B' = p.old ++ p.front)
    (hh : (B' ++ p.back).head? = some i) : i ∈ p.all :=
  Parts.mem_all_of_used (mem_used_of_head hsp hh)

theorem Buffer.le_length (hb : Buffer h b p) (hn : n ≤ (h.content p.early).length) :
    ¬ b.length < n := by
  rw [hb.length, Parts.content_live, List.length_append]
  omega

theorem skip_spec (hb : Buffer h b p) (hs : Safe h (p.all ++ U) (b.kept ++ K) P) (hpos : 0 < n)
    (hn : n ≤ (h.content p.early).length) :
    ∃ b' h' p', b.skip h n = some (.ok (), b', h') ∧ ReadPost h h' b b' p p' n U K P P ∧
      Still h h' ∧ h'.mem = h.mem := by
  have hr := hb.rep.recalLen (-n : Int)
  obtain ⟨A', B', i, m, hst, hloop⟩ := skipLoop_spec hr hn hpos (Safe.length_lt (U := U) hs)
  have ht := hst.took (K := b.kept ++ K) hs
  have hs' := hst.safe hs
  rw [← recalLen_kept (b := b) (-n : Int)] at hs'
  refine ⟨_, _, _, ?_, ht.readPost hb hn hpos rfl rfl rfl hs' (fun _ hP => hP)
    (kept_recalLen (d := -n) rfl rfl), ht.still, rfl⟩
  simp [LinkBuffer.skip, Nat.ne_of_gt hpos, hb.le_length hn, hloop]

theorem single_spec {d : Int} (hb : Buffer h b p) (hs : Safe h (p.all ++ U) (b.kept ++ K) P)
    (hpos : 0 < n) (hn : n ≤ (h.content p.early).length) :
    ∃ A' B' i, Stop h (b.recalLen d) p.old p.front p.back p.spare 0 A' B' i 0 ∧
      0 < (h.nodes i).len ∧ (b.recalLen d).isSingleNode h n =
        some (decide (n ≤ (h.nodes i).len), { b.recalLen d with read := some i }) :=
  isSingleNode_spec (hb.rep.recalLen d) (U := U) hs hn hpos

theorem Stop.fit {A' B' : List Nat} {m : Nat}
    (hst : Stop h b p.old p.front p.back p.spare n A' B' i m) : (h.nodes i).Fit :=
  hst.rep.fit_read rfl

theorem Stop.early_cons {A' B' : List Nat} {m : Nat}
    (hst : Stop h b p.old p.front p.back p.spare n A' B' i m) :
    ∃ l, B' ++ p.back.take 1 = i :: l := by
  have hh := hst.head
  cases B' with
  | nil =>
    cases hC : p.back with
    | nil => simp [hC] at hh
    | cons c C => exact ⟨[], by simpa [hC] using hh⟩
  | cons x B' => exact ⟨B' ++ p.back.take 1, by simpa using hh⟩

theorem Stop.ready_take {A' B' : List Nat}
    (hst : Stop h b p.old p.front p.back p.spare 0 A' B' i 0) (hn : n ≤ (h.nodes i).len) :
    (h.ready i).take n = (h.content p.early).take n := by
  have hcont := hst.content
  rw [List.drop_zero, List.drop_zero, ← Parts.early] at hcont
  obtain ⟨l, hl⟩ := hst.early_cons
  rw [← hcont, hl, Heap.content_cons, List.take_append_of_le_length (by simpa using hn)]

theorem Stop.bytes_front {A' B' : List Nat}
    (hst : Stop h b p.old p.front p.back p.spare 0 A' B' i 0) (hn : n ≤ (h.nodes i).len)
    (hm : h'.mem = h.mem) :
    h'.bytes ((h.nodes i).front n) = h.look ((h.content p.early).take n) := by
  rw [Heap.bytes_eq, Heap.cells_front hn, hst.ready_take hn, Heap.look, hm]
  rfl

theorem Heap.advance_zero : h.advance i 0 = h := by
  simp [Heap.advance, Heap.set]

theorem Alloc.keeps {L : List Nat} {K₀ : List Slice} (ha : Alloc h h' U K s) :
    Keeps h h' L K₀ P :=
  .of_like ha.still (fun k _ => by rw [ha.nodes]) fun _ _ r _ => by rw [ha.nodes]; exact .refl _

theorem Stop.took_zero {A' B' : List Nat} {K₀ : List Slice}
    (hst : Stop h b p.old p.front p.back p.spare 0 A' B' i 0)
    (hs : Safe h (p.all ++ U) K₀ P) :
    Took h h { b with read := some i } p.old p.front p.back p.spare U K P 0 A' B' := by
  have ht := hst.took (K := K) hs
  rwa [Heap.advance_zero] at ht

theorem Safe.content_ne {L : List Nat} {blk : Nat} (hap : Apart h U blk)
    (hL : ∀ i ∈ L, i ∈ U ∧ Sound h i ∧ (h.nodes i).Fit) : ∀ a ∈ h.content L, a.1 ≠ blk := by
  intro a ha
  obtain ⟨i, hi, hai⟩ := List.mem_flatMap.mp ha
  obtain ⟨hiU, hsd, hf⟩ := hL i hi
  rw [Heap.ready, mem_cells, Node.len] at hai
  have hlen := hf.len
  rw [hai.1]
  exact hap i hiU hsd (by omega)

def Parts.Sound (h : Heap) (p : Parts) : Prop := ∀ i ∈ p.early, Nocopy.Sound h i

theorem Buffer.early_mem (hb : Buffer h b p) (hp : p.Sound h) :
    ∀ i ∈ p.early, i ∈ p.all ++ U ∧ Nocopy.Sound h i ∧ (h.nodes i).Fit := fun i hi =>
  have hi' := Parts.mem_all_of_live (Parts.mem_live_of_early hi)
  ⟨List.mem_append_left _ hi', hp i hi, hb.rep.fit i hi'⟩

theorem gather_alloc {A' B' : List Nat} {h₁ : Heap} {K₀ : List Slice} (hb : Buffer h b p)
    (hs : Safe h (p.all ++ U) (b.kept ++ K) P) (hn : n ≤ (h.content p.early).length) (hpos : 0 < n)
    (hst : Stop h b' p.old p.front p.back p.spare 0 A' B' i 0)
    (ha : Alloc h h₁ (p.all ++ U) (b.kept ++ K) s) (hlen : s.len = n)
    (hs₁ : Safe h₁ (p.all ++ U) K₀ P') (hP : ∀ x, P x → P' x) :
    ∃ A'' B'' read h', gather (h₁.fresh + 1) h₁ (some i) s n = some (read, h') ∧
      Took h h' { b' with read := read } p.old p.front p.back p.spare U (b.kept ++ K) P n A'' B'' ∧
      Safe h' (p.all ++ U) K₀ P' ∧ Writes (·.1 = s.blk) h.mem h'.mem ∧
      (p.Sound h → h'.bytes s = h.look ((h.content p.early).take n)) := by
  have ht₁ := (hst.took_zero (K := b.kept ++ K) hs).after ha.still ha.keeps
  have hall : A' ++ B' ++ p.back ++ p.spare ++ U = p.all ++ U := by
    rw [Parts.all, hst.split]
  have hcont : h₁.content (B' ++ p.back.take 1) = h.content p.early := by
    rw [ht₁.content, List.drop_zero, ← Parts.early]
  obtain ⟨A'', B'', read, h', hg, ht, hs', -, hw, hm⟩ := gather_spec
    (U := U) (K := b.kept ++ K) (n := n) ht₁.rep (hall ▸ hs₁) (by rwa [hcont]) hpos
    (Safe.length_lt (hall ▸ hs₁)) hlen.ge
  have ht : Took h₁ h' _ A' B' p.back p.spare U (b.kept ++ K) P n A'' B'' :=
    { ht with keeps := ht.keeps.mono (fun _ hi => hi) (fun _ hq => hq) hP }
  refine ⟨A'', B'', read, h', hg, ?_, hall ▸ hs', ha.mem ▸ hw, fun hsd => ?_⟩
  · simpa using ht₁.trans ht
  · rw [hcont] at hm
    have hlook : h₁.look ((h.content p.early).take n) = h.look ((h.content p.early).take n) := by
      simp only [Heap.look, ha.mem]
    have hl : s.len = (h.look ((h.content p.early).take n)).length := by
      simp
      omega
    rw [Heap.bytes, hm (Safe.content_ne ha.apart (hb.early_mem hsd)), hlook, hl, load_store_self]

theorem Alloc.calm {h₁ : Heap} {V : List Nat} (ha : Alloc h h₁ U K s)
    (hw : Writes (·.1 = s.blk) h.mem h'.mem) : Calm h h' V :=
  hw.mono fun _ he => .inl (he ▸ ha.mcache)

theorem Stop.readPost {A' B' : List Nat} (hb : Buffer h b p)
    (hs : Safe h (p.all ++ U) (b.kept ++ K) P) (hpos : 0 < n)
    (hn : n ≤ (h.content p.early).length)
    (hst : Stop h (b.recalLen (-n)) p.old p.front p.back p.spare 0 A' B' i 0)
    (hle : n ≤ (h.nodes i).len) :
    ReadPost h (h.advance i n) b { b.recalLen (-n) with read := some i } p
      ⟨A', B', p.back, p.spare⟩ n U K P P := by
  have ht := (hst.more hle).took (K := b.kept ++ K) hs
  have hs' := (hst.more hle).safe hs
  rw [← recalLen_kept (b := b) (-n)] at hs'
  exact ht.readPost hb hn hpos rfl rfl rfl hs' (fun _ hP => hP) (kept_recalLen (d := -n) rfl rfl)

inductive Origin (h : Heap) (b' : LinkBuffer) (p : Parts) (P' : Nat → Prop) (n : Nat) (s : Slice) :
    Prop
  | part (i : Nat) (mem : i ∈ p.used) (eq : s = (h.nodes i).front n) (le : n ≤ (h.nodes i).len)
  | own (mcache : h.owner s.blk = .mcache) (held : s ∈ b'.caches ∨ P' s.blk)

theorem takeNext_spec (hb : Buffer h b p) (hs : Safe h (p.all ++ U) (b.kept ++ K) P)
    (hpos : 0 < n) (hn : n ≤ (h.content p.early).length) :
    ∃ s b' h' p' P', b.takeNext h n = some (s, b', h') ∧ ReadPost h h' b b' p p' n U K P P' ∧
      Still h h' ∧ Calm h h' p.all ∧ s.len = n ∧ Origin h b' p P' n s ∧
      (p.Sound h → h'.bytes s = h.look ((h.content p.early).take n)) := by
  obtain ⟨A', B', i, hst, -, hsingle⟩ := single_spec (d := -n) hb hs hpos hn
  by_cases hle : n ≤ (h.nodes i).len
  · have hpost := hst.readPost hb hs hpos hn hle
    have hnext := Heap.nodeNext_eq (h := h) ((hst.fit.off_add hle).trans hst.fit.len)
    refine ⟨(h.nodes i).front n, _, _, _, P, ?_, hpost, ⟨fun _ _ => rfl, rfl, le_rfl, le_rfl⟩,
      .refl, rfl, .part i (mem_used_of_head hst.split hst.head) rfl hle,
      fun _ => hst.bytes_front hle rfl⟩
    simp [takeNext, hsingle, hle, hnext]
  · by_cases hmax : block1k < n ∧ n ≤ mallocMax
    · obtain ⟨s, h₁, hma, hlen, -, ha, hs₂⟩ := hs.malloc n n
      obtain ⟨A'', B'', read, h', hg, ht, hs', hw, hbytes⟩ :=
        gather_alloc hb hs hn hpos hst ha hlen hs₂ fun _ hx => hx
      have ht : Took h h' { b.recalLen (-n) with read := read, caches := b.caches ++ [s] } p.old
          p.front p.back p.spare U (b.kept ++ K) P n A'' B'' :=
        { ht with rep := ht.rep.of_eq rfl rfl rfl rfl }
      refine ⟨s, _, h', _, P, ?_, ht.readPost hb hn hpos rfl rfl rfl (hs'.caches ?_)
        (fun _ hP => hP) fun q hq => ?_, ht.still, ha.calm hw, hlen,
        .own ha.mcache (.inl (by simp)), hbytes⟩
      · simp [takeNext, hsingle, hle, hmax, hma, hg]
        rfl
      · have := recalLen_kept (b := b) (-n : Int)
        refine (List.perm_iff_count.mpr fun a => ?_).subperm
        have hcnt := congrArg (List.count a) this
        simp only [LinkBuffer.kept, LinkBuffer.recalLen, List.count_append, List.count_cons,
          List.count_nil] at hcnt ⊢
        omega
      · have := recalLen_kept (b := b) (-n : Int)
        simp only [LinkBuffer.kept, LinkBuffer.recalLen, List.mem_append, List.mem_singleton] at hq
        rcases hq with (hq | rfl) | hq
        · exact .inl ⟨q, by simp [LinkBuffer.kept, hq], rfl⟩
        · exact .inr ha.mcache
        · refine .inl ⟨q, ?_, rfl⟩
          rw [← this]
          simp only [LinkBuffer.kept, LinkBuffer.recalLen, List.mem_append]
          exact .inr hq
    · obtain ⟨s, h₁, hma, hlen, -, ha, hs₂⟩ := hs.dirtmake n n
      obtain ⟨A'', B'', read, h', hg, ht, hs', hw, hbytes⟩ :=
        gather_alloc hb hs hn hpos hst ha hlen hs₂ fun _ hx => .inl hx
      rw [← recalLen_kept (b := b) (-n : Int)] at hs'
      refine ⟨s, _, h', _, _, ?_, ht.readPost hb hn hpos rfl rfl rfl hs'
        (fun _ hP => Or.inl hP) (kept_recalLen (d := -n) rfl rfl), ht.still, ha.calm hw, hlen,
        .own ha.mcache (.inr (.inr rfl)), hbytes⟩
      simp [takeNext, hsingle, hle, hmax, hma, hg]

theorem Safe.pin_node (hs : Safe h U K P) (hi : i ∈ U) (hroot : (h.nodes i).root)
    (hre : (h.nodes i).reusable = false) : Safe h U K fun x => P x ∨ x = (h.nodes i).buf.blk := by
  have hi' : 0 < refs h U i := refs_pos_of_mem hi
  refine hs.pin (Owner.held_ne (hs.counted.live i hi' hroot)).1 (fun k hk hr he => ?_)
    fun q hq he => ?_
  · have := hs.counted.distinct k i hk hi' (hs.counted.reusable k hk hr).1 hroot he
    rw [this, hre] at hr
    cases hr
  · exact hs.counted.apart i q hq hi' hroot he.symm

theorem ReadPost.pins {P₁ : Nat → Prop} (hp : ReadPost h h' b b' p p' n U K P P₁)
    (hs : Safe h' (p'.all ++ U) (b'.kept ++ K) P') (hP : ∀ x, P₁ x → P' x) :
    ReadPost h h' b b' p p' n U K P P' :=
  { hp with post := { hp.post with safe := hs, pins := fun x hx => hP x (hp.post.pins x hx) } }

theorem Safe.origin_none (hs : Safe h U K P) (hi : i ∈ U) (hro : (h.nodes i).readonly = false) :
    (h.nodes i).origin = none := by
  cases ho : (h.nodes i).origin with
  | none => rfl
  | some r' =>
    have := (hs.sliced hi ho).readonly
    simp [hro] at this

theorem Safe.mark (hs : Safe h U K P) (hi : i ∈ U) : Safe (h.mark i) U K P :=
  hs.set hi ⟨rfl, rfl, rfl, le_rfl, id, rfl, fun _ => rfl, rfl, le_rfl, fun _ => le_rfl⟩ rfl

theorem copy_alloc {A' B' : List Nat} {h₁ : Heap} {K₀ : List Slice}
    (hs : Safe h (p.all ++ U) (b.kept ++ K) P)
    (hst : Stop h b' p.old p.front p.back p.spare 0 A' B' i 0) (hle : n ≤ (h.nodes i).len)
    (ha : Alloc h h₁ (p.all ++ U) (b.kept ++ K) s) (hlen : s.len = n)
    (hs₁ : Safe h₁ (p.all ++ U) K₀ P') (hP : ∀ x, P x → P' x) :
    ∃ q h₂ h', h₁.nodeNext i n = some (q, h₂) ∧ h₂.copy s (h₂.bytes q) = h' ∧
      Took h h' { b' with read := some i } p.old p.front p.back p.spare U (b.kept ++ K) P n A' B' ∧
      Safe h' (p.all ++ U) K₀ P' ∧ Writes (·.1 = s.blk) h.mem h'.mem ∧
      h'.bytes s = h.look ((h.content p.early).take n) := by
  have ht₁ := (hst.took_zero (K := b.kept ++ K) hs).after ha.still ha.keeps
  have hall : A' ++ B' ++ p.back ++ p.spare ++ U = p.all ++ U := by
    rw [Parts.all, hst.split]
  have hready : h₁.ready i = h.ready i := by simp [Heap.ready, ha.nodes]
  obtain ⟨h', hnext, hcopy, ht, hs', -, -, hm⟩ := gather_step (i := i) (U := U)
    (K := b.kept ++ K) (n := n) ht₁.rep (hall ▸ hs₁) rfl (by rwa [ha.nodes]) hlen.ge
  have ht : Took h₁ h' _ A' B' p.back p.spare U (b.kept ++ K) P n A' B' :=
    { ht with keeps := ht.keeps.mono (fun _ hi => hi) (fun _ hq => hq) hP }
  have hlook : h₁.look ((h₁.ready i).take n) = h.look ((h.content p.early).take n) := by
    rw [hready, hst.ready_take hle]
    simp only [Heap.look, ha.mem]
  have hw : Writes (·.1 = s.blk) h₁.mem h'.mem := by
    rw [hm]
    exact writes_store.mono fun a ha => (mem_cells.mp ha).1
  refine ⟨_, _, h', hnext, hcopy, by simpa using ht₁.trans ht, hall ▸ hs', ha.mem ▸ hw, ?_⟩
  have hl : s.len = (h.look ((h.content p.early).take n)).length := by
    rw [← hst.ready_take hle]
    simp
    omega
  rw [Heap.bytes, hm, hlook, hl, load_store_self]

theorem readBinaryN_spec (cfg : Config) (hb : Buffer h b p)
    (hs : Safe h (p.all ++ U) (b.kept ++ K) P) (hpos : 0 < n)
    (hn : n ≤ (h.content p.early).length) :
    ∃ s b' h' p' P', b.readBinaryN h cfg n = some (s, b', h') ∧
      ReadPost h h' b b' p p' n U K P P' ∧ Still h h' ∧ Calm h h' p.all ∧ s.len = n ∧ P' s.blk ∧
      (h.owner s.blk = .mcache ∨ ∃ i ∈ p.all, (h.nodes i).origin = none ∧ s = (h.nodes i).front n ∧
        n ≤ (h.nodes i).len) ∧
      b'.kept = b.kept ∧ (p.Sound h → h'.bytes s = h.look ((h.content p.early).take n)) := by
  obtain ⟨A', B', i, hst, -, hsingle⟩ := single_spec (d := -n) hb hs hpos hn
  have hkept := recalLen_kept (b := b) (-n : Int)
  by_cases hle : n ≤ (h.nodes i).len
  · have hi := mem_all_of_head hst.split hst.head
    have hiU : i ∈ p.all ++ U := List.mem_append_left _ hi
    have hiU' : i ∉ U := fun hU => (List.nodup_append.mp hs.nodup).2.2 i hi i hU rfl
    have hfit := hst.fit
    have hcap : 0 < (h.nodes i).buf.cap := by
      have h1 := hfit.off_add hle
      have h2 := hfit.len
      omega
    have hpost := hst.readPost hb hs hpos hn hle
    have hbytes : (h.advance i n).bytes _ = _ := hst.bytes_front hle rfl
    have hnext := Heap.nodeNext_eq (h := h) ((hfit.off_add hle).trans hfit.len)
    by_cases hno : (h.nodes i).readonly = false ∧ (h.nodes i).nocopyRead = true
    · have ho := hs.origin_none hiU hno.1
      have hsp := hpost.post.safe.pin_node (i := i) (hpost.all.symm ▸ hiU)
        ⟨by simp [Heap.advance, ho], by simpa [Heap.advance] using hno.1,
          by simpa [Heap.advance] using hcap⟩
        (by simp [Heap.advance, Node.reusable, hno.2])
      refine ⟨(h.nodes i).front n, _, _, _, _, ?_, hpost.pins hsp fun _ hP => .inl hP,
        ⟨fun _ _ => rfl, rfl, le_rfl, le_rfl⟩, .refl, rfl,
        .inr (by simp [Heap.advance, Node.front]), .inr ⟨i, hi, ho, rfl, hle⟩, hkept,
        fun _ => hbytes⟩
      simp [readBinaryN, hsingle, hle, hno, hnext]
    · by_cases hcfg : (h.nodes i).readonly = false ∧ cfg.alwaysNoCopyRead = true ∧ minReuseBytes ≤ n
      · have ho := hs.origin_none hiU hcfg.1
        have hcomm : (h.mark i).advance i n = (h.advance i n).mark i := by
          simp [Heap.mark, Heap.advance, Heap.set]
        have hnext' : (h.mark i).nodeNext i n =
            some ((h.nodes i).front n, (h.advance i n).mark i) := by
          rw [Heap.nodeNext_eq, hcomm]
          · simp [Heap.mark, Node.front]
          · simpa [Heap.mark] using (hfit.off_add hle).trans hfit.len
        have ht := ((hst.more hle).took (K := b.kept ++ K) hs).mark hiU'
        have hsm := ((hst.more hle).safe hs).mark hiU
        have hsp := hsm.pin_node hiU ⟨by simp [Heap.mark, Heap.advance, ho],
          by simpa [Heap.mark, Heap.advance] using hcfg.1,
          by simpa [Heap.mark, Heap.advance] using hcap⟩
          (by simp [Heap.mark, Heap.advance, Node.reusable])
        rw [← hkept] at hsp
        refine ⟨(h.nodes i).front n, _, _, _, _, ?_, ht.readPost hb hn hpos rfl rfl rfl hsp
          (fun _ hP => .inl hP) (kept_recalLen (d := -n) rfl rfl),
          ⟨fun _ _ => rfl, rfl, le_rfl, le_rfl⟩, .refl, rfl,
          .inr (by simp [Heap.mark, Heap.advance, Node.front]), .inr ⟨i, hi, ho, rfl, hle⟩, hkept,
          fun _ => hbytes⟩
        have hno' : (h.nodes i).nocopyRead = false := by simpa [hcfg.1] using hno
        simp [readBinaryN, hsingle, hle, hcfg, hno', hnext']
      · obtain ⟨s, h₁, hma, hlen, -, ha, hs₂⟩ := hs.dirtmake n n
        obtain ⟨q, h₂, h', hnext', hcopy, ht, hs', hw, hbytes⟩ :=
          copy_alloc hs hst hle ha hlen hs₂ fun _ hx => .inl hx
        rw [← hkept] at hs'
        refine ⟨s, _, h', _, _, ?_, ht.readPost hb hn hpos rfl rfl rfl hs'
          (fun _ hP => .inl hP) (kept_recalLen (d := -n) rfl rfl), ht.still, ha.calm hw, hlen,
          .inr rfl, .inl ha.mcache, hkept, fun _ => hbytes⟩
        have hc1 : (!(h.nodes i).readonly && (h.nodes i).nocopyRead) = false := by
          simpa using hno
        have hc2 : (!(h.nodes i).readonly && cfg.alwaysNoCopyRead && decide (minReuseBytes ≤ n)) =
            false := by
          simp only [Bool.and_eq_false_iff, Bool.not_eq_false', decide_eq_false_iff_not]
          grind
        simp only [readBinaryN, hsingle, hle, decide_true, Option.bind_eq_bind, Option.bind_some,
          if_true, hc1, hc2, hma, hnext', hcopy, Option.pure_def]
        rfl
  · obtain ⟨s, h₁, hma, hlen, -, ha, hs₂⟩ := hs.dirtmake n n
    obtain ⟨A'', B'', read, h', hg, ht, hs', hw, hbytes⟩ :=
      gather_alloc hb hs hn hpos hst ha hlen hs₂ fun _ hx => .inl hx
    rw [← hkept] at hs'
    refine ⟨s, _, h', _, _, ?_, ht.readPost hb hn hpos rfl rfl rfl hs'
      (fun _ hP => .inl hP) (kept_recalLen (d := -n) rfl rfl), ht.still, ha.calm hw, hlen, .inr rfl,
      .inl ha.mcache, hkept, hbytes⟩
    simp [readBinaryN, hsingle, hle, hma, hg]

theorem readByte_spec (hb : Buffer h b p) (hs : Safe h (p.all ++ U) (b.kept ++ K) P)
    (hn : 1 ≤ (h.content p.early).length) :
    ∃ c b' h' p', b.readByte h = some (.ok c, b', h') ∧ ReadPost h h' b b' p p' 1 U K P P ∧
      Still h h' ∧ h'.mem = h.mem ∧ h.look ((h.content p.early).take 1) = [c] := by
  obtain ⟨A', B', i, hst, hle, hloop⟩ := readByteLoop_spec (hb.rep.recalLen (-(1 : Nat)))
    hn (Safe.length_lt (U := U) hs)
  have hpost := hst.readPost hb hs Nat.one_pos hn hle
  have hbytes : (h.advance i 1).bytes _ = _ := hst.bytes_front hle rfl
  have hnext := Heap.nodeNext_eq (h := h) ((hst.fit.off_add hle).trans hst.fit.len)
  have hlen : ¬ b.length < 1 := by simpa using hb.le_length hn
  obtain ⟨a, r, hr⟩ := List.exists_cons_of_length_pos hn
  rw [hnext] at hloop
  have hloop : readByteLoop h (h.fresh + 1) (b.recalLen (-1)).read =
    some ((h.nodes i).front 1, some i, h.advance i 1) := hloop
  have hc : h.look ((h.content p.early).take 1) = [h.mem a.1 a.2] := by
    rw [hr]
    rfl
  have hrb : b.readByte h = some (.ok (h.mem a.1 a.2),
      { b.recalLen (-1) with read := some i }, h.advance i 1) := by
    simp [LinkBuffer.readByte, hlen, hloop, hbytes, hc]
  exact ⟨_, _, _, _, hrb, hpost, ⟨fun _ _ => rfl, rfl, le_rfl, le_rfl⟩, rfl, hc⟩

theorem Heap.freeAll_len (l : List Slice) :
    h.freeAll (l.map fun s => { s with len := 0 }) = h.freeAll l := by
  induction l generalizing h with
  | nil => rfl
  | cons s l ih =>
    have hf : h.free { s with len := 0 } = h.free s := rfl
    simp only [List.map_cons, Heap.freeAll, hf, ih]

theorem kept_some (hq : b.cachePeek = some s) :
    b.kept = b.caches ++ [{ s with len := 0 }] := by
  simp [LinkBuffer.kept, hq]

theorem Heap.free_owner {x : Nat} (hf : h.free s = some h') (hx : h'.owner x = .mcache) :
    x = s.blk ∨ h.owner x = .mcache := by
  simp only [Heap.free] at hf
  split_ifs at hf
  · cases hf
    exact .inr hx
  · cases hf
    exact .inr hx
  · cases hf
    by_cases hxs : x = s.blk
    · exact .inl hxs
    · exact .inr (by simpa [hxs] using hx)

theorem peekCache_spec (hs : Safe h U (b.kept ++ K) P)
    (hpk : ∀ s, b.cachePeek = some s → s.len ≤ s.cap) :
    ∃ s h', b.peekCache h n = some (s, h') ∧ n ≤ s.cap ∧ s.len ≤ s.cap ∧
      Safe h' U ({ s with len := 0 } :: (b.caches ++ K)) P ∧ Keeps h h' U (b.caches ++ K) P ∧
      h'.nodes = h.nodes ∧ h'.mem = h.mem ∧ h'.fresh = h.fresh ∧
      (∀ x, h.owner x = .lent → h'.owner x = .lent) ∧
      ((∃ q ∈ b.kept, q.blk = s.blk) ∨ h.owner s.blk = .mcache) ∧
      (b.cachePeek = some s ∨ s.len = 0) ∧
      ((∀ q, b.cachePeek = some q → n ≤ q.cap) → Still h h' ∧ ∀ q,
        b.cachePeek = some q → q = s) := by
  cases hq : b.cachePeek with
  | none =>
    have hs' : Safe h U (b.caches ++ K) P := by simpa [LinkBuffer.kept, hq] using hs
    obtain ⟨s, h', hma, hlen, hcap, ha, hs''⟩ := hs'.malloc 0 n
    have hs0 : { s with len := 0 } = s := by rw [← hlen]
    exact ⟨s, h', by simp [peekCache, hq, hma], hcap, by omega, hs0 ▸ hs'', ha.keeps, ha.nodes,
      ha.mem, ha.fresh, ha.still.lent, .inr ha.mcache, .inr hlen, fun _ => ⟨ha.still, by simp⟩⟩
  | some q =>
    rw [kept_some hq] at hs
    have hperm : Safe h U ([{ q with len := 0 }] ++ (b.caches ++ K)) P :=
      hs.caches (List.perm_iff_count.mpr fun a => by
        simp only [List.count_append]
        omega).subperm
    by_cases hcap : q.cap < n
    · obtain ⟨owner, freed, hf, hc, hg⟩ := hperm.counted.freeAll
      have hfree : h.free q = some { h with owner := owner, freed := freed } := by
        simpa [Heap.freeAll, show h.free { q with len := 0 } = h.free q from rfl] using hf
      have hs₁ : Safe { h with owner := owner, freed := freed } U (b.caches ++ K) P :=
        hs.of_counted hc hg.lent fun _ _ => rfl
      obtain ⟨s, h', hma, hlen, hcap', ha, hs'⟩ := hs₁.malloc 0 n
      have hs0 : { s with len := 0 } = s := by rw [← hlen]
      have hk : Keeps h { h with owner := owner, freed := freed } U (b.caches ++ K) P :=
        hg.keeps hs fun _ _ => rfl
      refine ⟨s, h', by simp [peekCache, hq, hcap, hfree, hma], hcap', by omega, hs0 ▸ hs',
        hk.trans ha.keeps, ha.nodes, ha.mem, ha.fresh, fun x hx => ha.still.lent x (hg.lent x hx),
        ?_, .inr hlen, fun hle => absurd (hle q rfl) (by omega)⟩
      rcases Heap.free_owner hfree ha.mcache with he | hm
      · exact .inl ⟨{ q with len := 0 }, by simp [kept_some hq], he.symm⟩
      · exact .inr hm
    · exact ⟨q, h, by simp [peekCache, hq, hcap], by omega, hpk q hq, hperm, .refl, rfl, rfl, rfl,
        fun _ => id, .inl ⟨{ q with len := 0 }, by simp [kept_some hq], rfl⟩, .inl rfl,
          fun _ => ⟨.refl, by simp⟩⟩

theorem Heap.bytes_extend {r : List UInt8} (hp : h.bytes s <+: r) (hn : n ≤ r.length) :
    (h.extend s ((r.take n).drop s.len)).bytes { s with len := max n s.len } =
      r.take (max n s.len) := by
  have hs : h.bytes s = r.take s.len := by
    have := List.prefix_iff_eq_take.mp hp
    simpa [Heap.bytes] using this
  by_cases hle : n ≤ s.len
  · rw [List.drop_eq_nil_of_le (by simp; omega)]
    simpa [Heap.extend, Nat.max_eq_right hle] using hs
  · have hlen : ((r.take n).drop s.len).length = n - s.len := by
      simp
      omega
    rw [show max n s.len = s.len + (n - s.len) by omega, Heap.bytes, load_add]
    simp only [Heap.extend]
    rw [load_store_of_disjoint (.inl le_rfl), ← hlen, load_store_self, hlen]
    rw [show load h.mem s.blk s.off s.len = r.take s.len from hs, List.drop_take, ← List.take_add]

inductive Peek (h h' : Heap) (b b' : LinkBuffer) (p : Parts) (n : Nat) (s : Slice) : Prop
  | part (i : Nat) (mem : i ∈ p.all) (eq : s = (h.nodes i).front n) (le : n ≤ (h.nodes i).len)
      (heap : h' = h) (cache : b'.cachePeek = b.cachePeek)
  | cache (q : Slice) (multi : ∃ b₁, b.isSingleNode h n = some (false, b₁))
      (old : b.cachePeek = some q ∨ q.len = 0)
      (same : (∀ q', b.cachePeek = some q' → n ≤ q'.cap) → ∀ q', b.cachePeek = some q' → q' = q)
      (cache : b'.cachePeek = some { q with len := max n q.len }) (eq : s = { q with len := n })
      (writes : Writes (· ∈ Memory.cells q.blk (q.off + q.len) (n - q.len)) h.mem h'.mem)

def Cached (h : Heap) (b : LinkBuffer) (p : Parts) : Prop :=
  ∀ q, b.cachePeek = some q → h.bytes q <+: h.look (h.content p.early)

theorem Peeked.bytes_eq {l : List Addr} {q : Slice} (hp : Peeked h h' q l n)
    (hl : ∀ a ∈ l, a.1 ≠ q.blk) (hn : n ≤ l.length) (hq : h.bytes q <+: h.look l) :
    h'.bytes { q with len := n } = h.look (l.take n) ∧
      h'.bytes { q with len := max n q.len } <+: h'.look l := by
  have hlook : h'.look l = h.look l := hp.writes.look fun a ha hm => hl a ha (mem_cells.mp hm).1
  have hall := Heap.bytes_extend (n := n) hq (by simpa using hn)
  have hh := hp.bytes hl
  rw [Heap.look, Memory.look_drop, Memory.look_take] at hh
  rw [Heap.look, ← hh] at hall
  refine ⟨?_, ?_⟩
  · have htake := congrArg (List.take n) hall
    rw [Heap.bytes, take_load (Nat.le_max_left _ _), List.take_take,
      Nat.min_eq_left (Nat.le_max_left _ _), ← Memory.look_take] at htake
    exact htake
  · rw [hall, hlook]
    exact List.take_prefix _ _

theorem takePeek_spec (hb : Buffer h b p) (hs : Safe h (p.all ++ U) (b.kept ++ K) P)
    (hpos : 0 < n) (hn : n ≤ (h.content p.early).length) :
    ∃ s b' h' p', b.takePeek h n = some (s, b', h') ∧ ReadPost h h' b b' p p' 0 U K P P ∧
      Peek h h' b b' p n s ∧ Writes (Loose h p.all b.kept) h.mem h'.mem ∧
      ((∀ q, b.cachePeek = some q → n ≤ q.cap) → Still h h') ∧
      (p.Sound h → Cached h b p →
        h'.bytes s = h.look ((h.content p.early).take n) ∧ Cached h' b' p') := by
  obtain ⟨A', B', i, hst, -, hsingle⟩ := isSingleNode_spec hb.rep (U := U) hs hn hpos
  have ht := hst.took_zero (K := K) hs
  by_cases hle : n ≤ (h.nodes i).len
  · have hpeek := Heap.nodePeek_eq (h := h) ((hst.fit.off_add hle).trans hst.fit.len)
    refine ⟨(h.nodes i).front n, _, h, _, ?_, ht.post hb (Nat.zero_le _) (by simp) rfl hb.peek hs
      (fun _ hP => hP) fun q hq => .inl ⟨q, hq, rfl⟩,
      .part i (mem_all_of_head hst.split hst.head) rfl hle rfl rfl, .refl, fun _ => .refl,
      fun _ hc => ⟨hst.bytes_front hle rfl, fun q hq => ?_⟩⟩
    · simp only [takePeek, hsingle, hle, hpeek, decide_true, Option.bind_eq_bind, Option.bind_some,
        if_true, Option.pure_def]
    · rw [Parts.early, ht.content, List.drop_zero]
      exact hc q hq
  · obtain ⟨s, h₁, hpc, hcap, hslen, hs₁, hk₁, hnodes, hmem, hfr, hlent, hown, hold, hstill⟩ :=
      peekCache_spec (n := n) hs hb.peek
    have hp₀ := ht.post hb (Nat.zero_le _) (by simp) rfl hb.peek hs (fun _ hP => hP)
      fun q hq => .inl ⟨q, hq, rfl⟩
    have hall : A' ++ B' ++ p.back ++ p.spare = p.all := hp₀.all
    have hrep : Rep h₁ _ _ _ _ _ := ht.rep.of_bare fun k _ => by rw [hnodes]
    obtain ⟨e, hseg⟩ := hrep.seg_early
    have hcont : h₁.content (B' ++ p.back.take 1) = h.content p.early := by
      rw [Heap.content_bare (h := h) fun k _ => by rw [hnodes], ht.content, List.drop_zero,
        Parts.early]
    have hfuel : (B' ++ p.back.take 1).length < h₁.fresh + 1 := by
      have := hs.length_le
      rw [← hall] at this
      simp only [List.length_append, List.length_take] at this ⊢
      omega
    obtain ⟨h', hloop, hpk⟩ := peekLoop_spec (n := n) (Q := []) (p := s) hseg
      (fun k hk => hrep.fit k (by
        have := List.mem_of_mem_take (l := p.back) (i := 1) (a := k)
        simp only [List.mem_append] at hk ⊢
        tauto))
      (by simpa [hcont] using hn) (Nat.zero_le _) hcap hfuel
    obtain ⟨m, rfl⟩ := hpk.nodes
    have hbare : ∀ k, (h₁.nodes k).bare = (h.nodes k).bare := fun k => by rw [hnodes]
    have hloose : ∀ a : Addr, a.1 = s.blk → Loose h p.all b.kept a := by
      intro a ha
      rcases hown with ⟨q, hq, he⟩ | hm
      · exact .inr (.inl ⟨q, hq, he.trans ha.symm⟩)
      · exact .inl (ha ▸ hm)
    have hw := hpk.writes
    rw [hmem] at hw
    have hbuf : Buffer { h₁ with mem := m } _ _ := hp₀.post.buffer.of_bare hlent fun k _ => hbare k
    refine ⟨{ s with len := n },
      { b with read := some i, cachePeek := some { s with len := max n s.len } },
      { h₁ with mem := m }, ⟨A', B', p.back, p.spare⟩, ?_,
      ⟨⟨?_, ?_, ?_, fun _ hP => hP, fun q hq => ?_⟩, ?_, ?_, hall, rfl,
        fun k _ => .of_bare (hbare k), fun k _ => ?_⟩, ?_, hw.mono fun a ha => hloose a ?_,
        fun hle => ?_,
      fun hsd hc => ?_⟩
    · have hpc : { b with read := some i }.peekCache h n = some (s, h₁) := hpc
      simp only [List.length_nil] at hloop
      simp [takePeek, hsingle, hle, hpc, hloop, Slice.upto, hcap]
    · refine { hbuf with rep := hbuf.rep.of_eq rfl rfl rfl rfl, peek := fun q hq => ?_ }
      cases hq
      simp only
      omega
    · rw [Parts.all, hall]
      refine hs₁.store.caches (List.perm_iff_count.mpr fun a => ?_).subperm
      simp only [LinkBuffer.kept, Option.toList_some, List.map_cons, List.map_nil,
        List.count_append, List.count_cons, List.count_nil]
      omega
    · exact (hk₁.mono (fun _ hi => List.mem_append_right _ hi)
        (fun _ hq => List.mem_append_right _ hq) fun _ hx => hx).trans .store
    · simp only [LinkBuffer.kept, Option.toList_some, List.map_cons, List.map_nil, List.mem_append,
        List.mem_singleton] at hq
      rcases hq with hq | rfl
      · exact .inl ⟨q, by simp [LinkBuffer.kept, hq], rfl⟩
      · exact hown
    · exact Eq.trans (Heap.content_bare (h := h) fun k _ => hbare k) hp₀.readable
    · exact Heap.later_bare fun k _ => hbare k
    · simp [Node.SameBuf, hnodes]
    · exact .cache s ⟨_, by rw [hsingle, decide_eq_false hle]⟩ hold (fun hle => (hstill hle).2) rfl
        rfl hw
    · exact (mem_cells.mp ha).1
    · exact (hstill hle).1.trans ⟨fun _ _ => rfl, rfl, le_rfl, le_rfl⟩
    · have hap := hs₁.apart_of_cache (List.mem_cons_self)
      have hne : ∀ a ∈ h.content p.early, a.1 ≠ s.blk := by
        rw [← show h₁.content p.early = h.content p.early from Heap.content_bare fun k _ => hbare k]
        refine Safe.content_ne hap fun k hk => ?_
        obtain ⟨hkU, hsk, hfk⟩ := hb.early_mem (U := U) hsd k hk
        exact ⟨hkU, hk₁.sound k hkU hsk, hnodes ▸ hfk⟩
      have hpre : h₁.bytes s <+: h₁.look (h.content p.early) := by
        simp only [Heap.bytes, Heap.look, hmem]
        rcases hold with hold | hlen
        · exact hc s hold
        · simp [hlen]
      rw [List.nil_append, hcont] at hpk
      obtain ⟨h1, h2⟩ := hpk.bytes_eq hne hn hpre
      refine ⟨h1.trans ?_, fun q hq => ?_⟩
      · simp only [Heap.look, hmem]
      · cases hq
        rw [show Heap.content { h₁ with mem := m } _ = h.content _ from Heap.content_bare
          fun k _ => hbare k, Parts.early, ht.content, List.drop_zero]
        exact h2

theorem indexByte_spec {c : UInt8} {skip : Nat} (hb : Buffer h b p)
    (hs : Safe h (p.all ++ U) (b.kept ++ K) P) :
    b.indexByte h c skip =
      some ((((h.look (h.content p.live)).drop skip).idxOf? c).map (skip + ·)) := by
  by_cases hle : (h.content p.live).length ≤ skip
  · have hnil : (h.look (h.content p.live)).drop skip = [] := List.drop_eq_nil_of_le (by simpa)
    simp [LinkBuffer.indexByte, hb.length, hle, hnil]
  · have hseg := hb.rep.seg_old.2
    obtain ⟨e, hseg, -⟩ := Chain.seg_append.mp hseg
    have hfuel : (p.front ++ p.back).length < h.fresh + 1 := by
      have := hs.length_le
      simp only [Parts.all, List.length_append] at this ⊢
      omega
    have hloop : indexLoop h c _ _ _ skip _ = _ := indexLoop_spec hseg
      (fun k hk => hb.rep.fit k (Parts.mem_all_of_live hk)) rfl le_rfl hfuel
    have hnot : ¬ b.length ≤ skip := by
      rw [hb.length]
      omega
    rw [LinkBuffer.indexByte, if_neg hnot, hb.length, Int.toNat_natCast, Parts.live, hloop]
    simp

end Netpoll.Nocopy
