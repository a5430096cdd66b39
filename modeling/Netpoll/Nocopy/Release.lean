import Netpoll.Nocopy.Reader

namespace Netpoll.Nocopy

open Netpoll.Lib Netpoll.Lib.Memory LinkBuffer

variable {h h' : Heap} {b b' : LinkBuffer} {p p' : Parts} {U : List Nat}
  {K : List Slice} {P P' : Nat → Prop} {A B C D : List Nat} {i j k n fuel : Nat} {s : Slice}
  {cfg : Config}

theorem Rep.flush_ne (hr : Rep h b A (i :: B) C D)
    (hs : Safe h (A ++ i :: B ++ C ++ D ++ U) K P) : b.flush ≠ some i := by
  rw [hr.flush]
  intro he
  have hiC : i ∈ C := List.mem_of_mem_head? (Option.mem_def.mpr he)
  have hnd := hs.nodup
  simp only [List.append_assoc, List.cons_append] at hnd
  obtain ⟨-, hnd, -⟩ := List.nodup_append.mp hnd
  exact (List.nodup_cons.mp hnd).1 (by simp [hiC])

theorem Rep.read_head (hr : Rep h b A B C D) : { b with read := (B ++ C).head? } = b := by
  have := hr.read
  cases b
  simp_all

theorem skipRead_spec (hr : Rep h b A B C D) (hs : Safe h (A ++ B ++ C ++ D ++ U) K P)
    (hf : B.length < fuel) :
    ∃ A' B', A' ++ B' = A ++ B ∧ skipRead h b.flush fuel b.read = some (B' ++ C).head? ∧
      Rep h { b with read := (B' ++ C).head? } A' B' C D ∧ h.content B' = h.content B := by
  induction B generalizing b A fuel with
  | nil =>
    obtain ⟨f, rfl⟩ := Nat.exists_eq_add_of_lt hf
    refine ⟨A, [], rfl, ?_, hr.read_head.symm ▸ hr, rfl⟩
    simp [skipRead, hr.read, hr.flush]
  | cons i B ih =>
    obtain ⟨f, rfl, hB⟩ := Chain.steps_of_length_lt hf
    have hi := hr.read_cons
    have hfl := hr.flush_ne hs
    by_cases h0 : (h.nodes i).len = 0
    · obtain ⟨A', B', hsp, hloop, hr', hcont⟩ := ih hr.pass (by simpa using hs) hB
      have hempty : h.ready i = [] := List.eq_nil_of_length_eq_zero (by simpa using h0)
      refine ⟨A', B', by simpa using hsp, ?_, hr', ?_⟩
      · simpa [skipRead, hi, h0, Ne.symm hfl] using hloop
      · simpa [hempty] using hcont
    · refine ⟨A, i :: B, rfl, ?_, hr.read_head.symm ▸ hr, rfl⟩
      simp [skipRead, hi, h0, Ne.symm hfl]

theorem Rep.forget (hr : Rep h b A B C D) : Rep h { b with head := b.read } [] B C D :=
  { hr with
    seg := by simpa using hr.seg_old.2
    fit := fun i hi => hr.fit i (by simp_all) }

theorem Safe.freeKept (hs : Safe h U (b.kept ++ K) P) :
    ∃ owner freed, ((h.freeAll b.caches).bind fun h => h.freeAll b.cachePeek.toList) =
        some { h with owner := owner, freed := freed } ∧
      Safe { h with owner := owner, freed := freed } U K P ∧
      Keeps h { h with owner := owner, freed := freed } U K P := by
  have hc := hs.counted
  rw [LinkBuffer.kept, List.append_assoc] at hc
  obtain ⟨owner, freed, hf, hc₁, hg₁⟩ := hc.freeAll
  obtain ⟨owner', freed', hf', hc₂, hg₂⟩ := hc₁.freeAll
  rw [Heap.freeAll_len] at hf'
  have hg₁ : Given h { h with owner := owner, freed := freed } (refs h U) K P := {
    hg₁ with
    freed := hg₁.freed.imp fun l hl => ⟨hl.1, fun x hx =>
      (hl.2 x hx).imp_right (And.imp_right (And.imp_right fun hK s hs => hK s (by simp [hs])))⟩ }
  have hg := hg₁.trans hg₂ (fun _ => le_rfl) fun _ _ => rfl
  exact ⟨owner', freed', by simp [hf, hf'], hs.of_counted hc₂ hg.lent fun _ _ => rfl,
    hg.keeps hs fun _ _ => rfl⟩

structure Released (h h' : Heap) (b b' : LinkBuffer) (A B C D : List Nat) (U : List Nat)
    (K : List Slice) (P : Nat → Prop) (A' B' : List Nat) : Prop where
  eq : b' = { b with read := b'.read, head := b'.head, caches := [], cachePeek := none }
  rep : Rep h' b' [] B' C D
  safe : Safe h' (B' ++ C ++ D ++ U) K P
  keeps : Keeps h h' (B' ++ C ++ D ++ U) K P
  split : A' ++ B' = A ++ B
  owned : Owned h' (B' ++ C ++ D)
  content : h.content B' = h.content B
  mem : h'.mem = h.mem

theorem release_spec (hr : Rep h b A B C D) (hs : Safe h (A ++ B ++ C ++ D ++ U) (b.kept ++ K) P)
    (ho : Owned h (A ++ B ++ C ++ D)) (hv : Viewed h U) :
    ∃ A' B' b' h', b.release h = some (b', h') ∧ Released h h' b b' A B C D U K P A' B' := by
  obtain ⟨A', B', hsp, hloop, hr', hcont⟩ := skipRead_spec hr hs hs.length_lt
  have hs₁ : Safe h (A' ++ (B' ++ C ++ D) ++ U) (b.kept ++ K) P := by
    rw [← hsp] at hs
    simpa using hs
  have ho₁ : Owned h (A' ++ (B' ++ C ++ D)) := by
    rw [← hsp] at ho
    simpa using ho
  obtain ⟨hseg, hrest⟩ := hr'.seg_old
  have hstop : ∀ i ∈ A', (B' ++ C).head? ≠ some i := by
    intro i hi he
    have hm := List.mem_of_mem_head? (Option.mem_def.mpr he)
    have hnd := hs₁.nodup
    rw [List.append_assoc] at hnd
    refine (List.nodup_append.mp hnd).2.2 i hi i ?_ rfl
    exact List.mem_append_left _ (List.mem_append_left _ hm)
  have hfuel : A'.length < h.fresh + 1 := by
    have := hs₁.length_le
    simp only [List.length_append] at this
    omega
  obtain ⟨h₁, hrel, hs₂, hg, hbare⟩ := hs₁.releaseTo hseg hstop hfuel ho₁ hv
  obtain ⟨owner, freed, hfree, hs₃, hk₂⟩ := hs₂.freeKept
  have hk₁ : Keeps h h₁ (B' ++ C ++ D ++ U) (b.kept ++ K) P :=
    hg.keeps (hs₁.sublist (by simp) (ho₁.right.viewed.append hv)) hbare
  have hkeep := (hk₁.mono (fun _ hi => hi) (fun q hq => List.mem_append_right b.kept hq)
    fun _ hx => hx).trans hk₂
  refine ⟨A', B', { b with
      read := (B' ++ C).head?, head := (B' ++ C).head?, caches := [], cachePeek := none }, _, ?_,
    rfl, (hr'.forget.keeps hkeep fun i hi => ?_).of_eq rfl rfl rfl rfl, hs₃, hkeep, hsp,
    ho₁.right.like hkeep.later.lent fun i hi => .of_bare (hkeep.node i (List.mem_append_left _ hi)),
    hcont, hg.mem⟩
  · obtain ⟨h₂, hf₁, hf₂⟩ := Option.bind_eq_some_iff.mp hfree
    have hrel : h.releaseTo (h.fresh + 1) (B' ++ C).head? b.head = some h₁ := hrel
    simp only [LinkBuffer.release, hloop, Option.bind_eq_bind, Option.bind_some, hrel, hf₁, hf₂,
      Option.pure_def]
  · simp only [List.nil_append, List.mem_append] at hi ⊢
    grind

theorem release_buffer (hb : Buffer h b p) (hs : Safe h (p.all ++ U) (b.kept ++ K) P)
    (hv : Viewed h U) :
    ∃ b' h' p', b.release h = some (b', h') ∧ Post h h' b b' p p' U K P P ∧
      Keeps h h' (p'.all ++ U) K P ∧ b'.kept = [] ∧ h'.mem = h.mem ∧ p'.back = p.back ∧
      (∀ i ∈ p'.all, i ∈ p.all) ∧ h'.content p'.early = h.content p.early ∧
      h'.later p'.back = h.later p.back ∧ p'.spare = p.spare := by
  obtain ⟨A', B', b', h', hrel, hR⟩ := release_spec hb.rep hs hb.owned_all hv
  have hall : (⟨[], B', p.back, p.spare⟩ : Parts).all = B' ++ p.back ++ p.spare := by
    simp [Parts.all]
  have hsub : ∀ i ∈ (⟨[], B', p.back, p.spare⟩ : Parts).all, i ∈ p.all := fun i hi => by
    rw [Parts.all, ← hR.split]
    simp only [hall, List.mem_append] at hi ⊢
    grind
  have hbare : ∀ i ∈ (⟨[], B', p.back, p.spare⟩ : Parts).all,
      (h'.nodes i).bare = (h.nodes i).bare := fun i hi =>
    hR.keeps.node i (List.mem_append_left _ (hall ▸ hi))
  have hkept : b'.kept = [] := by rw [hR.eq]; rfl
  have hback : ∀ i ∈ p.back, (h'.nodes i).bare = (h.nodes i).bare := fun i hi =>
    hbare i (by simp [hall, hi])
  have hfront : h'.content B' = h.content p.front := by
    rw [Heap.content_bare fun i hi => hbare i (by simp [hall, hi]), hR.content]
  refine ⟨b', h', ⟨[], B', p.back, p.spare⟩, hrel, ⟨⟨hR.rep, ?_, ?_, ?_, ?_, ?_, ?_⟩, ?_, ?_,
    fun _ hx => hx, ?_⟩, ?_, hkept, hR.mem, rfl, hsub, ?_, ?_, rfl⟩
  · rw [hR.eq]
    simp only [Parts.live, Heap.content_append, hfront, Heap.content_bare hback]
    rw [← Heap.content_append]
    exact hb.length
  · have hms : b'.mallocSize = b.mallocSize := by rw [hR.eq]
    rw [hms, hb.malloc, Parts.live, Parts.live, hb.rep.unflushed_live, hR.rep.unflushed_live,
      Heap.unflushed_bare hback]
  · have := hb.owned
    rw [← hR.split, List.append_assoc] at this
    exact this.right.like hR.keeps.later.lent fun i hi => .of_bare (hbare i (by
      simp only [hall, List.mem_append] at hi ⊢
      tauto))
  · rw [hall]
    exact hR.owned
  · rw [hR.eq]
    simp
  · intro hback i hi
    rw [(Node.Like.of_bare (hbare i hi)).origin]
    exact hb.plain hback i (hsub i hi)
  · rw [hkept, hall]
    simpa using hR.safe
  · exact hR.keeps.mono (fun i hi => List.mem_append_right _ hi) (fun _ hq => hq) fun _ hx => hx
  · simp [hkept]
  · rw [hall]
    exact hR.keeps
  · simp only [Parts.early, Heap.content_append, hfront]
    rw [Heap.content_bare fun i hi => hback i (List.mem_of_mem_take hi)]
  · exact Heap.later_bare hback

def Parts.none : Parts := ⟨[], [], [], []⟩

theorem Buffer.none (hh : b.head = Option.none) (hr : b.read = Option.none)
    (hf : b.flush = Option.none) (hw : b.write = Option.none) (hl : b.length = 0)
    (hm : b.mallocSize = 0) (hp : ∀ s, b.cachePeek = some s → s.len ≤ s.cap) :
    Buffer h b .none where
  rep := ⟨hh, hr, hf, hw, by simp [Parts.none], by simp [Parts.none], by simp [Parts.none],
    fun _ => rfl⟩
  length := hl
  malloc := hm
  owned := trivial
  owned_all := trivial
  peek := hp
  plain hback := absurd rfl hback

theorem close_spec (hb : Buffer h b p) (hs : Safe h (p.all ++ U) (b.kept ++ K) P)
    (hv : Viewed h U) :
    ∃ b' h', b.close h = some (b', h') ∧ Post h h' b b' p .none U K P P ∧ h'.mem = h.mem ∧
      b'.kept = [] := by
  obtain ⟨A', B', b₁, h₁, hrel, hR⟩ :=
    release_spec (b := { b with length := 0, mallocSize := 0 }) (hb.rep.of_eq rfl rfl rfl rfl) hs
      hb.owned_all hv
  have hs₁ : Safe h₁ ((B' ++ p.back ++ p.spare) ++ [] ++ U) K P := by simpa using hR.safe
  have hfuel : (B' ++ p.back ++ p.spare).length < h₁.fresh + 1 := by
    have := hR.safe.length_le
    simp only [List.length_append] at this ⊢
    omega
  have hv₁ : Viewed h₁ U := hv.like hR.keeps.later.lent fun i hi =>
    .of_bare (hR.keeps.node i (List.mem_append_right _ hi))
  have ho₁ : Owned h₁ (B' ++ p.back ++ p.spare ++ []) := by
    rw [List.append_nil]
    exact hR.owned
  obtain ⟨h₂, hrel₂, hs₂, hg, hbare⟩ := hs₁.releaseTo (by simpa using hR.rep.seg) (by simp) hfuel
    ho₁ hv₁
  have hclose : b.close h = some ({ b₁ with
      head := Option.none, read := Option.none, flush := Option.none, write := Option.none },
        h₂) := by
    simp only [LinkBuffer.close, hrel, hrel₂, Option.bind_eq_bind, Option.bind_some,
      Option.pure_def]
  have hk₂ : Keeps h₁ h₂ U K P :=
    hg.keeps (hR.safe.sublist (List.sublist_append_right _ _) hv₁) hbare
  have hkept : ({ b₁ with
      head := Option.none, read := Option.none, flush := Option.none, write := Option.none } :
      LinkBuffer).kept = [] := by
    rw [hR.eq]
    rfl
  refine ⟨_, h₂, hclose, ⟨.none rfl rfl rfl rfl ?_ ?_ ?_, ?_, ?_, fun _ hx => hx, ?_⟩,
    hg.mem.trans hR.mem, hkept⟩
  · rw [hR.eq]
  · rw [hR.eq]
  · rw [hR.eq]
    simp
  · rw [hkept]
    simpa [Parts.none, Parts.all] using hs₂
  · exact (hR.keeps.mono (fun i hi => List.mem_append_right _ hi) (fun _ hq => hq)
      fun _ hx => hx).trans hk₂
  · simp [hkept]

structure SlicePost (h h' : Heap) (b b' rd : LinkBuffer) (p p' : Parts) (X : List Nat) (n : Nat)
    (U : List Nat) (K : List Slice) (P : Nat → Prop) : Prop where
  buffer : Buffer h' b' p'
  safe : Safe h' (p'.all ++ (X ++ U)) (b'.kept ++ K) P
  keeps : Keeps h h' U K P
  caches : ∀ q ∈ b'.kept, q ∈ b.kept
  readable : h'.content p'.early = (h.content p.early).drop n
  later : h'.later p'.back = h.later p.back
  back : p'.back = p.back
  spare : p'.spare = p.spare
  sameBuf : ∀ i ∈ p'.all, i ∈ p.all ∧ (h.nodes i).SameBuf (h'.nodes i) ∧
    (h.nodes i).Like (h'.nodes i)
  retained : b.single h n → Retained h h' b b' p p'
  mem : h'.mem = h.mem
  reader : Buffer h' rd ⟨[], X, [], []⟩
  content : h'.content X = (h.content p.early).take n
  kept : rd.kept = []
  origin : ∀ k ∈ X, (h'.nodes k).origin ≠ none
  sound : (∀ k ∈ taken h p.early n, Based h k) → ∀ k ∈ X, Sound h' k

def sliceReader (n : Nat) (j : Nat) : LinkBuffer :=
  { length := n, head := some j, read := some j }

theorem Owned.of_origin {L : List Nat} (hL : ∀ i ∈ L, (h.nodes i).origin ≠ none) : Owned h L := by
  induction L with
  | nil => trivial
  | cons i L ih =>
    exact ⟨fun hv => absurd hv.1 (hL i (by simp)), ih fun k hk => hL k (by simp [hk])⟩

theorem Rep.buffer_reader {X : List Nat} (hr : Rep h (sliceReader n j) [] X [] [])
    (hX : (h.content X).length = n) (ho : ∀ i ∈ X, (h.nodes i).origin ≠ none) :
    Buffer h (sliceReader n j) ⟨[], X, [], []⟩ where
  rep := hr
  length := by simp [Parts.live, sliceReader, hX]
  malloc := by
    rw [Parts.live, hr.unflushed_live]
    rfl
  owned := .of_origin (by simpa using ho)
  owned_all := .of_origin (by simpa [Parts.all] using ho)
  peek s hs := by cases hs
  plain hback := absurd rfl hback

theorem Referred.rep {l : List Addr} (hj : Referred h j l) :
    Rep h (sliceReader n j) [] [j] [] [] where
  seg := ⟨rfl, hj.next⟩
  read := rfl
  flush := rfl
  write := rfl
  fit k hk := by
    simp only [List.nil_append, List.append_nil, List.mem_singleton] at hk
    exact hk ▸ hj.fit
  submitted k hk := by
    rw [List.mem_singleton.mp hk]
    exact hj.pending
  spare k hk := by cases hk
  reader _ := rfl

theorem Stop.taken_eq {A' B' : List Nat} {m : Nat}
    (hst : Stop h b p.old p.front p.back p.spare 0 A' B' i 0) :
    taken h (B' ++ p.back.take 1) m = taken h p.early m := by
  have hcont := hst.content
  rw [List.drop_zero, List.drop_zero, Heap.content_append, Heap.content_append,
    List.append_cancel_right_eq] at hcont
  rw [Parts.early]
  rcases List.append_eq_append_iff.mp hst.split with ⟨l, -, hB⟩ | ⟨l, -, hB⟩
  · have hl : h.content l = [] := by simpa [hB] using hcont
    rw [hB, List.append_assoc, taken_of_empty hl]
  · have hl : h.content l = [] := by simpa [hB] using hcont
    rw [hB, List.append_assoc, taken_of_empty hl]

theorem single_recalLen {d : Int} : (b.recalLen d).single h n = b.single h n := by
  by_cases hn : n = 0
  · simp [single, isSingleNode, hn]
  · simp only [single, isSingleNode, if_neg hn, recalLen, Option.bind_eq_bind, Option.pure_def]
    rcases skipEmpty h b.flush (h.fresh + 1) b.read with _ | _ | i <;> rfl

theorem takeSlice_single {A' B' : List Nat} (cfg : Config) (hb : Buffer h b p)
    (hs : Safe h (p.all ++ U) (b.kept ++ K) P) (hpos : 0 < n)
    (hn : n ≤ (h.content p.early).length)
    (hst : Stop h (b.recalLen (-n)) p.old p.front p.back p.spare 0 A' B' i 0)
    (hsingle : (b.recalLen (-n)).isSingleNode h n =
      some (decide (n ≤ (h.nodes i).len), { b.recalLen (-n) with read := some i }))
    (hle : n ≤ (h.nodes i).len) :
    ∃ rd b' h' p' X, b.takeSlice h cfg n = some (rd, b', h') ∧
      SlicePost h h' b b' rd p p' X n U K P := by
  have hs₁ : Safe h (p.all ++ U) ((b.recalLen (-n)).kept ++ K) P := by rwa [recalLen_kept]
  have hall : (⟨A', B', p.back, p.spare⟩ : Parts).all = p.all := by
    simp only [Parts.all, hst.split]
  obtain ⟨j, h', href, ht, hs', hj, hmem, hsd, -⟩ :=
    refer_spec hst.rep (U := U) (hall.symm ▸ hs₁) cfg rfl hpos hle
  have ht' : Took h h' _ p.old p.front p.back p.spare U ((b.recalLen (-n)).kept ++ K) P (0 + n)
      A' B' := (hst.took_zero hs).trans ht
  rw [Nat.zero_add, recalLen_kept] at ht'
  have hX : h'.content [j] = (h.content p.early).take n := by
    rw [← hst.ready_take hle, ← hj.ready]
    simp
  have ho : ∀ k ∈ [j], (h'.nodes k).origin ≠ none := by simpa using hj.origin
  refine ⟨_, _, h', ⟨A', B', p.back, p.spare⟩, [j], ?_, {
    buffer := ht'.buffer hb hn rfl rfl (Slice.len_zero_peek (by omega) rfl)
    safe := hs'
    keeps := ht'.keeps.mono (fun _ hi => hi) (fun _ hq => List.mem_append_right _ hq) fun _ hx => hx
    caches := fun q hq => recalLen_kept (b := b) (-n) ▸ hq
    readable := ht'.content
    later := ht'.later_eq
    back := rfl
    spare := rfl
    sameBuf := fun k hk => by
      rw [hall] at hk
      exact ⟨hk, ht'.sameBuf k hk, ht'.like k hk⟩
    retained := fun _ => ⟨fun k hk => ⟨by rwa [Parts.used, hst.split],
      ht'.like k (Parts.mem_all_of_used hk)⟩, List.prefix_rfl⟩
    mem := hmem
    reader := hj.rep.buffer_reader (n := n) (by rw [hX, List.length_take]; omega) ho
    content := hX
    kept := rfl
    origin := ho
    sound := fun hbased k hk => ?_ }⟩
  · simp [takeSlice, hsingle, hle, href, hj.next, sliceReader]
  · rw [List.mem_singleton.mp hk]
    refine hsd (hbased i ?_)
    obtain ⟨l, hl⟩ := hst.early_cons
    have : (h.nodes i).len ≠ 0 := by omega
    simp [← hst.taken_eq, hl, taken, Nat.ne_of_gt hpos, this]

theorem takeSlice_multi {A' B' : List Nat} (cfg : Config) (hb : Buffer h b p)
    (hs : Safe h (p.all ++ U) (b.kept ++ K) P) (hv : Viewed h U)
    (hn : n ≤ (h.content p.early).length)
    (hst : Stop h (b.recalLen (-n)) p.old p.front p.back p.spare 0 A' B' i 0)
    (hsingle : (b.recalLen (-n)).isSingleNode h n =
      some (decide (n ≤ (h.nodes i).len), { b.recalLen (-n) with read := some i }))
    (hpos : 0 < (h.nodes i).len) (hle : ¬ n ≤ (h.nodes i).len) :
    ∃ rd b' h' p' X, b.takeSlice h cfg n = some (rd, b', h') ∧
      SlicePost h h' b b' rd p p' X n U K P := by
  have hs₁ : Safe h (p.all ++ U) ((b.recalLen (-n)).kept ++ K) P := by rwa [recalLen_kept]
  have hcont : h.content (B' ++ p.back.take 1) = h.content p.early := by
    simpa [Parts.early] using hst.content
  obtain ⟨B'', rfl⟩ : ∃ B'', B' = i :: B'' := by
    cases B' with
    | nil =>
      exfalso
      obtain ⟨i', C', hC', hi', -, hlen⟩ := hst.rep.read_flush (n := n)
        (by rw [List.nil_append] at hcont; rw [hcont]; exact hn) (by omega)
      cases hi'
      exact hle hlen
    | cons x B'' =>
      have := hst.head
      simp only [List.cons_append, List.head?_cons, Option.some.injEq] at this
      exact ⟨B'', by rw [this]⟩
  have hall : (⟨A', i :: B'', p.back, p.spare⟩ : Parts).all = p.all := by
    simp only [Parts.all, hst.split]
  obtain ⟨j, h₁, href, ht, hs', hj, hmem, hsd, hnodes⟩ :=
    refer_spec hst.rep (U := U) (hall.symm ▸ hs₁) cfg rfl hpos le_rfl
  have hempty : h₁.ready i = [] := by
    apply List.eq_nil_of_length_eq_zero
    rw [Heap.length_ready, Node.len_of_bare (hnodes i (by simp)).1]
    simp [Heap.advance, Node.len]
    omega
  have ht₁ := ((hst.took_zero (K := (b.recalLen (-n)).kept ++ K) hs).trans ht).pass hempty
  rw [Nat.zero_add] at ht₁
  have hcont₁ : h₁.content (B'' ++ p.back.take 1) = (h.content p.early).drop (h.nodes i).len := by
    rw [ht₁.content, Parts.early]
  have hfuel : B''.length < h₁.fresh + 1 := by
    have := hs'.length_le
    simp only [List.length_append, List.length_cons] at this
    omega
  have hrd₁ : Chained h₁ (sliceReader n j) ([] ++ [j]) := ⟨hj.rep, by simpa using hj.origin⟩
  obtain ⟨A₂, B₂, X, read, tail, h₂, hloop, ht₂, hrd, hs₂, hX, hmem₂, hsd₂⟩ :=
    sliceLoop_spec (n := n - (h.nodes i).len) (U := U) (K := (b.recalLen (-n)).kept ++ K) (P := P)
      ht₁.rep hrd₁ (by simpa using hs') cfg (by rw [hcont₁, List.length_drop]; omega) (by omega)
      hfuel
  have ht₃ := ht₁.trans ht₂
  rw [show (h.nodes i).len + (n - (h.nodes i).len) = n by omega, recalLen_kept] at ht₃
  have hall₂ : (⟨A₂, B₂, p.back, p.spare⟩ : Parts).all = p.all := by
    simp only [Parts.all, ht₃.split]
  have hb₂ := ht₃.buffer hb hn rfl rfl (Slice.len_zero_peek (by omega) rfl)
  have hs₃ : Safe h₂ ((⟨A₂, B₂, p.back, p.spare⟩ : Parts).all ++ (X ++ [tail] ++ U))
      ((b.recalLen (-n)).kept ++ K) P := by
    rw [Parts.all, ht₂.split]
    exact hs₂
  have hv₃ : Viewed h₂ (X ++ [tail] ++ U) := (Owned.of_origin hrd.origin).viewed.append
    (hv.like ht₃.still.lent fun k hk => .of_bare (ht₃.keeps.node k hk))
  obtain ⟨b', h', p', hrel, hpost, hk', hkept, hmem', hback, hsub, hearly, hlater, hspare⟩ :=
    release_buffer hb₂ hs₃ hv₃
  have hrd' : Chained h' (sliceReader n j) (X ++ [tail]) := hrd.keeps
    (hpost.keeps.mono (fun k hk => List.mem_append_left _ hk) (fun _ hq => hq) fun _ hx => hx)
  have hlast : (h'.nodes tail).next = none := by
    have := hrd'.rep.seg
    simp only [List.nil_append, List.append_nil] at this
    simpa using this.next_eq
  have hX' : h'.content (X ++ [tail]) = (h.content p.early).take n := by
    rw [Heap.content_bare fun k hk => hpost.keeps.node k (List.mem_append_left _ hk), hX, hcont₁]
    have hri : h₁.content ([] ++ [j]) = (h.content p.early).take (h.nodes i).len := by
      simp only [List.nil_append, Heap.content_cons, Heap.content_nil, List.append_nil, hj.ready]
      exact hst.ready_take le_rfl
    rw [hri, ← List.take_add, show (h.nodes i).len + (n - (h.nodes i).len) = n by omega]
  have heq : b.takeSlice h cfg n = some (sliceReader n j, b', h') := by
    simp only [takeSlice, hsingle, hle, decide_false, href, hloop, hrel, hlast,
      Option.bind_eq_bind, Option.bind_some, Option.pure_def]
    rfl
  refine ⟨_, b', h', p', X ++ [tail], heq, {
    buffer := hpost.buffer
    safe := hpost.safe
    keeps := ?_
    caches := by simp [hkept]
    readable := hearly.trans ht₃.content
    later := hlater.trans ht₃.later_eq
    back := hback
    spare := hspare
    sameBuf := fun k hk => ?_
    retained := fun hone => ?_
    mem := hmem'.trans (hmem₂.trans hmem)
    reader := hrd'.rep.buffer_reader (by rw [hX', List.length_take]; omega) hrd'.origin
    content := hX'
    kept := rfl
    origin := hrd'.origin
    sound := fun hbased k hk => ?_ }⟩
  · have hk₁ : Keeps h h₂ U K P :=
      ht₃.keeps.mono (fun _ hk => hk) (fun _ hq => List.mem_append_right _ hq) fun _ hx => hx
    exact hk₁.trans
      (hpost.keeps.mono (fun k hk => List.mem_append_right _ hk) (fun _ hq => hq) fun _ hx => hx)
  · have hk₂ := hall₂ ▸ hsub k hk
    have hbare := hk'.node k (List.mem_append_left _ hk)
    exact ⟨hk₂, (ht₃.sameBuf k hk₂).trans (.of_bare hbare), (ht₃.like k hk₂).trans (.of_bare hbare)⟩
  · rw [← single_recalLen (d := -n), single, hsingle] at hone
    exact absurd (by simpa using hone) hle
  · have hin : ∀ k ∈ B'' ++ p.back.take 1, k ∈ A' ++ i :: B'' ++ p.back ++ p.spare := fun k hk => by
      have := fun hk : k ∈ p.back.take 1 => List.mem_of_mem_take hk
      simp only [List.mem_append, List.mem_cons] at hk ⊢
      grind
    have htaken : taken h p.early n = i ::
      taken h (B'' ++ p.back.take 1) (n - (h.nodes i).len) := by
      rw [← hst.taken_eq, List.cons_append, taken, if_neg (by omega), if_neg (by omega)]
    rw [htaken] at hbased
    refine hpost.keeps.sound k (List.mem_append_left _ hk)
      (hsd₂ (fun k hk => ?_) (fun k hk => ?_) k hk)
    · have hs₀ : Safe h (A' ++ i :: B'' ++ p.back ++ p.spare ++ U) _ P := hall.symm ▸ hs
      rw [taken_advance (Rep.notMem_early hs₀) fun k hk => (hnodes k (hin k hk)).1] at hk
      exact (hnodes k (hin k (mem_of_mem_taken hk))).2 (hbased k (List.mem_cons_of_mem _ hk))
    · rw [show k = j by simpa using hk]
      exact hsd (hbased i List.mem_cons_self)

theorem takeSlice_spec (cfg : Config) (hb : Buffer h b p)
    (hs : Safe h (p.all ++ U) (b.kept ++ K) P) (hv : Viewed h U) (hpos : 0 < n)
    (hn : n ≤ (h.content p.early).length) :
    ∃ rd b' h' p' X, b.takeSlice h cfg n = some (rd, b', h') ∧
      SlicePost h h' b b' rd p p' X n U K P := by
  obtain ⟨A', B', i, hst, hipos, hsingle⟩ := single_spec (d := -n) hb hs hpos hn
  by_cases hle : n ≤ (h.nodes i).len
  · exact takeSlice_single cfg hb hs hpos hn hst hsingle hle
  · exact takeSlice_multi cfg hb hs hv hn hst hsingle hipos hle

end Netpoll.Nocopy
