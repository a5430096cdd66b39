import Netpoll.Nocopy.Runs

namespace Netpoll.Nocopy

open Netpoll.Lib Netpoll.Lib.Memory Netpoll.Lib.Transition

variable {w : World} {l rest : Layout} {P : Nat → Prop} {h h' : Heap} {b b' : LinkBuffer}
  {p p' : Parts} {U L : List Nat} {K : List Slice} {i j n r : Nat} {x : Addr} {s : Slice}
  {cfg : Config} {mem : Nat → Nat → UInt8} {picks : Nat → Nat}

theorem Safe.lent_of_shared (hs : Safe h U K P) (hi : i ∈ U) (hj : j ∈ U) (hij : i ≠ j)
    (ho : (h.nodes i).origin = none ∧ (h.nodes j).origin = none)
    (hf : (h.nodes i).Fit ∧ (h.nodes j).Fit) (hxi : x ∈ h.ready i ++ h.pending i)
    (hxj : x ∈ h.ready j ++ h.pending j) : h.owner x.1 = .lent := by
  obtain ⟨hbi, hli, hhi, hci⟩ := hf.1.mem_bounds hxi
  obtain ⟨hbj, hlj, hhj, hcj⟩ := hf.2.mem_bounds hxj
  have hgi := hf.1.grown ho.1
  have hgj := hf.2.grown ho.2
  have hblk : (h.nodes i).buf.blk = (h.nodes j).buf.blk := hbi.symm.trans hbj
  by_contra hne
  cases hri : (h.nodes i).readonly with
  | true =>
    have hp := hs.woven.parted i hi j hj hij ⟨ho.1, hri, hci⟩ ho.2 hcj hblk (hbi ▸ hne)
    obtain ⟨h1, h2 | ⟨-, h2⟩⟩ := hp <;> omega
  | false =>
    cases hrj : (h.nodes j).readonly with
    | true =>
      have hp := hs.woven.parted j hj i hi hij.symm ⟨ho.2, hrj, hcj⟩ ho.1 hci hblk.symm (hbj ▸ hne)
      obtain ⟨h1, h2 | ⟨h2, -⟩⟩ := hp
      · omega
      · simp [hri] at h2
    | false =>
      exact hij (hs.counted.distinct i j (refs_pos_of_mem hi) (refs_pos_of_mem hj) ⟨ho.1, hri, hci⟩
        ⟨ho.2, hrj, hcj⟩ hblk)

theorem Node.Fit.nodup (i : Nat) : (h.ready i ++ h.pending i).Nodup := by
  refine List.nodup_append.mpr ⟨nodup_cells, nodup_cells, fun x hx y hy he => ?_⟩
  subst he
  rw [Heap.ready, mem_cells, Node.len] at hx
  rw [Heap.pending, mem_cells] at hy
  omega

theorem Safe.count_whole (hs : Safe h U K P) (hnd : L.Nodup)
    (hL : ∀ k ∈ L, k ∈ U ∧ (h.nodes k).origin = none ∧ (h.nodes k).Fit) (hx : h.owner x.1 ≠ .lent) :
    (h.whole L).count x ≤ 1 := by
  induction L with
  | nil => simp
  | cons k L ih =>
    have ih := ih hnd.of_cons fun j hj => hL j (by simp [hj])
    rw [Heap.whole_cons, List.count_append]
    by_cases hk : x ∈ h.ready k ++ h.pending k
    · have h1 := List.nodup_iff_count_le_one.mp (Node.Fit.nodup (h := h) k) x
      have h0 : (h.whole L).count x = 0 := List.count_eq_zero.mpr fun hm => by
        obtain ⟨j, hj, hxj⟩ := List.mem_flatMap.mp hm
        obtain ⟨hkU, hko, hkf⟩ := hL k (by simp)
        obtain ⟨hjU, hjo, hjf⟩ := hL j (by simp [hj])
        have hkj : k ≠ j := by
          rintro rfl
          exact (List.nodup_cons.mp hnd).1 hj
        exact hx (hs.lent_of_shared hkU hjU hkj ⟨hko, hjo⟩ ⟨hkf, hjf⟩ hk hxj)
      omega
    · have h0 := List.count_eq_zero.mpr hk
      omega

theorem Heap.count_whole :
    (h.whole L).count x = (h.content L).count x + (h.unflushed L).count x := by
  induction L with
  | nil => rfl
  | cons k L ih =>
    simp only [Heap.whole_cons, Heap.content_cons, Heap.unflushed_cons, List.count_append, ih]
    omega

theorem Buffer.count_le (hb : Buffer h b p) (hs : Safe h (p.all ++ U) K P) (hback : p.back ≠ [])
    (hx : h.owner x.1 ≠ .lent) :
    (h.content p.early).count x + (h.unflushed p.back).count x ≤ 1 := by
  have hnd : p.live.Nodup := by
    have := hs.nodup.of_append_left.of_append_left
    rw [Parts.live]
    exact (List.append_assoc p.old _ _ ▸ this).of_append_right
  have hle := hs.count_whole hnd (fun k hk => ⟨List.mem_append_left _ (Parts.mem_all_of_live hk),
    hb.plain hback k (Parts.mem_all_of_live hk), hb.rep.fit k (Parts.mem_all_of_live hk)⟩) hx
  rw [Heap.count_whole, Parts.content_live, List.count_append, Parts.live, hb.rep.unflushed_live]
    at hle
  omega

/-- The `i`-th buffer has the bytes at `R` to be read and those at `Q` to be flushed, and counts
them. -/
structure Shows (w : World) (i : Nat) (b : LinkBuffer) (R Q : List Addr) : Prop where
  get : w.bufs[i]? = some b
  readable : b.readable w.heap = R
  pending : b.pending w.heap = Q
  length : b.length = R.length
  mallocSize : b.mallocSize = Q.length

theorem Buffer.shows (hb : Buffer h' b' p') (hs : Safe h' (p'.all ++ U) K P)
    (hf : h'.content p'.back.tail = []) (hi : w.bufs[i]? = some b) :
    Shows ⟨h', w.bufs.set i b'⟩ i b' (h'.content p'.early) (h'.unflushed p'.back) where
  get := by
    obtain ⟨hlt, -⟩ := List.getElem?_eq_some_iff.mp hi
    exact List.getElem?_set_self hlt
  readable := hb.readable_eq hs
  pending := hb.pending_eq hs
  length := by rw [hb.length, Parts.content_live, hf, List.append_nil]
  mallocSize := by rw [hb.malloc, Parts.live, hb.rep.unflushed_live]

theorem Heap.later_eq_unflushed (hL : h.content L.tail = []) : h.later L = h.unflushed L := by
  cases L with
  | nil => rfl
  | cons c C =>
    rw [Heap.later, Heap.unflushed_cons]
    congr 1
    simp only [Heap.content, List.tail_cons, List.flatMap_eq_nil_iff] at hL
    simp only [Heap.whole, Heap.unflushed, List.flatMap_def]
    rw [List.map_congr_left fun k hk => by rw [hL k hk, List.nil_append]]

section Calls

variable (hF : Focus w l rest i b p P) (hi : w.bufs[i]? = some b)
  (hf : w.heap.content p.back.tail = []) (hback : p.back ≠ [])
include hF hi hf hback

theorem Focus.writeDirect
    (hl : w.heap.owner s.blk = .lent) (hpos : 0 < s.len) (hlen : s.len ≤ s.cap)
    (hr : r ≤ (w.heap.unflushed p.back).length) (hcut : b.CutsOwn w.heap r)
    (hP : b.CutsFree w.heap P r) :
    ∃ w' b', w.exec cfg (.act i (.writeDirect s r)) = some (.done, w') ∧
      Shows w' i b' (w.heap.content p.early)
        ((w.heap.unflushed p.back).take ((w.heap.unflushed p.back).length - r) ++ s.cells ++
          (w.heap.unflushed p.back).drop ((w.heap.unflushed p.back).length - r)) ∧
      w'.heap.mem = w.heap.mem := by
  obtain ⟨b', h', p', hd, hp⟩ := writeDirect_spec hF.buffer hF.safe hback hr
    (fun hpos i ack he => ⟨(hcut (by omega) _ he).1, (hcut (by omega) _ he).2, hP (by omega) _ he⟩)
    cfg hpos hlen hl
  refine ⟨⟨h', w.bufs.set i b'⟩, b',
    World.exec_act.mpr ⟨b, b', h', hi, by simp [LinkBuffer.run, hd], rfl⟩, ?_, hp.mem⟩
  have := hp.buffer.shows hp.safe (hp.content.trans hf) hi
  rwa [hp.readable, hp.pending] at this

theorem Focus.malloc (hn : 0 < n) :
    ∃ s w' b', w.exec cfg (.act i (.malloc n)) = some (.bytes s, w') ∧ s.len = n ∧
      Shows w' i b' (w.heap.content p.early) (w.heap.unflushed p.back ++ s.cells) ∧
      w'.heap.mem = w.heap.mem := by
  obtain ⟨s, b', h', p', hm, hw, hmem, hlen, -⟩ :=
    malloc_spec hF.buffer hF.safe hF.viewed hback cfg hn
  refine ⟨s, ⟨h', w.bufs.set i b'⟩, b',
    World.exec_act.mpr ⟨b, b', h', hi, by simp [LinkBuffer.run, hm], rfl⟩, hlen, ?_, hmem⟩
  have := hw.post.buffer.shows hw.post.safe ((hw.acted (a := .malloc n) (.of_mem hmem)).flushed hf)
    hi
  rwa [hw.readable, hw.pending] at this

variable (cfg) in
theorem Focus.flush : ∃ w' b', w.exec cfg (.act i .flush) = some (.done, w') ∧
    Shows w' i b' (w.heap.content p.early ++ w.heap.unflushed p.back)
      [] ∧ w'.heap.mem = w.heap.mem := by
  obtain ⟨b', h', p', hd, hp⟩ := doFlush_spec hF.buffer hF.safe hF.viewed hback cfg
  refine ⟨⟨h', w.bufs.set i b'⟩, b',
    World.exec_act.mpr ⟨b, b', h', hi, by simp [LinkBuffer.run, hd], rfl⟩, ?_, hp.mem⟩
  have := hp.post.buffer.shows hp.post.safe ((hp.acted (a := .flush)).flushed hf) hi
  rwa [hp.readable, hp.pending, Heap.later_eq_unflushed hf] at this

theorem Focus.fill {k : Nat} {v : UInt8} (hk : (w.heap.unflushed p.back)[k]? = some x)
    (hx : w.heap.owner x.1 ≠ .lent) :
    ∃ w', w.exec cfg (.act i (.fill x v)) = some (.done, w') ∧
      Shows w' i b (w.heap.content p.early) (w.heap.unflushed p.back) ∧
      w'.heap.look (w.heap.unflushed p.back) = (w.heap.look (w.heap.unflushed p.back)).set k v ∧
      w'.heap.look (w.heap.content p.early) = w.heap.look (w.heap.content p.early) := by
  have hc := hF.buffer.count_le hF.safe hback hx
  have hpos := List.count_pos_iff.mpr (List.mem_of_getElem? hk)
  refine ⟨⟨{ w.heap with mem := store w.heap.mem x.1 x.2 [v] }, w.bufs.set i b⟩,
    World.exec_act.mpr ⟨b, b, _, hi, rfl, rfl⟩, ?_, look_store hk (by omega), ?_⟩
  · have hb : Buffer { w.heap with mem := store w.heap.mem x.1 x.2 [v] } b p :=
      hF.buffer.of_bare (fun _ => id) fun _ _ => rfl
    exact hb.shows hF.safe.store hf hi
  · exact look_store_of_notMem (List.count_eq_zero.mp (by omega))

end Calls

/-- In every run a buffer that is open counts what can be read and what waits for the flush;
`WriteDirect` inserts its bytes `remainLen` bytes before the end of what waits, and `Malloc` adds at
the end; a store through a slice of `Malloc` changes the byte at its place, and no other; and the
flush makes all of them readable behind the bytes there were. -/
theorem writeDirect_inserts (hw : Reach (World.step cfg) World.Simple (World.start mem picks) w)
    (hi : w.bufs[i]? = some b) (hb : b.write ≠ none) :
    ∃ R Q, Shows w i b R Q ∧
      (∀ s (r : Nat), w.heap.owner s.blk = .lent → 0 < s.len → s.len ≤ s.cap → r ≤ Q.length →
        b.CutsOwn w.heap r → ∃ w' b', w.exec cfg (.act i (.writeDirect s r)) = some (.done, w') ∧
          Shows w' i b' R (Q.take (Q.length - r) ++ s.cells ++ Q.drop (Q.length - r)) ∧
          w'.heap.mem = w.heap.mem) ∧
      (∀ n : Nat, 0 < n → ∃ s w' b',
        w.exec cfg (.act i (.malloc n)) = some (.bytes s, w') ∧ s.len = n ∧ Shows w' i b' R
          (Q ++ s.cells) ∧ w'.heap.mem = w.heap.mem) ∧
      (∀ k x v, Q[k]? = some x → w.heap.owner x.1 ≠ .lent →
        ∃ w', w.exec cfg (.act i (.fill x v)) = some (.done, w') ∧ Shows w' i b R Q ∧
          w'.heap.look Q = (w.heap.look Q).set k v ∧ w'.heap.look R = w.heap.look R) ∧
      ∃ w' b', w.exec cfg (.act i .flush) = some (.done, w') ∧ Shows w' i b' (R ++ Q) [] ∧
        w'.heap.mem = w.heap.mem := by
  obtain ⟨l, hI, hf⟩ := simple_run hw
  obtain ⟨p, rest, hF⟩ := hI.focus hi
  have hf := hf (b, p) (List.mem_of_getElem? hF.get)
  have hback : p.back ≠ [] := fun he => hb (write_none hF.buffer he).1
  have hset : w.bufs.set i b = w.bufs := by
    obtain ⟨hlt, rfl⟩ := List.getElem?_eq_some_iff.mp hi
    exact List.set_getElem_self hlt
  have hshow := hF.buffer.shows hF.safe hf hi
  rw [hset] at hshow
  exact ⟨w.heap.content p.early, w.heap.unflushed p.back, hshow,
    fun s r hl hpos hlen hr hcut => hF.writeDirect hi hf hback hl hpos hlen hr hcut fun _ _ _ => id,
    fun n hn => hF.malloc hi hf hback hn, fun k x v hk hx => hF.fill hi hf hback hk hx,
    hF.flush cfg hi hf hback⟩

/-- A cut at the end of the first part of a node that has been cut makes a third node with the same
block. When that is released, `Malloc` hands the block out again, over bytes that can still be read.
-/
theorem writeDirect_shares : ∃ w w' b, World.after (fun w op => w.legal op)
      [.new 1, .act 0 (.malloc 4), .act 0 (.fill (0, 2) 3), .act 0 (.fill (0, 3) 4), .lend [7],
        .act 0 (.writeDirect ⟨1, 0, 1, 1⟩ 2), .lend [8], .act 0 (.writeDirect ⟨2, 0, 1, 1⟩ 3),
        .act 0 .flush, .act 0 (.skip 3), .act 0 .release, .act 0 (.malloc 8)] = some w ∧
    w.bufs[0]? = some b ∧ w.legal (.act 0 (.fill (0, 2) 9)) ∧
    w.exec .small (.act 0 (.fill (0, 2) 9)) = some (.done, w') ∧
    w.heap.look (b.readable w.heap) = [7, 3, 4] ∧ w'.heap.look (b.readable w.heap) = [7, 9, 4] :=
  ⟨_, _, _, rfl, rfl, rfl, rfl, rfl, rfl⟩

theorem writeDirect_inserts_middle : ∃ w b w' b', World.after World.Simple
      [.new 1, .act 0 (.malloc 4), .lend [7]] = some w ∧ w.bufs[0]? = some b ∧
    w.exec .small (.act 0 (.writeDirect ⟨1, 0, 1, 1⟩ 2)) = some (.done, w') ∧
    Shows w' 0 b' [] [(0, 0), (0, 1), (1, 0), (0, 2), (0, 3)] := by
  obtain ⟨w, b, hw, hi, hb, hl, hcut, hr, hq⟩ : ∃ w b, World.after World.Simple
        [.new 1, .act 0 (.malloc 4), .lend [7]] = some w ∧ w.bufs[0]? = some b ∧ b.write ≠ none ∧
      w.heap.owner 1 = .lent ∧ b.CutsOwn w.heap 2 ∧ b.readable w.heap = [] ∧
      b.pending w.heap = [(0, 0), (0, 1), (0, 2), (0, 3)] :=
    ⟨_, _, rfl, rfl, by decide, rfl, by decide, rfl, rfl⟩
  obtain ⟨R, Q, hs, hins, -⟩ := writeDirect_inserts (World.reach_of_after hw) hi hb
  rw [hs.readable] at hr
  rw [hs.pending] at hq
  subst hr hq
  obtain ⟨w', b', hx, hs', -⟩ := hins ⟨1, 0, 1, 1⟩ 2 hl (by decide) (by decide) (by decide) hcut
  exact ⟨w, b, w', b', hw, hi, hx, hs'⟩

end Netpoll.Nocopy
