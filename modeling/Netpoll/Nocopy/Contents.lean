import Netpoll.Nocopy.Insert
import Netpoll.Nocopy.Regions

namespace Netpoll.Nocopy

open Netpoll.Lib Netpoll.Lib.Memory Netpoll.Lib.Transition

variable {w w' : World} {l l' rest : Layout} {P : Nat → Prop} {h h' : Heap} {b b' : LinkBuffer}
  {p p' : Parts} {U : List Nat} {K : List Slice} {i j k n : Nat} {s : Slice} {m : Int}
  {cfg : Config} {a : Act} {o : Out} {op : Op} {mem : Nat → Nat → UInt8} {picks : Nat → Nat}

theorem Layout.Idle.flushed (hi : l.Idle h) : l.Flushed h := by
  intro x hx
  refine Heap.content_eq_nil fun k hk => List.eq_nil_of_length_eq_zero ?_
  have := hi x hx k (List.mem_append_left _ hk)
  rw [Heap.length_ready, Node.len]
  omega

theorem discards_tail (hb : Buffer h b p) (hs : Safe h (p.all ++ U) K P) (hj : j ∈ b.discards h n) :
    j ∈ p.back.tail ++ p.spare := by
  rw [LinkBuffer.discards, hb.back_eq hs, hb.spare_eq hs, List.mem_append] at hj
  exact List.mem_append.mpr (hj.imp_left (ackSplit_rest h p.back n j))

theorem Inv.unsliced_of_idle
    (hI : Inv w l P) (hl : l.Idle w.heap) (hi : w.bufs[i]? = some b) (n : Nat) :
    b.Unsliced w.heap w.nodes n := by
  obtain ⟨p, rest, hF⟩ := hI.focus hi
  intro j hj k hk ho
  have h0 := hl (b, p) (List.mem_of_getElem? hF.get) j (discards_tail hF.buffer hF.safe hj)
  rw [hI.nodes_eq] at hk
  have hsl := hI.safe.sliced hk ho
  have h1 := hsl.start
  have h2 := hsl.fits
  have h3 := hsl.pos
  omega

theorem Inv.keepsParts (hI : Inv w l P) (hu : Unsplit w.heap l.nodes) (hi : w.bufs[i]? = some b)
    (n : Nat) :
    b.KeepsParts w.heap n := by
  obtain ⟨p, rest, hF⟩ := hI.focus hi
  have hall : ∀ k ∈ p.all, k ∈ l.nodes :=
    fun k hk => Layout.mem_nodes (List.mem_of_getElem? hF.get) hk
  intro j hj hr k hk _ hv he
  have hjl := hall j (Parts.mem_all_of_tail (discards_tail hF.buffer hF.safe hj))
  have hkl := hall k (hF.buffer.chain_eq hF.safe ▸ hk)
  exact (Owner.held_ne (hI.safe.counted.live j (refs_pos_of_mem hjl) hr)).2 (he ▸ hu k hkl hv)

namespace World

def Trims (w : World) : Op → Prop
  | .act i a => ∀ b ∈ w.bufs[i]?, ∀ n ∈ a.acked, b.Trims w.heap n
  | _ => True

instance (w : World) : DecidablePred w.Trims
  | .act i a => inferInstanceAs (Decidable (∀ b ∈ w.bufs[i]?, ∀ n ∈ a.acked, _))
  | .new _ | .lend _ | .slice _ _ | .append _ _ => inferInstanceAs (Decidable True)

/-- A call of any function but `WriteDirect` and `WriteBuffer`; a `MallocAck(0)` finds nothing
pending in the flush node. -/
def Trimming (w : World) (op : Op) : Prop :=
  w.legal op ∧ op.splits = false ∧ op.appends = false ∧ w.Trims op

instance (w : World) (op : Op) : Decidable (w.Trimming op) := inferInstanceAs (Decidable (_ ∧ _))

end World

theorem Act.cutsOwn_of_splits (ha : a.splits = false) : b.CutsOwn h a.remain := fun hr => by
  cases a <;> simp [Act.remain, Act.splits] at hr ha

theorem World.Trimming.careful (hI : Inv w l P) (hl : l.Idle w.heap) (hu : Unsplit w.heap l.nodes)
    (hop : w.Trimming op) : w.Careful op := by
  obtain ⟨-, hsp, -, htrim⟩ := hop
  cases op with
  | act i a =>
    exact fun b hi => ⟨hI.modest hl.flushed hi, Act.cutsOwn_of_splits hsp, fun n hn =>
      ⟨htrim b hi n hn, hI.spares hl.flushed hi n, hI.unsliced_of_idle hl hi n,
        hI.keepsParts hu hi n⟩⟩
  | slice i m => exact fun b hi => hI.modest hl.flushed hi
  | new _ | lend _ | append _ _ => trivial

theorem trimming_run (hw : Reach (World.step cfg) World.Trimming (World.start mem picks) w) :
    ∃ l, Inv w l (fun _ => False) ∧ l.Idle w.heap ∧ Unsplit w.heap l.nodes :=
  run_inv (I := fun w l => l.Idle w.heap ∧ Unsplit w.heap l.nodes) hw
    (by simp [Layout.Idle, Unsplit, Layout.nodes])
    (fun hI hi hop => ⟨hop.1, hop.careful hI hi.1 hi.2⟩)
    fun hi hop hM => ⟨hM.idle hop.2.2.1 hop.2.1 hi.1, hM.unsplit hop.2.1 hi.2⟩

theorem mallocAck_first {c : Nat} {C : List Nat} (hb : Buffer h b p) (hs : Safe h (p.all ++ U) K P)
    (hback : p.back = c :: C) (hn : n = 0 ∨ n = (h.pending c).length) :
    b.mallocAck h n =
        some (.ok (), { b with mallocSize := n, write := some c }, h.discardAll (C ++ p.spare)) ∧
      c ∉ C ++ p.spare := by
  have hall : p.all = p.old ++ p.front ++ c :: (C ++ p.spare) := by simp [Parts.all, hback]
  have hnd : (c :: (C ++ p.spare)).Nodup :=
    (List.nodup_append.mp (hall ▸ hs.nodup.of_append_left)).2.1
  have hflush : b.flush = some c := by rw [hb.rep.flush, hback]; rfl
  have hseg : Chain.Seg (fun k => (h.nodes k).next) (h.nodes c).next (C ++ p.spare) none := by
    have hseg := hb.rep.seg
    rw [← Parts.all, hall] at hseg
    obtain ⟨-, -, -, hrest⟩ := Chain.seg_append.mp hseg
    exact hrest
  have hdis : LinkBuffer.discard (h.fresh + 1) h (h.nodes c).next =
    some (h.discardAll (C ++ p.spare)) := by
    refine discard_spec hseg (List.nodup_cons.mp hnd).2 ?_
    have := Parts.length_all hs
    rw [hall] at this
    simp only [List.length_append, List.length_cons] at this ⊢
    omega
  refine ⟨?_, (List.nodup_cons.mp hnd).1⟩
  by_cases h0 : n = 0
  · simp [LinkBuffer.mallocAck, LinkBuffer.ackLoop, hflush, hdis, h0]
  · have hlen : n = (h.nodes c).malloc - (h.nodes c).buf.len := by
      simpa [Heap.pending] using hn.resolve_left h0
    have hnode : h.set c { h.nodes c with malloc := n + (h.nodes c).buf.len } = h := by
      rw [show n + (h.nodes c).buf.len = (h.nodes c).malloc by omega]
      exact congrArg (fun f => { h with nodes := f }) (Function.update_eq_self c h.nodes)
    have hloop : LinkBuffer.ackLoop (h.fresh + 1) h b.flush n = some (some c, h) := by
      simp [LinkBuffer.ackLoop, h0, hflush, ← hlen, hnode]
    simp [LinkBuffer.mallocAck, hloop, hdis]

theorem mallocAck_zero {c : Nat} {C : List Nat} (hb : Buffer h b p) (hs : Safe h (p.all ++ U) K P)
    (hback : p.back = c :: C) :
    b.mallocAck h 0 = some (.ok (), { b with mallocSize := 0, write := some c },
      h.discardAll (C ++ p.spare)) ∧ LinkBuffer.pending { b with mallocSize := 0, write := some c }
        (h.discardAll (C ++ p.spare)) = h.pending c := by
  obtain ⟨hma, hc⟩ := mallocAck_first hb hs hback (.inl rfl)
  have hflush : b.flush = some c := by rw [hb.rep.flush, hback]; rfl
  refine ⟨hma, ?_⟩
  simp [LinkBuffer.pending, LinkBuffer.back, LinkBuffer.walk, Chain.walk, hflush, Heap.pending,
    Heap.discardAll_of_notMem hc]

/-- The first `n` bytes that waited for the flush still do, and nothing else; what can be read is
the same, and the flush adds the `n` bytes to it. -/
structure Acked (cfg : Config) (w w' : World) (i : Nat) (b b' : LinkBuffer) (n : Nat) : Prop where
  mem : w'.heap.mem = w.heap.mem
  pending : b'.pending w'.heap = (b.pending w.heap).take n
  mallocSize : b'.mallocSize = n
  readable : b'.readable w'.heap = b.readable w.heap
  length : b'.length = b.length
  flush : ∃ w'' b'', w'.exec cfg (.act i .flush) = some (.done, w'') ∧
    Shows w'' i b'' (b.readable w.heap ++ (b.pending w.heap).take n) [] ∧
    w''.heap.mem = w.heap.mem ∧ b''.length = b'.length + n

theorem Focus.acked (hF : Focus w l rest i b p P) (hi : w.bufs[i]? = some b) (hI : Inv w l P)
    (hf : w.heap.content p.back.tail = [])
    (ha : AckPost w.heap h' b b' p p' n rest.nodes rest.kept P)
    (hn : n ≤ (w.heap.unflushed p.back).length) :
    Acked cfg w ⟨h', w.bufs.set i b'⟩ i b b' n := by
  have hA : Acted w.heap h' b b' p p' (.mallocAck n) rest.nodes rest.kept P P := ha.acted rfl
  have hsh := hA.buffer.shows hA.safe (hA.flushed hf) hi
  have hsh₀ := hF.buffer.shows hF.safe hf hi
  have hR := hF.buffer.readable_eq hF.safe
  have hQ := hF.buffer.pending_eq hF.safe
  obtain ⟨q, rest', hF'⟩ := (hF.update hI hA.buffer hA.safe hA.node hA.later.lent).focus hsh.get
  obtain rfl : q = p' := by
    have := hF'.get
    rw [List.getElem?_set_self (List.getElem?_eq_some_iff.mp hF.get).1] at this
    simpa using this.symm
  obtain ⟨w'', b'', hx, hs, hmem⟩ := hF'.flush cfg hsh.get (hA.flushed hf) ha.back
  have hlen : ((w.heap.unflushed p.back).take n).length = n := by
    rw [List.length_take]
    omega
  rw [ha.readable, ha.pending] at hs hsh
  refine ⟨ha.mem, by rw [hQ]; exact hsh.pending, by rw [hsh.mallocSize, hlen], by
    rw [hR]; exact hsh.readable, hsh.length.trans hsh₀.length.symm, w'', b'',
      hx, by rw [hR, hQ]; exact hs, hmem.trans ha.mem, ?_⟩
  rw [hs.length, hsh.length, List.length_append, hlen]
  rfl

/-- In every run `MallocAck(n)` keeps exactly the first `n` bytes if and only if there are no bytes
in the flush node for it to leave when `n` is zero. -/
theorem mallocAck_exact (hw : Reach (World.step cfg) World.Trimming (World.start mem picks) w)
    (hi : w.bufs[i]? = some b) (hb : b.write ≠ none) (hn : (n : Int) ≤ b.mallocSize) :
    ∃ w' b', w.exec cfg (.act i (.mallocAck n)) = some (.done, w') ∧ w'.bufs[i]? = some b' ∧
      (Acked cfg w w' i b b' n ↔ b.Trims w.heap n) := by
  obtain ⟨l, hI, hl, hu⟩ := trimming_run hw
  obtain ⟨p, rest, hF⟩ := hI.focus hi
  have hback : p.back ≠ [] := fun he => hb (write_none hF.buffer he).1
  have hget : ∀ b', (w.bufs.set i b')[i]? = some b' := fun b' =>
    List.getElem?_set_self (List.getElem?_eq_some_iff.mp hi).1
  by_cases htrim : b.Trims w.heap n
  · obtain ⟨b', h', p', hma, ha⟩ := mallocAck_post hF.buffer hF.safe hF.viewed hback hn
      ⟨htrim, hI.spares hl.flushed hi n, hI.unsliced_of_idle hl hi n, hI.keepsParts hu hi n⟩
      fun k hk => hI.nodes_eq ▸ (Layout.nodes_perm hF.perm).mem_iff.mpr hk
    have hlen : n ≤ (w.heap.unflushed p.back).length := by
      rw [hF.buffer.malloc, Parts.live, hF.buffer.rep.unflushed_live] at hn
      omega
    refine ⟨⟨h', w.bufs.set i b'⟩, b',
      World.exec_act.mpr ⟨b, b', h', hi, by simp [LinkBuffer.run, hma, Out.of], rfl⟩, hget b',
      iff_of_true ?_ htrim⟩
    exact hF.acked hi hI (hl.flushed _ (List.mem_of_getElem? hF.get)) ha hlen
  · -- the flush node keeps what it should lose
    obtain ⟨rfl, c, hc, hne⟩ : n = 0 ∧ ∃ c ∈ (b.back w.heap).head?, w.heap.pending c ≠ [] := by
      simpa [LinkBuffer.Trims] using htrim
    obtain ⟨C, hC⟩ : ∃ C, p.back = c :: C := by
      rw [hF.buffer.back_eq hF.safe, Option.mem_def, List.head?_eq_some_iff] at hc
      exact hc
    obtain ⟨hma, hpend⟩ := mallocAck_zero hF.buffer hF.safe hC
    have hrun : b.run cfg w.heap (.mallocAck (0 : Nat)) = some (.done,
        { b with mallocSize := 0, write := some c }, w.heap.discardAll (C ++ p.spare)) := by
      simp [LinkBuffer.run, hma, Out.of]
    refine ⟨_, _, World.exec_act.mpr ⟨b, _, _, hi, hrun, rfl⟩, hget _,
      iff_of_false (fun hA => hne ?_) htrim⟩
    rw [← hpend]
    exact hA.pending

/-- Bytes of the flush node are still there after `MallocAck(0)`, and become readable. -/
theorem mallocAck_leaves : ∃ w w' w'' b' b'', World.after (fun w op => w.legal op)
      [.new 1, .act 0 (.malloc 4)] = some w ∧
    w.exec .small (.act 0 (.mallocAck 0)) = some (.done, w') ∧ w'.bufs[0]? = some b' ∧
    b'.mallocSize = 0 ∧ b'.pending w'.heap = [(0, 0), (0, 1), (0, 2), (0, 3)] ∧
    w'.exec .small (.act 0 .flush) = some (.done, w'') ∧ w''.bufs[0]? = some b'' ∧
    b'.length = 0 ∧ b''.length = 4 :=
  ⟨_, _, _, _, _, rfl, rfl, rfl, rfl, rfl, rfl, rfl, rfl, rfl⟩

theorem mallocAck_exact_two : ∃ w w' b b', World.after World.Trimming
      [.new 1, .act 0 (.malloc 4), .act 0 .flush, .act 0 (.malloc 3), .act 0 (.malloc 6)] = some w ∧
    w.bufs[0]? = some b ∧ b.mallocSize = 9 ∧ w.exec .small
      (.act 0 (.mallocAck 5)) = some (.done, w') ∧
    w'.bufs[0]? = some b' ∧ Acked .small w w' 0 b b' 5 := by
  obtain ⟨w, b, hw, hi, hb, hn⟩ : ∃ w b, World.after World.Trimming
        [.new 1, .act 0 (.malloc 4), .act 0 .flush, .act 0 (.malloc 3), .act 0 (.malloc 6)] =
        some w ∧
      w.bufs[0]? = some b ∧ b.write ≠ none ∧ b.mallocSize = 9 := ⟨_, _, rfl, rfl, by decide, rfl⟩
  obtain ⟨w', b', hx, hi', hA⟩ :=
    mallocAck_exact (n := 5) (World.reach_of_after hw) hi hb (by omega)
  exact ⟨w, w', b, b', hw, hi, hn, hx, hi', hA.mpr fun h0 => by cases h0⟩

/-- A call of any function but `MallocAck` and `WriteDirect`, and of those that read only with bytes
that have been flushed. -/
def World.Reading (w : World) (op : Op) : Prop :=
  w.legal op ∧ op.acks = false ∧ op.splits = false ∧ w.Careful op

instance (w : World) (op : Op) : Decidable (w.Reading op) := inferInstanceAs (Decidable (_ ∧ _))

theorem reading_run (hw : Reach (World.step cfg) World.Reading (World.start mem picks) w) :
    ∃ l, Inv w l (fun _ => False) ∧ Unsplit w.heap l.nodes :=
  run_inv (I := fun w l => Unsplit w.heap l.nodes) hw (by simp [Unsplit, Layout.nodes])
    (fun _ _ hop => ⟨hop.1, hop.2.2.2⟩) fun hu hop hM => hM.unsplit hop.2.2.1 hu

theorem Safe.alone (hb : Buffer h b p) (hs : Safe h (p.all ++ U) K P) :
    Safe h (p.all ++ []) K P := by
  rw [List.append_nil]
  exact hs.sublist (List.sublist_append_left _ _) hb.owned_all.viewed

theorem Buffer.next_all (hb : Buffer h b p) (hs : Safe h (p.all ++ U) (b.kept ++ K) P)
    (hback : p.back ≠ []) (hf : h.later p.back = []) :
    ∃ s b' h', b.next h b.length = some (.ok s, b', h') ∧ h'.bytes s = h.look
      (h.content p.early) := by
  have hlen : b.length = (h.content p.early).length := by
    have := Heap.length_later (h := h) (C := p.back)
    rw [hf, List.length_nil] at this
    rw [hb.length, Parts.content_live, List.length_append]
    omega
  by_cases h0 : (h.content p.early).length = 0
  · rw [hlen, h0, List.eq_nil_of_length_eq_zero h0]
    exact ⟨.nil, b, h, rfl, rfl⟩
  · obtain ⟨s, b', h', p', P', htake, -, -, -, -, -, hbytes⟩ :=
      takeNext_spec hb hs (by omega) le_rfl
    refine ⟨s, b', h', ?_, ?_⟩
    · simp [LinkBuffer.next, hlen, h0, htake]
    · have hsd : p.Sound h := fun k hk r hr => by
        simp [hb.plain hback k (Parts.mem_all_of_live (Parts.mem_live_of_early hk))] at hr
      rw [hbytes hsd, List.take_length]

theorem Buffer.trims_all (hb : Buffer h b p) (hs : Safe h (p.all ++ U) K P)
    (hn : n = (h.unflushed p.back).length) : b.Trims h n := fun h0 c hc => by
  have hnil : h.unflushed p.back = [] := List.eq_nil_of_length_eq_zero (hn.symm.trans h0)
  rw [hb.back_eq hs] at hc
  exact List.flatMap_eq_nil_iff.mp hnil c (List.mem_of_mem_head? hc)

/-- The flush after `MallocAck(MallocLen())` misses just what the emptied nodes have held. -/
theorem mallocAck_flush_length (hb : Buffer h b p) (hs : Safe h (p.all ++ U) (b.kept ++ K) P)
    (hv : Viewed h U) (hback : p.back ≠ []) (hn : n = (h.unflushed p.back).length)
    (hz : b.Trims h n) (hone : b.Unsliced h (p.all ++ U) n) (hpart : b.KeepsParts h n)
    (cfg : Config) :
    ∃ b₁ h₁ b₂ h₂, b.mallocAck h n = some (.ok (), b₁, h₁) ∧ b₁.doFlush h₁ cfg = some (b₂, h₂) ∧
      (b₂.readable h₂).length + (h.content (ackSplit h p.back n).2).length =
        (h.content p.early ++ h.later p.back).length := by
  rw [LinkBuffer.Trims, hb.back_eq hs] at hz
  rw [LinkBuffer.Unsliced, discards_eq hb hs] at hone
  have hpart := keepsParts_split hb hs hpart
  obtain ⟨M, i, N, m, hst, hsplit, hsum, hma⟩ := mallocAck_stops hb hs hback hn.le hz
  rw [hsplit] at hone hpart ⊢
  have hpost := hst.post hb hs hv hback hn.le hsum hone hpart
  have hv' : Viewed (h.acked i m (N ++ p.spare)) U := hv.kin (fun _ hx => hx) fun k _ => hst.kin k
  obtain ⟨b₂, h₂, p₂, hfl, hf⟩ := doFlush_spec hpost.buffer hpost.safe hv' (by simp) cfg
  obtain ⟨d, hfl⟩ := doFlush_length (b := { b with mallocSize := n, write := some i }) hfl
  refine ⟨_, _, _, _, hma, hfl, ?_⟩
  have hread : LinkBuffer.readable { b₂ with length := d } h₂ = b₂.readable h₂ := rfl
  have hlive := hpost.buffer.length
  have hlater := Heap.length_later (h := h) (C := p.back)
  have hlater' := Heap.length_later (h := h.acked i m (N ++ p.spare)) (C := M ++ [i])
  rw [hread, hf.post.buffer.readable_eq hf.post.safe, hf.readable]
  rw [hst.unflushed hsum, List.length_take] at hlater'
  simp only [hb.length, Parts.content_live, hst.content_early, List.length_append] at hlive ⊢
  omega

/-- In every run `MallocAck(MallocLen())` keeps everything that the flush would make readable if and
only if it empties no node with bytes that have been flushed. -/
theorem mallocAck_all (hw : Reach (World.step cfg) World.Reading (World.start mem picks) w)
    (hi : w.bufs[i]? = some b) (hb : b.write ≠ none) :
    ∃ w₁ b₁ w₂ w₃ b₃, w.exec cfg (.act i .flush) = some (.done, w₁) ∧ w₁.bufs[i]? = some b₁ ∧
      w.exec cfg (.act i (.mallocAck b.mallocSize)) = some (.done, w₂) ∧
      w₂.exec cfg (.act i .flush) = some (.done, w₃) ∧ w₃.bufs[i]? = some b₃ ∧
      (b.Spares w.heap b.mallocSize.toNat ↔
        w₃.heap.look (b₃.readable w₃.heap) = w₁.heap.look (b₁.readable w₁.heap) ∧
        ∃ s w₄, w₃.exec cfg (.act i (.next b₃.length)) = some (.bytes s, w₄) ∧
          w₄.heap.bytes s = w₃.heap.look (b₃.readable w₃.heap)) := by
  obtain ⟨l, hI, hu⟩ := reading_run hw
  obtain ⟨p, rest, hF⟩ := hI.focus hi
  have hback : p.back ≠ [] := fun he => hb (write_none hF.buffer he).1
  have hget : ∀ {bufs : List LinkBuffer} (c : LinkBuffer), bufs.length = w.bufs.length →
      (bufs.set i c)[i]? = some c := fun c hl =>
    List.getElem?_set_self (hl ▸ (List.getElem?_eq_some_iff.mp hi).1)
  have hs : Safe w.heap (p.all ++ []) (b.kept ++ rest.kept) fun _ => False :=
    hF.safe.alone hF.buffer
  obtain ⟨n, hn, hsize⟩ : ∃ n : Nat, b.mallocSize = n ∧ n = (w.heap.unflushed p.back).length :=
    ⟨_, by rw [hF.buffer.malloc, Parts.live, hF.buffer.rep.unflushed_live], rfl⟩
  rw [hn, Int.toNat_natCast]
  have htrim := hF.buffer.trims_all hF.safe hsize
  have hone : b.Unsliced w.heap (p.all ++ []) n := fun j _ k hk => by
    simp [hF.buffer.plain hback k (by simpa using hk)]
  have hnil : ∀ h : Heap, Viewed h [] := fun h k hk => by cases hk
  obtain ⟨b₁, h₁, p₁, hfl₁, hp₁⟩ := doFlush_spec hF.buffer hs (hnil _) hback cfg
  have hrun₁ : w.exec cfg (.act i .flush) = some (.done, ⟨h₁, w.bufs.set i b₁⟩) :=
    World.exec_act.mpr ⟨b, b₁, h₁, hi, by simp [LinkBuffer.run, hfl₁], rfl⟩
  have hread₁ : b₁.readable h₁ = w.heap.content p.early ++ w.heap.later p.back := by
    rw [hp₁.post.buffer.readable_eq hp₁.post.safe, hp₁.readable]
  by_cases hsp : b.Spares w.heap n
  · obtain ⟨b₂, h₂, p₂, hma, ha⟩ := mallocAck_post hF.buffer hs (hnil _) hback
      (Int.le_of_eq hn.symm) ⟨htrim, hsp, hone, hI.keepsParts hu hi n⟩ fun k hk => hk
    obtain ⟨b₃, h₃, p₃, hfl₃, hp₃⟩ := doFlush_spec ha.post.buffer ha.post.safe (hnil _) ha.back cfg
    obtain ⟨s, b₄, h₄, hnext, hbytes⟩ := hp₃.post.buffer.next_all hp₃.post.safe hp₃.back hp₃.later
    have hread₃ := hp₃.post.buffer.readable_eq hp₃.post.safe
    refine ⟨_, b₁, ⟨h₂, w.bufs.set i b₂⟩, ⟨h₃, (w.bufs.set i b₂).set i b₃⟩, b₃, hrun₁, hget b₁ rfl,
      ?_, ?_, hget b₃ (by simp), iff_of_true hsp
        ⟨?_, s, ⟨h₄, ((w.bufs.set i b₂).set i b₃).set i b₄⟩, ?_, ?_⟩⟩
    · exact World.exec_act.mpr ⟨b, b₂, h₂, hi, by simp [LinkBuffer.run, hma, Out.of], rfl⟩
    · exact World.exec_act.mpr ⟨b₂, b₃, h₃, hget b₂ rfl, by simp [LinkBuffer.run, hfl₃], rfl⟩
    · rw [hread₁, hread₃, hp₃.readable, ha.readable, ha.later hsize, Heap.look, Heap.look, hp₃.mem,
        hp₁.mem, ha.mem]
    · exact World.exec_act.mpr ⟨b₃, b₄, h₄,
        hget b₃ (by simp), by simp [LinkBuffer.run, hnext, Out.of], rfl⟩
    · rw [hread₃]
      exact hbytes
  · obtain ⟨b₂, h₂, b₃, h₃, hma, hfl₃, hlen⟩ := mallocAck_flush_length hF.buffer hs (hnil _)
      hback hsize htrim hone (hI.keepsParts hu hi n) cfg
    refine ⟨_, b₁, ⟨h₂, w.bufs.set i b₂⟩, ⟨h₃, (w.bufs.set i b₂).set i b₃⟩, b₃, hrun₁, hget b₁ rfl,
      ?_, ?_, hget b₃ (by simp), iff_of_false hsp fun hkept => hsp ?_⟩
    · exact World.exec_act.mpr ⟨b, b₂, h₂, hi, by simp [LinkBuffer.run, hma, Out.of], rfl⟩
    · exact World.exec_act.mpr ⟨b₂, b₃, h₃, hget b₂ rfl, by simp [LinkBuffer.run, hfl₃], rfl⟩
    · have hshort := congrArg List.length hkept.1
      simp only [Heap.length_look, hread₁] at hshort
      rw [LinkBuffer.Spares, hF.buffer.back_eq hF.safe]
      exact List.eq_nil_of_length_eq_zero (by omega)

/-- Flushed bytes of a buffer that has been appended are dropped if nothing waits for the flush
behind them; they are still counted. -/
theorem mallocAck_drops : ∃ w w₁ w₂ w₃ b b₁ b₃, World.after (fun w op => w.legal op)
      [.new 1, .new 1, .act 1 (.malloc 2), .act 1 .flush, .act 0 (.malloc 1), .append 0 1] =
      some w ∧
    w.bufs[0]? = some b ∧ b.mallocSize = 1 ∧
    w.exec .small (.act 0 .flush) = some (.done, w₁) ∧ w₁.bufs[0]? = some b₁ ∧
    (b₁.readable w₁.heap).length = 3 ∧
    w.exec .small (.act 0 (.mallocAck 1)) = some (.done, w₂) ∧
    w₂.exec .small (.act 0 .flush) = some (.done, w₃) ∧ w₃.bufs[0]? = some b₃ ∧
    (b₃.readable w₃.heap).length = 1 ∧ b₃.length = 3 ∧ w₃.exec .small (.act 0 (.next 3)) = none :=
  ⟨_, _, _, _, _, _, _, rfl, rfl, rfl, rfl, rfl, rfl, rfl, rfl, rfl, rfl, rfl, rfl⟩

theorem mallocAck_all_appended : ∃ w b, World.after World.Reading
      [.new 1, .new 1, .act 1 (.malloc 2), .act 1 .flush, .act 0 (.malloc 1), .append 0 1,
        .act 0 (.malloc 1)] = some w ∧
    w.bufs[0]? = some b ∧ b.mallocSize = 2 ∧
    ∃ w₂ w₃ b₃ s w₄, w.exec .small (.act 0 (.mallocAck 2)) = some (.done, w₂) ∧
      w₂.exec .small (.act 0 .flush) = some (.done, w₃) ∧ w₃.bufs[0]? = some b₃ ∧
      w₃.exec .small (.act 0 (.next b₃.length)) = some (.bytes s, w₄) := by
  obtain ⟨w, b, hw, hi, hb, hn, hsp⟩ : ∃ w b, World.after World.Reading
        [.new 1, .new 1, .act 1 (.malloc 2), .act 1 .flush, .act 0 (.malloc 1), .append 0 1,
          .act 0 (.malloc 1)] = some w ∧
      w.bufs[0]? = some b ∧ b.write ≠ none ∧ b.mallocSize = 2 ∧
      b.Spares w.heap b.mallocSize.toNat :=
    ⟨_, _, rfl, rfl, by decide, rfl, by decide⟩
  obtain ⟨w₁, b₁, w₂, w₃, b₃, -, -, h1, h2, h3, hkept⟩ :=
    mallocAck_all (World.reach_of_after hw) hi hb
  obtain ⟨-, s, w₄, h4, -⟩ := hkept.mp hsp
  exact ⟨w, b, hw, hi, hn, w₂, w₃, b₃, s, w₄, hn ▸ h1, h2, h3, h4⟩

end Netpoll.Nocopy
