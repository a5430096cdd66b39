import Netpoll.Nocopy.Refines

/-! What the users of the buffers have got from `Next`, while the buffers hold it for them. -/

namespace Netpoll.Nocopy

open Netpoll.Lib Netpoll.Lib.Memory Netpoll.Lib.Staged

variable {w w' : World} {l l' rest : Layout} {P P' : Nat → Prop} {h h' : Heap} {b b' : LinkBuffer}
  {p p' : Parts} {i j k : Nat} {x : Addr} {s : Slice} {a : Act} {c : Call UInt8} {o : Out} {op : Op}

/-- The buffer `i` holds the bytes `s` for its users. -/
def Lease (h : Heap) (l : Layout) (P : Nat → Prop) (i : Nat) (s : Slice) : Prop :=
  ∃ b p, l[i]? = some (b, p) ∧ Leased h b p l.nodes l.kept P s

/-- The block of a node in a chain is not in the pool. -/
theorem Tidy.unpooled (hT : Tidy w l P) (hk : k ∈ l.nodes) (hcap : 0 < (w.heap.nodes k).buf.cap) :
    w.heap.owner (w.heap.nodes k).buf.blk ≠ .mcache :=
  fun hm => hT.inv.safe.apart_of_mcache hm k hk (hT.sound k hk) hcap rfl

theorem Lease.unpooled (hT : Tidy w l P) (hl : Lease w.heap l P i s) (hpos : 0 < s.len) :
    w.heap.owner s.blk ≠ .mcache := by
  obtain ⟨b, p, hx, h0 | hc | ⟨hh, -⟩⟩ := hl
  · omega
  · have hk : s ∈ l.kept := List.mem_flatMap.mpr ⟨_, List.mem_of_getElem? hx, by
      simp [LinkBuffer.kept, hc]⟩
    exact (Owner.held_ne (hT.inv.safe.counted.cache s hk).2.2).1
  · rcases hh with hl | ⟨ho, -⟩
    · simp [hl]
    · exact ho

/-- Nothing is written to a leased slice. -/
theorem Lease.not_written (hT : Tidy w l P) (hl : Lease w.heap l P i s) (hx : x ∈ s.cells) :
    ¬ Written w.heap l.nodes [] x := by
  obtain ⟨b, p, hi, h0 | hc | ⟨hh, -⟩⟩ := hl
  · simp [Slice.cells, h0] at hx
  · have hk : s ∈ l.kept := List.mem_flatMap.mpr ⟨_, List.mem_of_getElem? hi, by
      simp [LinkBuffer.kept, hc]⟩
    have hs : Safe w.heap (l.nodes ++ []) ([] ++ l.kept) P := by simpa using hT.inv.safe
    exact hs.kept_not_written hk (mem_cells.mp hx).1 fun k hk => hT.inv.fit hk
  · exact fun hw => hh.not_written hT.inv hx (hw.mono (fun _ => id) (by simp))

theorem Lease.carry (hT : Tidy w' l' P') (hP : ∀ x, P x → P' x)
    (hlent : ∀ x, h.owner x = .lent → w'.heap.owner x = .lent)
    (hc : ∀ q ∈ l'.kept, (∃ q' ∈ l.kept, q'.blk = q.blk) ∨ h.owner q.blk = .mcache)
    (hg : Grows h w'.heap l.nodes l'.nodes)
    (hr : ∀ b p, l[i]? = some (b, p) → ∃ b' p', l'[i]? = some (b', p') ∧
      Retained h w'.heap b b' p p') (hl : Lease h l P i s) : Lease w'.heap l' P' i s := by
  obtain ⟨b, p, hi, hl⟩ := hl
  obtain ⟨b', p', hi', hR⟩ := hr b p hi
  refine ⟨b', p', hi', hl.imp_right (Or.imp (hR.caches.subset ·) fun ⟨hh, hk⟩ => ?_)⟩
  have hk' : P' s.blk ∨ ∃ k ∈ p'.used, 0 < (w'.heap.nodes k).buf.cap ∧
      (w'.heap.nodes k).buf.blk = s.blk := by
    refine hk.imp (hP _) fun ⟨k, hk, hcap, he⟩ => ?_
    obtain ⟨hk', hlike⟩ := hR.nodes k hk
    exact ⟨k, hk', hlike.cap ▸ hcap, hlike.blk.trans he⟩
  refine ⟨hh.grow hlent hc hg ?_, hk'⟩
  rcases hk' with hpin | ⟨k, hk, hcap, he⟩
  · exact hT.inv.safe.counted.pin _ hpin
  · rw [← he]
    have hkl := Layout.mem_nodes (List.mem_of_getElem? hi') (Parts.mem_all_of_used hk)
    exact hT.unpooled hkl hcap

theorem Lease.step (hT : Tidy w' l' P') (hC : Carried w w' l l' P P' op o) (hack : op.acks = false)
    (hr : w.retains i o op) (hl : Lease w.heap l P i s) : Lease w'.heap l' P' i s :=
  hl.carry hT hC.pins hC.moved.later.lent hC.moved.caches (hC.moved.grows hack)
    fun b p => hC.retained i b p hr

theorem Served.flushed (hF : Focus w l rest i b p P)
    (hS : Served w.heap h' b b' p p' a rest.nodes rest.kept P P' c o) (hf : l.Flushed w.heap) :
    Layout.Flushed h' (l.set i (b', p')) := by
  have hM : Moved w.heap h' l (l.set i (b', p')) P (.act i a) := hS.acted.moved hF ⟨rfl, rfl⟩
  exact hM.flushed rfl hf

theorem Served.lease (hT : Tidy w l P) (hF : Focus w l rest i b p P) (hsp : a.splits = false)
    (hack : a.acks = false) (ha : a.retains)
    (hS : Served w.heap h' b b' p p' a rest.nodes rest.kept P P' c o) (hl : Lease w.heap l P j s) :
    Lease h' (l.set i (b', p')) P' j s := by
  have hM : Moved w.heap h' l (l.set i (b', p')) P (.act i a) := hS.acted.moved hF ⟨rfl, rfl⟩
  have hC := hS.changed hT hF hsp
  refine hl.carry hC.tidy hS.acted.pins hM.later.lent hM.caches (hM.grows hack) fun d q hx => ?_
  by_cases hj : j = i
  · subst hj
    obtain ⟨rfl, rfl⟩ : b = d ∧ p = q := by simpa [hF.get] using hx
    exact ⟨b', p', List.getElem?_set_self (List.getElem?_eq_some_iff.mp hx).1, hS.retained ha⟩
  · obtain ⟨hx', hbare⟩ := hC.others j _ hj hx
    exact ⟨d, q, hx', .of_bare hbare⟩

theorem Served.lease_of_like (hT : Tidy w l P) (hF : Focus w l rest i b p P)
    (hsp : a.splits = false)
    (hS : Served w.heap h' b b' p p a rest.nodes rest.kept P P' c o) (hcs : b'.caches = b.caches)
    (hn : ∀ k, (w.heap.nodes k).Like (h'.nodes k)) (hl : Lease w.heap l P j s) :
    Lease h' (l.set i (b', p)) P' j s := by
  have hM : Moved w.heap h' l (l.set i (b', p)) P (.act i a) := hS.acted.moved hF ⟨rfl, rfl⟩
  have hC := hS.changed hT hF hsp
  have hk : ∀ {k}, k ∈ Layout.nodes (l.set i (b', p)) → k ∈ l.nodes := fun hk =>
    (Layout.nodes_perm hF.perm).mem_iff.mpr ((Layout.nodes_perm (hF.set (b', p))).mem_iff.mp hk)
  refine hl.carry hC.tidy hS.acted.pins hM.later.lent hM.caches
    (.of_like fun k hk' => ⟨hk hk', hn k⟩) fun d q hx => ?_
  by_cases hj : j = i
  · subst hj
    obtain ⟨rfl, rfl⟩ : b = d ∧ p = q := by simpa [hF.get] using hx
    exact ⟨b', p, List.getElem?_set_self (List.getElem?_eq_some_iff.mp hx).1,
      fun k hk => ⟨hk, hn k⟩, hcs ▸ List.prefix_rfl⟩
  · exact ⟨d, q, by rw [List.getElem?_set_ne (Ne.symm hj), hx], fun k hk => ⟨hk, hn k⟩,
      List.prefix_rfl⟩

end Netpoll.Nocopy
