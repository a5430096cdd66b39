import Netpoll.Nocopy.Refines

namespace Netpoll.Nocopy

open Netpoll.Lib Netpoll.Lib.Memory Netpoll.Lib.Transition

variable {w : World} {l rest rest' : Layout} {P : Nat → Prop} {b c : LinkBuffer} {p q : Parts}
  {i j : Nat} {cfg : Config} {x : Addr} {mem : Nat → Nat → UInt8} {picks : Nat → Nat}

theorem Tidy.not_mcache (hT : Tidy w l P) (hF : Focus w l rest i b p P)
    (hx : x ∈ w.heap.content p.early ++ w.heap.later p.back) : w.heap.owner x.1 ≠ .mcache := by
  intro hmc
  obtain ⟨k, hk, hkx⟩ := Queued.mem_all hx
  obtain ⟨hblk, -, -, hcap⟩ := (hF.buffer.rep.fit k hk).mem_bounds hkx
  have hsound := hT.sound k (Layout.mem_nodes (List.mem_of_getElem? hF.get) hk)
  exact hF.safe.apart_of_mcache hmc k (List.mem_append_left _ hk) hsound hcap hblk.symm

theorem Tidy.apart (hT : Tidy w l P) (hF : Focus w l rest i b p P) (hF' : Focus w l rest' j c q P)
    (hx : x ∈ w.heap.unflushed p.back) (hlent : w.heap.owner x.1 ≠ .lent) :
    x ∉ w.heap.content q.early ∧ (j ≠ i → x ∉ w.heap.later q.back) := by
  obtain ⟨n, hn, hnx⟩ := List.mem_flatMap.mp hx
  have hback : p.back ≠ [] := List.ne_nil_of_mem hn
  have hnp := Parts.mem_all_of_back hn
  by_cases hij : j = i
  · subst hij
    refine ⟨?_, fun hne => absurd rfl hne⟩
    obtain rfl : p = q := by
      have := hF.get.symm.trans hF'.get
      simp only [Option.some.injEq, Prod.mk.injEq] at this
      exact this.2
    have hcount := (hT.queued hF).count_le hback hlent
    have hpos := List.count_pos_iff.mpr (Queued.later_of_unflushed hx)
    exact List.count_eq_zero.mp (by omega)
  · have hq : (c, q) ∈ rest := hF.others hij hF'.get
    have hwritten : Written w.heap p.all b.kept x :=
      .inr ⟨⟨n, hnp, hF.buffer.plain hback n hnp, hnx⟩, hlent⟩
    have hnot : x ∉ w.heap.content q.early ++ w.heap.later q.back := fun hmem => by
      obtain ⟨k, hk, hkx⟩ := Queued.mem_all hmem
      exact hF.safe.not_written (Layout.mem_nodes hq hk)
        (hT.sound k (Layout.mem_nodes (List.mem_of_getElem? hF'.get) hk)) (hF'.buffer.rep.fit k hk)
        hkx (fun k hk => hF.buffer.rep.fit k hk) hwritten
    exact ⟨fun h => hnot (List.mem_append_left _ h), fun _ h => hnot (List.mem_append_right _ h)⟩

/-- In every run no call gives a block back twice, for such a call would fail.  No byte that a
buffer or a reader has, or will have after the next flush, is in a block that has been given back. 
What a buffer has written and not flushed can be read from no buffer or reader and is in no other
buffer, unless it is the memory of a user. -/
theorem memory_safe (hw : Reach (World.step cfg) World.Orderly (World.start mem picks) w) :
    (∀ op, w.Orderly op → (w.exec cfg op).isSome = true) ∧
      (∀ b ∈ w.bufs, ∀ x ∈ b.readable w.heap ++ b.coming w.heap, w.heap.owner x.1 ≠ .mcache) ∧
      ∀ (i j : Nat) (b c : LinkBuffer), w.bufs[i]? = some b → w.bufs[j]? = some c →
        ∀ x ∈ b.pending w.heap, w.heap.owner x.1 ≠ .lent → x ∉ c.readable w.heap ∧
        (j ≠ i → x ∉ c.coming w.heap) := by
  obtain ⟨l, P, hT⟩ := tidy_run hw
  refine ⟨fun op hop => ?_, fun b hb x hx => ?_, fun i j b c hi hj x hx hlent => ?_⟩
  · obtain ⟨o, w', l', P', hx, -⟩ := hT.step cfg hop
    rw [hx]
    rfl
  · obtain ⟨i, hi⟩ := List.mem_iff_getElem?.mp hb
    obtain ⟨p, rest, hF⟩ := hT.inv.focus hi
    rw [LinkBuffer.coming, hF.buffer.readable_eq hF.safe, hF.buffer.back_eq hF.safe] at hx
    exact hT.not_mcache hF hx
  · obtain ⟨p, rest, hF⟩ := hT.inv.focus hi
    obtain ⟨q, rest', hF'⟩ := hT.inv.focus hj
    rw [hF.buffer.pending_eq hF.safe] at hx
    rw [LinkBuffer.coming, hF'.buffer.readable_eq hF'.safe, hF'.buffer.back_eq hF'.safe]
    exact hT.apart hF hF' hx hlent

theorem memory_safe_reader : ∃ w b x, World.after World.Orderly
      [.new 1, .act 0 (.malloc 2), .act 0 .flush, .slice 0 2, .act 0 .close] = some w ∧
    w.bufs[1]? = some b ∧ x ∈ b.readable w.heap ∧ w.heap.owner x.1 ≠ .mcache := by
  obtain ⟨w, b, x, hw, hb, hx⟩ : ∃ w b x, World.after World.Orderly
      [.new 1, .act 0 (.malloc 2), .act 0 .flush, .slice 0 2, .act 0 .close] = some w ∧
      w.bufs[1]? = some b ∧ x ∈ b.readable w.heap :=
    ⟨_, _, (0, 0), rfl, rfl, by decide⟩
  have hlive := (memory_safe (World.reach_of_after hw)).2.1 b (List.mem_of_getElem? hb) x
    (List.mem_append_left _ hx)
  exact ⟨w, b, x, hw, hb, hx, hlive⟩

end Netpoll.Nocopy
