import Netpoll.Nocopy.Runs

namespace Netpoll.Nocopy

open Netpoll.Lib Netpoll.Lib.Memory Netpoll.Lib.Transition

variable {w w' : World} {l : Layout} {P : Nat → Prop} {b c : LinkBuffer} {i n : Nat} {x : Addr}
  {s : Slice} {m : Int} {cfg : Config} {o : Out} {op : Op} {mem : Nat → Nat → UInt8}
  {picks : Nat → Nat}

theorem Inv.fit (hI : Inv w l P) {k : Nat} (hk : k ∈ l.nodes) : (w.heap.nodes k).Fit := by
  obtain ⟨y, hy, hk⟩ := List.mem_flatMap.mp hk
  exact (hI.buffer y hy).rep.fit k hk

theorem Inv.malloc_loose (hI : Inv w l P)
    (hx : w.exec cfg (.act i (.malloc m)) = some (.bytes s, w')) :
    ∀ x ∈ s.cells, Loose w.heap l.nodes [] x := by
  obtain ⟨b, b', h', hi, hrun, -⟩ := World.exec_act.mp hx
  obtain ⟨⟨s', b₁, h₁⟩, hm, he⟩ := Option.map_eq_some_iff.mp hrun
  cases he
  obtain ⟨p, rest, hF⟩ := hI.focus hi
  intro x hxs
  by_cases h0 : m ≤ 0
  · simp only [LinkBuffer.malloc, if_pos h0, Option.some.injEq, Prod.mk.injEq] at hm
    obtain ⟨rfl, -⟩ := hm
    cases hxs
  · obtain ⟨n, rfl⟩ : ∃ n : Nat, m = n := ⟨m.toNat, by omega⟩
    have hback : p.back ≠ [] := fun he => by
      simp only [LinkBuffer.malloc, if_neg h0, LinkBuffer.growth, (write_none hF.buffer he).1,
        Option.bind_eq_bind, Option.bind_none, reduceCtorEq] at hm
    obtain ⟨s₁, b₁, h₁, p', hma, -, -, -, hloose⟩ :=
      malloc_spec (n := n) hF.buffer hF.safe hF.viewed hback cfg (by omega)
    rw [hma, Option.some.injEq, Prod.mk.injEq] at hm
    obtain ⟨rfl, -⟩ := hm
    exact (hloose x hxs).mono (fun k hk => (Layout.nodes_perm hF.perm).mem_iff.mpr
      (List.mem_append_left _ hk)) fun q hq => hq

theorem Inv.not_lent (hI : Inv w l P) (hx : Loose w.heap l.nodes [] x) :
    w.heap.owner x.1 ≠ .lent := by
  rcases hx with hm | ⟨q, hq, -⟩ | ⟨k, hk, hr, he, -⟩
  · simp [hm]
  · cases hq
  · rw [← he]
    exact (Owner.held_ne (hI.safe.counted.live k (refs_pos_of_mem hk) hr)).2

/-- In every run memory that a user has lent stays the user's: `free` is not called with it, and
`Malloc` does not hand it out. -/
theorem lent_not_recycled (hw : Reach (World.step cfg) World.Simple (World.start mem picks) w)
    (hop : w.Simple op) (hx : w.exec cfg op = some (o, w')) :
    (∀ x, w.heap.owner x = .lent → w'.heap.owner x = .lent) ∧
      (∃ fr, w'.heap.freed = fr ++ w.heap.freed ∧ ∀ x ∈ fr, w.heap.owner x ≠ .lent) ∧
      ∀ i m s, op = .act i (.malloc m) → o = .bytes s → ∀ x ∈ s.cells,
      w.heap.owner x.1 ≠ .lent := by
  obtain ⟨l, hI, hf⟩ := simple_run hw
  obtain ⟨l', P', -, -, -, hM⟩ := simple_step hI hf hop (w.cutsFree_false op) hx
  obtain ⟨fr, hfr, hnot⟩ := hM.later.freed
  refine ⟨hM.later.lent, ⟨fr, hfr, fun x hx hl => hnot x hx (.inl hl)⟩, ?_⟩
  rintro i m s rfl rfl x hxs
  exact hI.not_lent (hI.malloc_loose hx x hxs)

/-- Of two insertions at one place the second cuts the memory of the first, and what is behind the
cut is freed. -/
theorem lent_freed : ∃ w w', World.after (fun w op => w.legal op)
      [.new 1, .act 0 (.malloc 2), .lend [1], .act 0 (.writeDirect ⟨1, 0, 1, 1⟩ 1), .lend [2],
        .act 0 (.writeDirect ⟨2, 0, 1, 1⟩ 1), .act 0 .flush, .act 0 (.skip 4)] = some w ∧
    w.heap.owner 1 = .lent ∧ w.exec .small (.act 0 .release) = some (.done, w') ∧
    w'.heap.freed = [1] ∧ w'.heap.owner 1 = .mcache :=
  ⟨_, _, rfl, rfl, rfl, rfl, rfl⟩

theorem lent_not_recycled_inserted : ∃ w w', World.after World.Simple
      [.new 1, .act 0 (.malloc 2), .lend [1], .act 0 (.writeDirect ⟨1, 0, 1, 1⟩ 1), .act 0 .flush,
        .act 0 (.skip 3)] = some w ∧
    w.Simple (.act 0 .close) ∧ w.exec .small (.act 0 .close) = some (.done, w') ∧
    w.heap.owner 1 = .lent ∧ w'.heap.freed = [0] ∧ w'.heap.owner 1 = .lent := by
  obtain ⟨w, w', hw, hs, hx, hl, hfr⟩ : ∃ w w', World.after World.Simple
        [.new 1, .act 0 (.malloc 2), .lend [1], .act 0 (.writeDirect ⟨1, 0, 1, 1⟩ 1), .act 0 .flush,
          .act 0 (.skip 3)] = some w ∧
      w.Simple (.act 0 .close) ∧ w.exec .small (.act 0 .close) = some (.done, w') ∧
      w.heap.owner 1 = .lent ∧ w'.heap.freed = [0] := ⟨_, _, rfl, by decide, rfl, rfl, rfl⟩
  exact ⟨w, w', hw, hs, hx, hl, hfr, (lent_not_recycled (World.reach_of_after hw) hs hx).1 1 hl⟩

namespace World

def KeepsParts (w : World) : Op → Prop
  | .act i a => ∀ b ∈ w.bufs[i]?, ∀ n ∈ a.acked, 0 < n ∧ b.KeepsParts w.heap n
  | _ => True

instance (w : World) : DecidablePred w.KeepsParts
  | .act i a => inferInstanceAs (Decidable (∀ b ∈ w.bufs[i]?, ∀ n ∈ a.acked, _))
  | .new _ | .lend _ | .slice _ _ | .append _ _ => inferInstanceAs (Decidable True)

/-- A call of any function but `Slice` and `WriteBuffer`. -/
def Acking (w : World) (op : Op) : Prop :=
  w.legal op ∧ op.slices = false ∧ op.appends = false ∧ w.CutsOwn op ∧ w.KeepsParts op

instance (w : World) (op : Op) : Decidable (w.Acking op) := inferInstanceAs (Decidable (_ ∧ _))

end World

theorem World.Acking.careful (hI : Inv w l P) (hf : l.Flushed w.heap) (hw : l.Writers)
    (hop : w.Acking op) : w.Careful op := by
  obtain ⟨-, hsl, -, hcut, hkeep⟩ := hop
  cases op with
  | act i a =>
    intro b hi
    refine ⟨hI.modest hf hi, hcut b hi, fun n hn => ?_⟩
    obtain ⟨hpos, hparts⟩ := hkeep b hi n hn
    exact ⟨fun h0 => by omega, hI.spares hf hi n, hI.unsliced hw b n, hparts⟩
  | slice i m => simp [Op.slices] at hsl
  | new _ | lend _ | append _ _ => trivial

theorem acking_run (hw : Reach (World.step cfg) World.Acking (World.start mem picks) w) :
    ∃ l, Inv w l (fun _ => False) ∧ l.Flushed w.heap ∧ l.Writers :=
  run_inv (I := fun w l => l.Flushed w.heap ∧ l.Writers) hw
    (by simp [Layout.Flushed, Layout.Writers]) (fun hI hi hop => ⟨hop.1, hop.careful hI hi.1 hi.2⟩)
    fun hi hop hM => ⟨hM.flushed hop.2.2.1 hi.1, hM.writers hop.2.1 hi.2⟩

theorem Inv.readable_mem (hI : Inv w l P) (hc : c ∈ w.bufs)
    (hx : x ∈ c.readable w.heap ++ c.pending w.heap) :
    ∃ k ∈ l.nodes, x ∈ w.heap.ready k ++ w.heap.pending k := by
  obtain ⟨j, hj⟩ := List.mem_iff_getElem?.mp hc
  obtain ⟨q, rest, hF⟩ := hI.focus hj
  have hmem : ∀ k ∈ q.all, k ∈ l.nodes :=
    fun k hk => Layout.mem_nodes (List.mem_of_getElem? hF.get) hk
  rw [hF.buffer.readable_eq hF.safe, hF.buffer.pending_eq hF.safe, List.mem_append] at hx
  rcases hx with hx | hx
  · obtain ⟨k, hk, hkx⟩ := List.mem_flatMap.mp hx
    exact ⟨k, hmem k (Parts.mem_all_of_live (Parts.mem_live_of_early hk)),
      List.mem_append_left _ hkx⟩
  · obtain ⟨k, hk, hkx⟩ := List.mem_flatMap.mp hx
    exact ⟨k, hmem k (Parts.mem_all_of_back hk), List.mem_append_right _ hkx⟩

/-- In every run `Malloc` on a buffer that is open hands out memory apart from what can be read and
from what waits for the flush, in all buffers; so to fill it changes neither. -/
theorem malloc_apart (hw : Reach (World.step cfg) World.Acking (World.start mem picks) w)
    (hi : w.bufs[i]? = some b) (hb : b.write ≠ none) (hn : 0 < n) :
    ∃ s w', w.exec cfg (.act i (.malloc n)) = some (.bytes s, w') ∧ s.len = n ∧ ∀ c ∈ w.bufs,
      (∀ x ∈ s.cells, x ∉ c.readable w.heap ++ c.pending w.heap) ∧
      ∀ x ∈ s.cells, ∀ v w'', w'.exec cfg (.act i (.fill x v)) = some (.done, w'') →
        w''.heap.look (c.readable w.heap ++ c.pending w.heap) =
          w.heap.look (c.readable w.heap ++ c.pending w.heap) := by
  obtain ⟨l, hI, -, hwr⟩ := acking_run hw
  obtain ⟨p, rest, hF⟩ := hI.focus hi
  have hback : p.back ≠ [] := fun he => hb (write_none hF.buffer he).1
  obtain ⟨s, b', h', p', hm, -, hmem, hlen, -⟩ :=
    malloc_spec hF.buffer hF.safe hF.viewed hback cfg hn
  have hx : w.exec cfg (.act i (.malloc n)) = some (.bytes s, ⟨h', w.bufs.set i b'⟩) :=
    World.exec_act.mpr ⟨b, b', h', hi, by simp [LinkBuffer.run, hm], rfl⟩
  refine ⟨s, _, hx, hlen, fun c hc => ?_⟩
  have hap : ∀ x ∈ s.cells, x ∉ c.readable w.heap ++ c.pending w.heap := fun x hxs hxc => by
    obtain ⟨k, hk, hkx⟩ := hI.readable_mem hc hxc
    exact hI.safe.not_loose hk (fun r hr => by simp [hI.origin hwr hk] at hr) (hI.fit hk) hkx
      (fun j hj => ⟨hj, hI.fit hj⟩) (fun q hq => by cases hq) (hI.malloc_loose hx x hxs)
  refine ⟨hap, fun x hxs v w'' hfill => ?_⟩
  obtain ⟨b₁, b₂, h₂, -, hrun, rfl⟩ := World.exec_act.mp hfill
  simp only [LinkBuffer.run, Option.some.injEq, Prod.mk.injEq] at hrun
  obtain ⟨-, -, rfl⟩ := hrun
  rw [Heap.look, Heap.look, ← hmem]
  exact look_store_of_notMem (hap x hxs)

/-- `MallocAck` empties the second part of a node that `WriteDirect` has cut, and `Malloc` starts
again at the beginning of its block: that of the first part. -/
theorem malloc_overlaps : ∃ w w' b, World.after (fun w op => w.legal op)
      [.new 1, .act 0 (.malloc 4), .lend [1], .act 0 (.writeDirect ⟨1, 0, 1, 1⟩ 2),
        .act 0 (.mallocAck 2)] = some w ∧
    w.bufs[0]? = some b ∧ b.pending w.heap = [(0, 0), (0, 1)] ∧
    w.exec .small (.act 0 (.malloc 2)) = some (.bytes ⟨0, 0, 2, 2⟩, w') :=
  ⟨_, _, _, rfl, rfl, rfl, rfl⟩

theorem malloc_apart_acked : ∃ w b, World.after World.Acking
      [.new 1, .act 0 (.malloc 4), .lend [1], .act 0 (.writeDirect ⟨1, 0, 1, 1⟩ 2),
        .act 0 (.mallocAck 4)] = some w ∧
    w.bufs[0]? = some b ∧ b.pending w.heap = [(0, 0), (0, 1), (1, 0), (0, 2)] ∧
    ∃ s w', w.exec .small (.act 0 (.malloc 5)) = some (.bytes s, w') ∧
      ∀ x ∈ s.cells, x ∉ b.pending w.heap := by
  obtain ⟨w, b, hw, hi, hp, hb⟩ : ∃ w b, World.after World.Acking
        [.new 1, .act 0 (.malloc 4), .lend [1], .act 0 (.writeDirect ⟨1, 0, 1, 1⟩ 2),
          .act 0 (.mallocAck 4)] = some w ∧
      w.bufs[0]? = some b ∧ b.pending w.heap = [(0, 0), (0, 1), (1, 0), (0, 2)] ∧ b.write ≠ none :=
    ⟨_, _, rfl, rfl, rfl, by decide⟩
  obtain ⟨s, w', hx, -, hap⟩ := malloc_apart (n := 5) (World.reach_of_after hw) hi hb (by decide)
  refine ⟨w, b, hw, hi, hp, s, w', hx, fun x hxs hxb => ?_⟩
  exact (hap b (List.mem_of_getElem? hi)).1 x hxs (List.mem_append_right _ hxb)

end Netpoll.Nocopy
