import Netpoll.Nocopy.Contents

namespace Netpoll.Nocopy

open Netpoll.Lib Netpoll.Lib.Memory Netpoll.Lib.Transition

variable {w w' w₁ : World} {l l' rest : Layout} {P : Nat → Prop} {h h' : Heap}
  {b b' buf buf' : LinkBuffer} {p p' q : Parts} {U : List Nat} {K : List Slice} {i j k n : Nat}
  {s : Slice} {m : Int} {cfg : Config} {o : Out} {op : Op} {ops : List Op} {mem : Nat → Nat → UInt8}
  {picks : Nat → Nat}

namespace LinkBuffer

def coming (b : LinkBuffer) (h : Heap) : List Addr := h.later (b.back h)

/-- The bytes that can be read, and those that can be read after the next flush. -/
def holds (b : LinkBuffer) (h : Heap) : List UInt8 := h.look (b.readable h ++ b.coming h)

end LinkBuffer

theorem Buffer.holds_eq (hb : Buffer h b p) (hs : Safe h (p.all ++ U) K P) :
    b.holds h = h.look (h.content p.early ++ h.later p.back) := by
  rw [LinkBuffer.holds, LinkBuffer.coming, hb.readable_eq hs, hb.back_eq hs]

theorem Buffer.mallocSize_eq (hb : Buffer h b p) : b.mallocSize = (h.unflushed p.back).length := by
  rw [hb.malloc, Parts.live, hb.rep.unflushed_live]

theorem Buffer.length_holds (hb : Buffer h b p) (hs : Safe h (p.all ++ U) K P) :
    b.length + b.mallocSize = (b.holds h).length := by
  have := Heap.length_later (h := h) (C := p.back)
  rw [hb.holds_eq hs, hb.length, hb.malloc, Parts.content_live, Parts.live, hb.rep.unflushed_live]
  simp only [Heap.look, Memory.length_look, List.length_append]
  omega

/-- `WriteBuffer`, `Malloc` and `WriteBinary` on the buffer `i`. -/
def Op.joins (i : Nat) : Op → Bool
  | .append j _ | .act j (.malloc _) | .act j (.writeBinary _) => j == i
  | _ => false

namespace World

def gain (cfg : Config) (w : World) (op : Op) : List UInt8 :=
  match op with
  | .append _ j => (w.bufs[j]?).elim [] (·.holds w.heap)
  | .act _ (.writeBinary s) => w.heap.bytes s
  | _ =>
    match w.exec cfg op with
    | some (.bytes s, w') => w'.heap.bytes s
    | _ => []

def gains (cfg : Config) : World → List Op → List UInt8
  | _, [] => []
  | w, op :: ops => w.gain cfg op ++ (w.step cfg op).elim [] fun w' => w'.gains cfg ops

end World

theorem Op.careful_of_joins (hop : op.joins i) : w.Careful op := by
  have hzero : ∀ {a : Act}, (∀ b : LinkBuffer, b.wants w.heap a = 0) → a.splits = false →
    a.acks = false →
      ∀ b : LinkBuffer, b.Careful w.heap w.nodes a := fun hwant hsp hack b =>
    ⟨by simp [LinkBuffer.Modest, hwant],
      Act.cutsOwn_of_splits hsp, by simp [Act.acked_of_acks hack]⟩
  cases op with
  | act j a =>
    cases a with
    | malloc n => exact fun b _ => hzero (fun _ => rfl) rfl rfl b
    | writeBinary s => exact fun b _ => hzero (fun _ => rfl) rfl rfl b
    | _ => simp [Op.joins] at hop
  | append j k => trivial
  | _ => simp [Op.joins] at hop

theorem Buffer.write_ne_none (hb : Buffer h b p) : b.write ≠ Option.none ↔ p.back ≠ [] := by
  rw [hb.rep.write, ne_eq, List.getLast?_eq_none_iff]

theorem Buffer.holds_calm
    (hb : Buffer h b p) (hs : Safe h (p.all ++ U) (b.kept ++ K) P) (hback : p.back ≠ [])
    (hc : Calm h h' p.all) :
    h'.look (h.content p.early ++ h.later p.back) = h.look
      (h.content p.early ++ h.later p.back) := by
  refine hc.look fun x hx => ?_
  have hwhole : h.content p.early ++ h.later p.back = h.whole p.live := by
    rw [Parts.live, hb.rep.whole_live hback, Parts.early]
  rw [hwhole] at hx
  obtain ⟨k, hk, hkx⟩ := List.mem_flatMap.mp hx
  have hka : k ∈ p.all := Parts.mem_all_of_live hk
  exact hs.not_loose (List.mem_append_left _ hka) (fun r hr => by simp [hb.plain hback k hka] at hr)
    (hb.rep.fit k hka) hkx (fun j hj => ⟨List.mem_append_left _ hj, hb.rep.fit j hj⟩)
    fun q hq => by cases hq

theorem Wrote.holds {l : List Addr} (hb : Buffer h b p) (hs : Safe h (p.all ++ U) (b.kept ++ K) P)
    (hback : p.back ≠ []) (hw : Wrote h h' b b' p p' l U K P) (hc : Calm h h' p.all) :
    b'.holds h' = b.holds h ++ h'.look l := by
  rw [hw.post.buffer.holds_eq hw.post.safe, hb.holds_eq hs, hw.readable,
    hw.later, ← List.append_assoc, Heap.look_append, hb.holds_calm hs hback hc]

theorem AppendPost.holds (hP : Pair w l rest i j b buf p q P)
    (hA : AppendPost w.heap h' b b' buf buf' p q p' rest.nodes rest.kept P) :
    b'.holds h' = b.holds w.heap ++ buf.holds w.heap := by
  have hsb : Safe w.heap (p.all ++ (q.all ++ rest.nodes)) (b.kept ++ buf.kept ++ rest.kept) P := by
    rw [← List.append_assoc]
    exact hP.safe
  have hsq : Safe w.heap (q.all ++ (p.all ++ rest.nodes)) (b.kept ++ buf.kept ++ rest.kept) P :=
    hP.safe.perm (by
      rw [← List.append_assoc]
      exact List.perm_append_comm.append_right _)
  rw [hA.buffer.holds_eq hA.safe, hP.buffer.holds_eq hsb, hP.donor.holds_eq hsq, hA.readable,
    hA.later, ← Heap.look_append, Heap.look, Heap.look, hA.mem, List.append_assoc]

theorem Inv.holds_nil (hI : Inv w l P) (hj : w.bufs[j]? = some buf)
    (h0 : buf.length + buf.mallocSize ≤ 0) :
    buf.holds w.heap = [] := by
  obtain ⟨q, rest, hF⟩ := hI.focus hj
  have := hF.buffer.length_holds hF.safe
  exact List.eq_nil_of_length_eq_zero (by omega)

theorem append_holds (hI : Inv w l P) (hi : w.bufs[i]? = some b) (hb : b.write ≠ none) (hij : i ≠ j)
    (hx : w.exec cfg (.append i j) = some (o, w')) :
    ∃ b', w'.bufs[i]? = some b' ∧ b'.write ≠ none ∧
      b'.holds w'.heap = b.holds w.heap ++ w.gain cfg (.append i j) := by
  simp only [World.exec, hi, Option.bind_eq_bind, Option.bind_some] at hx
  obtain ⟨buf, hj, hx⟩ := Option.bind_eq_some_iff.mp hx
  obtain ⟨⟨b', buf', h'⟩, hwb, hx⟩ := Option.bind_eq_some_iff.mp hx
  simp only [Option.pure_def, Option.some.injEq, Prod.mk.injEq] at hx
  obtain ⟨-, rfl⟩ := hx
  have hget : ((w.bufs.set i b').set j buf')[i]? = some b' := by
    rw [List.getElem?_set_ne hij.symm, List.getElem?_set_self (List.getElem?_eq_some_iff.mp hi).1]
  have hgain : w.gain cfg (.append i j) = buf.holds w.heap := by simp [World.gain, hj]
  by_cases h0 : buf.length + buf.mallocSize ≤ 0
  · simp only [LinkBuffer.writeBuffer, if_pos h0, Option.some.injEq, Prod.mk.injEq] at hwb
    obtain ⟨rfl, rfl, rfl⟩ := hwb
    exact ⟨b, hget, hb, by rw [hgain, hI.holds_nil hj h0, List.append_nil]⟩
  · obtain ⟨p, q, rest, hP⟩ := hI.pair hij hi hj
    obtain ⟨hback, hqb⟩ := hP.back h0 hwb
    obtain ⟨b₁, buf₁, h₁, p', hwb₁, hA⟩ :=
      writeBuffer_spec hP.buffer hP.donor hP.safe hP.viewed hback hqb (Int.not_le.mp h0)
    rw [hwb₁, Option.some.injEq, Prod.mk.injEq, Prod.mk.injEq] at hwb
    obtain ⟨rfl, rfl, rfl⟩ := hwb
    refine ⟨b₁, hget, hA.buffer.write_ne_none.mpr (by simp [hA.parts, hback]), ?_⟩
    rw [hgain, hA.holds hP]

theorem malloc_holds (hI : Inv w l P) (hi : w.bufs[i]? = some b) (hb : b.write ≠ none)
    (hx : w.exec cfg (.act i (.malloc m)) = some (o, w')) :
    ∃ b', w'.bufs[i]? = some b' ∧ b'.write ≠ none ∧
      b'.holds w'.heap = b.holds w.heap ++ w.gain cfg (.act i (.malloc m)) := by
  obtain ⟨b₀, b', h', hi', hrun, rfl⟩ := World.exec_act.mp hx
  obtain rfl : b₀ = b := by simpa [hi] using hi'.symm
  obtain ⟨p, rest, hF⟩ := hI.focus hi
  have hback := hF.buffer.write_ne_none.mp hb
  have hget : (w.bufs.set i b')[i]? = some b' :=
    List.getElem?_set_self (List.getElem?_eq_some_iff.mp hi).1
  obtain ⟨⟨s, b₁, h₁⟩, hr, he⟩ := Option.map_eq_some_iff.mp hrun
  cases he
  have hgain : w.gain cfg (.act i (.malloc m)) = h'.bytes s := by simp only [World.gain, hx]
  rw [hgain]
  by_cases h0 : m ≤ 0
  · simp only [LinkBuffer.malloc, if_pos h0, Option.some.injEq, Prod.mk.injEq] at hr
    obtain ⟨rfl, rfl, rfl⟩ := hr
    exact ⟨_, hget, hb, (List.append_nil _).symm⟩
  · obtain ⟨n, rfl⟩ : ∃ n : Nat, m = n := ⟨m.toNat, by omega⟩
    obtain ⟨s₁, b₁, h₁, p', hma, hw, hmem, -⟩ :=
      malloc_spec (n := n) hF.buffer hF.safe hF.viewed hback cfg (by omega)
    rw [hma, Option.some.injEq, Prod.mk.injEq, Prod.mk.injEq] at hr
    obtain ⟨rfl, rfl, rfl⟩ := hr
    refine ⟨_, hget, hw.post.buffer.write_ne_none.mpr hw.back, ?_⟩
    rw [hw.holds hF.buffer hF.safe hback (.of_mem hmem), ← Heap.bytes_eq]

theorem writeBinary_holds (hI : Inv w l P) (hi : w.bufs[i]? = some b) (hb : b.write ≠ none)
    (hl : w.heap.owner s.blk = .lent ∧ s.len ≤ s.cap)
    (hx : w.exec cfg (.act i (.writeBinary s)) = some (o, w')) :
    ∃ b', w'.bufs[i]? = some b' ∧ b'.write ≠ none ∧
    b'.holds w'.heap = b.holds w.heap ++ w.heap.bytes s := by
  obtain ⟨b₀, b', h', hi', hrun, rfl⟩ := World.exec_act.mp hx
  obtain rfl : b₀ = b := by simpa [hi] using hi'.symm
  obtain ⟨p, rest, hF⟩ := hI.focus hi
  have hback := hF.buffer.write_ne_none.mp hb
  have hget : (w.bufs.set i b')[i]? = some b' :=
    List.getElem?_set_self (List.getElem?_eq_some_iff.mp hi).1
  obtain ⟨⟨n, b₁, h₁⟩, hr, he⟩ := Option.map_eq_some_iff.mp hrun
  cases he
  by_cases h0 : s.len = 0
  · simp only [LinkBuffer.writeBinary, if_pos h0, Option.some.injEq, Prod.mk.injEq] at hr
    obtain ⟨-, rfl, rfl⟩ := hr
    have hnil : w.heap.bytes s = [] :=
      List.eq_nil_of_length_eq_zero (by simpa [Heap.bytes] using h0)
    exact ⟨_, hget, hb, by rw [hnil, List.append_nil]⟩
  · obtain ⟨b₁, h₁, p', L, hwb, hw, hc, hlook⟩ :=
      writeBinary_spec hF.buffer hF.safe hF.viewed hback cfg (by omega) hl.2 hl.1
    rw [hwb, Option.some.injEq, Prod.mk.injEq, Prod.mk.injEq] at hr
    obtain ⟨-, rfl, rfl⟩ := hr
    refine ⟨_, hget, hw.post.buffer.write_ne_none.mpr hw.back, ?_⟩
    rw [hw.holds hF.buffer hF.safe hback hc, hlook]

theorem join_step (hI : Inv w l fun _ => False) (hi : w.bufs[i]? = some b) (hb : b.write ≠ none)
    (hop : op.joins i) (hl : w.legal op) (hs : w.step cfg op = some w') :
    ∃ l' b', Inv w' l' (fun _ => False) ∧ w'.bufs[i]? = some b' ∧ b'.write ≠ none ∧
      b'.holds w'.heap = b.holds w.heap ++ w.gain cfg op := by
  obtain ⟨o, hx⟩ := exec_of_step hs
  obtain ⟨l', P', hI', -, -⟩ := step_inv hI hl (Op.careful_of_joins hop) (w.cutsFree_false op) hx
  refine ⟨l', ?_⟩
  suffices h : ∃ b', w'.bufs[i]? = some b' ∧ b'.write ≠ none ∧
    b'.holds w'.heap = b.holds w.heap ++ w.gain cfg op by
    obtain ⟨b', h1, h2, h3⟩ := h
    exact ⟨b', hI'.unpin fun _ => False.elim, h1, h2, h3⟩
  cases op with
  | append j k =>
    obtain rfl : j = i := by simpa [Op.joins] using hop
    exact append_holds hI hi hb (by simpa [World.legal] using hl) hx
  | act j a =>
    cases a with
    | malloc m =>
      obtain rfl : j = i := by simpa [Op.joins] using hop
      exact malloc_holds hI hi hb hx
    | writeBinary s =>
      obtain rfl : j = i := by simpa [Op.joins] using hop
      exact writeBinary_holds hI hi hb (by simpa [World.legal, hi, LinkBuffer.legal] using hl) hx
    | _ => simp [Op.joins] at hop
  | _ => simp [Op.joins] at hop

theorem joins_run (hI : Inv w l fun _ => False) (hi : w.bufs[i]? = some b) (hb : b.write ≠ none)
    (hops : ∀ op ∈ ops, op.joins i)
    (hr : runs (guarded (World.step cfg) World.legal) w ops = some w₁) :
    ∃ l₁ b₁, Inv w₁ l₁ (fun _ => False) ∧ w₁.bufs[i]? = some b₁ ∧ b₁.write ≠ none ∧
      b₁.holds w₁.heap = b.holds w.heap ++ w.gains cfg ops := by
  induction ops generalizing w l b with
  | nil =>
    cases hr
    exact ⟨l, b, hI, hi, hb, (List.append_nil _).symm⟩
  | cons op ops ih =>
    obtain ⟨w', hs, hr⟩ := Option.bind_eq_some_iff.mp hr
    obtain ⟨hl, hs⟩ := Option.ite_none_right_eq_some.mp hs
    obtain ⟨l', b', hI', hi', hb', hh'⟩ := join_step hI hi hb (hops op (by simp)) hl hs
    obtain ⟨l₁, b₁, hI₁, hi₁, hb₁, hh₁⟩ := ih hI' hi' hb' (fun op hop => hops op (by simp [hop])) hr
    refine ⟨l₁, b₁, hI₁, hi₁, hb₁, ?_⟩
    rw [hh₁, hh', World.gains, hs, Option.elim_some, List.append_assoc]

variable (cfg) in
theorem flush_holds (hI : Inv w l fun _ => False) (hi : w.bufs[i]? = some b) (hb : b.write ≠ none) :
    ∃ w' b', w.exec cfg (.act i .flush) = some (.done, w') ∧ w'.bufs[i]? = some b' ∧
      w'.heap.look (b'.readable w'.heap) = b.holds w.heap ∧ b'.length = (b.holds w.heap).length ∧
      b'.mallocSize = 0 ∧
      ∀ k ∈ b'.chain w'.heap, k ∉ w'.heap.linkedPool ∧ 0 < (w'.heap.nodes k).refer := by
  obtain ⟨p, rest, hF⟩ := hI.focus hi
  obtain ⟨b', h', p', hfl, hp⟩ :=
    doFlush_spec hF.buffer hF.safe hF.viewed (hF.buffer.write_ne_none.mp hb) cfg
  have hlook : h'.look (b'.readable h') = b.holds w.heap := by
    rw [hp.post.buffer.readable_eq hp.post.safe, hF.buffer.holds_eq hF.safe, hp.readable, Heap.look,
      Heap.look, hp.mem]
  have hsize : b'.mallocSize = 0 := by
    rw [hp.post.buffer.malloc, Parts.live, hp.post.buffer.rep.unflushed_live, hp.pending]
    rfl
  refine ⟨⟨h', w.bufs.set i b'⟩, b',
    World.exec_act.mpr ⟨b, b', h', hi, by simp [LinkBuffer.run, hfl], rfl⟩,
    List.getElem?_set_self (List.getElem?_eq_some_iff.mp hi).1, hlook, ?_, hsize, fun k hk => ?_⟩
  · have hcount := hp.post.buffer.length_holds hp.post.safe
    have hcoming : b'.holds h' = h'.look (b'.readable h') := by
      rw [LinkBuffer.holds, LinkBuffer.coming, hp.post.buffer.back_eq hp.post.safe, hp.later,
        List.append_nil]
    rw [hsize, hcoming, hlook] at hcount
    omega
  · rw [hp.post.buffer.chain_eq hp.post.safe] at hk
    have hneed := refs_pos_of_mem (h := h') (List.mem_append_left rest.nodes hk)
    have hrefer := hp.post.safe.counted.refer k hneed
    exact ⟨hp.post.safe.counted.unpooled k hneed, show 0 < (h'.nodes k).refer by omega⟩

theorem append_counts (hI : Inv w l P) (hi : w.bufs[i]? = some b) (hb : b.write ≠ none)
    (hij : i ≠ j) (hj : w.bufs[j]? = some buf)
    (hbuf : buf.write ≠ none ∨ buf.length + buf.mallocSize ≤ 0) :
    ∃ w' b' buf', w.exec cfg (.append i j) = some (.done, w') ∧ w'.bufs[i]? = some b' ∧
      w'.bufs[j]? = some buf' ∧ b'.length = b.length + buf.length ∧
      b'.mallocSize = b.mallocSize + buf.mallocSize ∧ buf'.length = 0 ∧ buf'.mallocSize = 0 ∧
      (0 < buf.length + buf.mallocSize →
        buf'.head = none ∧ buf'.read = none ∧ buf'.flush = none ∧ buf'.write = none) := by
  obtain ⟨p, q, rest, hP⟩ := hI.pair hij hi hj
  have hgeti : ∀ b' buf', ((w.bufs.set i b').set j buf')[i]? = some b' := fun b' buf' => by
    rw [List.getElem?_set_ne hij.symm, List.getElem?_set_self (List.getElem?_eq_some_iff.mp hi).1]
  have hgetj : ∀ b' buf', ((w.bufs.set i b').set j buf')[j]? = some buf' := fun b' buf' =>
    List.getElem?_set_self (by simpa using (List.getElem?_eq_some_iff.mp hj).1)
  have hexec : ∀ {b' buf' h'}, b.writeBuffer buf w.heap = some (b', buf', h') →
      w.exec cfg (.append i j) = some (.done, ⟨h', (w.bufs.set i b').set j buf'⟩) := fun hwb => by
    simp [World.exec, hi, hj, hwb]
  have hlen := hP.donor.length
  have hmal := hP.donor.malloc
  by_cases h0 : buf.length + buf.mallocSize ≤ 0
  · exact ⟨_, b, buf, hexec (by rw [LinkBuffer.writeBuffer, if_pos h0]), hgeti _ _,
      hgetj _ _, by omega, by omega, by omega, by omega, fun hpos => by omega⟩
  · obtain ⟨b', buf', h', p', hwb, hA⟩ := writeBuffer_spec hP.buffer hP.donor hP.safe hP.viewed
      (hP.buffer.write_ne_none.mp hb) (hP.donor.write_ne_none.mp (hbuf.resolve_right h0))
      (Int.not_le.mp h0)
    have hsize : b'.mallocSize = b.mallocSize + buf.mallocSize := by
      rw [hA.buffer.mallocSize_eq, hP.buffer.mallocSize_eq, hP.donor.mallocSize_eq, hA.pending]
      simp
    refine ⟨_, b', buf', hexec hwb, hgeti _ _, hgetj _ _, ?_,
      hsize, by rw [hA.donor], by rw [hA.donor], fun _ => by simp [hA.donor]⟩
    have hsum := congrArg List.length (hA.holds hP)
    obtain ⟨p₀, rest₀, hF⟩ := hI.focus hi
    obtain ⟨q₀, rest₁, hF'⟩ := hI.focus hj
    have h1 := hA.buffer.length_holds hA.safe
    have h2 := hF.buffer.length_holds hF.safe
    have h3 := hF'.buffer.length_holds hF'.safe
    rw [List.length_append] at hsum
    omega

/-- In every run a series of `WriteBuffer`, `Malloc` and `WriteBinary` on a buffer that is open
adds, in order, all that the other buffers hold and the bytes reserved and written; the flush makes
everything readable, and counts it. -/
theorem writeBuffer_concat (hw : Reach (World.step cfg) (fun w op => w.legal op ∧ w.Careful op)
      (World.start mem picks) w) (hi : w.bufs[i]? = some b) (hb : b.write ≠ none) :
    (∀ j buf, i ≠ j → w.bufs[j]? = some buf → (buf.write ≠ none ∨ buf.length + buf.mallocSize ≤ 0) →
      ∃ w' b' buf', w.exec cfg (.append i j) = some (.done, w') ∧ w'.bufs[i]? = some b' ∧
        w'.bufs[j]? = some buf' ∧ b'.length = b.length + buf.length ∧
        b'.mallocSize = b.mallocSize + buf.mallocSize ∧ buf'.length = 0 ∧ buf'.mallocSize = 0 ∧
        (0 < buf.length + buf.mallocSize →
          buf'.head = none ∧ buf'.read = none ∧ buf'.flush = none ∧ buf'.write = none)) ∧
      ∀ ops w₁, (∀ op ∈ ops, op.joins i) → runs
        (guarded (World.step cfg) World.legal) w ops = some w₁ → ∃ b₁ w₂ b₂, w₁.bufs[i]? = some b₁ ∧
          b₁.length + b₁.mallocSize = (b.holds w.heap ++ w.gains cfg ops).length ∧
          w₁.exec cfg (.act i .flush) = some (.done, w₂) ∧ w₂.bufs[i]? = some b₂ ∧
          w₂.heap.look (b₂.readable w₂.heap) = b.holds w.heap ++ w.gains cfg ops ∧
          b₂.length = (b.holds w.heap ++ w.gains cfg ops).length ∧ b₂.mallocSize = 0 ∧
          ∀ k ∈ b₂.chain w₂.heap, k ∉ w₂.heap.linkedPool ∧ 0 < (w₂.heap.nodes k).refer := by
  obtain ⟨l, hI, -⟩ := run_inv (I := fun _ _ => True) hw trivial (fun _ _ hop => hop)
    fun _ _ _ => trivial
  refine ⟨fun j buf hij hj hbuf => append_counts hI hi hb hij hj hbuf, fun ops w₁ hops hr => ?_⟩
  obtain ⟨l₁, b₁, hI₁, hi₁, hb₁, hh⟩ := joins_run hI hi hb hops hr
  obtain ⟨p₁, rest₁, hF₁⟩ := hI₁.focus hi₁
  obtain ⟨w₂, b₂, hx, hi₂, hlook, hlen, hsize, hnodes⟩ := flush_holds cfg hI₁ hi₁ hb₁
  rw [hh] at hlook hlen
  exact ⟨b₁, w₂, b₂, hi₁, by rw [← hh]; exact hF₁.buffer.length_holds hF₁.safe, hx, hi₂, hlook,
    hlen, hsize, hnodes⟩

/-- After `MallocAck` has dropped bytes that had been appended, `Len` counts more than can be read.
-/
theorem writeBuffer_miscounts : ∃ w w₁ w₂ b₂, World.after (fun w op => w.legal op)
      [.new 1, .new 1, .act 1 (.malloc 2), .act 1 .flush, .act 0 (.malloc 1), .append 0 1,
        .act 0 (.mallocAck 1), .new 1, .act 2 (.malloc 1), .act 2 .flush] = some w ∧
    w.exec .small (.append 0 2) = some (.done, w₁) ∧ w₁.exec .small
      (.act 0 .flush) = some (.done, w₂) ∧
    w₂.bufs[0]? = some b₂ ∧ (w₂.heap.look (b₂.readable w₂.heap)).length = 2 ∧ b₂.length = 4 :=
  ⟨_, _, _, _, rfl, rfl, rfl, rfl, rfl, rfl⟩

theorem writeBuffer_concat_two : ∃ w b w₁ w₂ b₂, World.after (fun w op => w.legal op ∧ w.Careful op)
      [.new 1, .new 1, .act 1 (.malloc 2), .act 1 (.fill (1, 0) 5), .act 1 (.fill (1, 1) 6),
        .act 1 .flush, .act 1 (.skip 1), .act 1 (.malloc 1), .act 1 (.fill (1, 2) 7), .act 0
          (.malloc 1),
        .act 0 (.fill (0, 0) 4), .lend [8]] = some w ∧
    w.bufs[0]? = some b ∧
    runs (guarded (World.step .small) World.legal) w
      [.append 0 1, .act 0 (.writeBinary ⟨2, 0, 1, 1⟩)] = some w₁ ∧
    w₁.exec .small (.act 0 .flush) = some (.done, w₂) ∧ w₂.bufs[0]? = some b₂ ∧
    w₂.heap.look (b₂.readable w₂.heap) = [4, 6, 7, 8] := by
  obtain ⟨w, b, w₁, hw, hi, hb, hr, hh⟩ : ∃ w b w₁,
    World.after (fun w op => w.legal op ∧ w.Careful op)
        [.new 1, .new 1, .act 1 (.malloc 2), .act 1 (.fill (1, 0) 5), .act 1 (.fill (1, 1) 6),
          .act 1 .flush, .act 1 (.skip 1), .act 1 (.malloc 1), .act 1 (.fill (1, 2) 7),
          .act 0 (.malloc 1), .act 0 (.fill (0, 0) 4), .lend [8]] = some w ∧
      w.bufs[0]? = some b ∧ b.write ≠ none ∧
      runs (guarded (World.step .small) World.legal) w
      [.append 0 1, .act 0 (.writeBinary ⟨2, 0, 1, 1⟩)] = some w₁ ∧
      b.holds w.heap ++ w.gains .small [.append 0 1, .act 0 (.writeBinary ⟨2, 0, 1, 1⟩)] =
        [4, 6, 7, 8] :=
    ⟨_, _, _, rfl, rfl, by decide, rfl, by decide⟩
  obtain ⟨-, w₂, b₂, -, -, hx, hi₂, hlook, -⟩ :=
    (writeBuffer_concat (World.reach_of_after hw) hi hb).2 _ w₁ (by decide) hr
  exact ⟨w, b, w₁, w₂, b₂, hw, hi, hr, hx, hi₂, hlook.trans hh⟩

end Netpoll.Nocopy
