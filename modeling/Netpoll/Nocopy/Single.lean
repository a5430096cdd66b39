import Netpoll.Nocopy.Refines

namespace Netpoll.Nocopy

open Netpoll.Lib Netpoll.Lib.Memory Netpoll.Lib.Transition Netpoll.Lib.Staged

variable {w w' : World} {l : Layout} {P : Nat → Prop} {h h' : Heap} {b b' : LinkBuffer}
  {i n : Nat} {m : Int} {s : Slice} {cfg : Config} {o : Out} {op : Op} {mem : Nat → Nat → UInt8}
  {picks : Nat → Nat} {size : Int}

namespace World

/-- One buffer, made by `NewLinkBuffer`. -/
def single (cfg : Config) (mem : Nat → Nat → UInt8) (picks : Nat → Nat) (size : Int) : World :=
  let (b, h) := newLinkBuffer (start mem picks).heap cfg size
  ⟨h, [b]⟩

/-- The calls of a user who writes to the buffer, flushes it and reads from it, and reads from what
`Slice` returns. -/
def Single (w : World) (op : Op) : Prop :=
  w.legal op ∧
    match op with
    | .lend _ => True
    | .act i a => i < w.bufs.length ∧ (a.reads ∨ i = 0 ∧ a.writes ∧ a.acks = false)
    | .slice i _ => i < w.bufs.length
    | .new _ | .append _ _ => False

instance (w : World) : DecidablePred w.Single
  | .act _ _ => inferInstanceAs (Decidable (_ ∧ _ ∧ (_ ∨ _)))
  | .slice _ _ | .lend _ | .new _ | .append _ _ => inferInstanceAs (Decidable (_ ∧ _))

theorem trimming_new (size : Int) : w.Trimming (.new size) := ⟨rfl, rfl, rfl, trivial⟩

theorem step_single (cfg : Config) (mem : Nat → Nat → UInt8) (picks : Nat → Nat) (size : Int) :
    (start mem picks).step cfg (.new size) = some (single cfg mem picks size) := rfl

end World

theorem Act.of_reads {a : Act} (ha : a.reads) :
    a.splits = false ∧ a.acked = none ∧ a.writes = false := by
  cases a <;> first | exact ⟨rfl, rfl, rfl⟩ | cases ha

theorem Act.splits_of_writes {a : Act} (ha : a.writes) : a.splits = false := by
  cases a <;> first | rfl | cases ha

theorem World.Single.trimming (hop : w.Single op) : w.Trimming op := by
  refine ⟨hop.1, ?_⟩
  cases op with
  | lend _ | slice _ _ => exact ⟨rfl, rfl, trivial⟩
  | act i a =>
    rcases hop.2.2 with ha | ⟨-, ha, hack⟩
    · obtain ⟨hsp, hnone, -⟩ := Act.of_reads ha
      exact ⟨hsp, rfl, fun b _ n hn => by simp [hnone] at hn⟩
    · exact ⟨Act.splits_of_writes ha, rfl, fun b _ n hn => by
        simp [Act.acked_of_acks hack] at hn⟩
  | new _ | append _ _ => exact hop.2.elim

theorem World.Single.shuts (hop : w.Single op) : op.shuts 0 = false := by
  cases op with
  | act i a =>
    cases a with
    | close => rcases hop.2.2 with ha | ⟨-, ha, -⟩ <;> cases ha
    | _ => rfl
  | append _ _ => exact hop.2.elim
  | _ => rfl

theorem malloc_len (hr : b.malloc h cfg m = some (s, b', h')) : s.len = m.toNat := by
  by_cases h0 : m ≤ 0
  · simp only [LinkBuffer.malloc, if_pos h0, Option.some.injEq, Prod.mk.injEq] at hr
    rw [← hr.1, Int.toNat_of_nonpos h0]
    rfl
  · simp only [LinkBuffer.malloc, if_neg h0, Option.bind_eq_bind] at hr
    obtain ⟨⟨b₁, h₁⟩, -, hr⟩ := Option.bind_eq_some_iff.mp hr
    obtain ⟨i, -, hr⟩ := Option.bind_eq_some_iff.mp hr
    obtain ⟨⟨q, h₂⟩, hq, hr⟩ := Option.bind_eq_some_iff.mp hr
    simp only [Option.pure_def, Option.some.injEq, Prod.mk.injEq] at hr
    obtain ⟨c, hc, hq⟩ := Option.bind_eq_some_iff.mp hq
    simp only [Option.pure_def, Option.some.injEq, Prod.mk.injEq] at hq
    obtain ⟨-, hc⟩ := Option.ite_none_right_eq_some.mp hc
    rw [← hr.1, ← hq.1, ← Option.some.inj hc]
    exact Nat.add_sub_cancel_left _ _

theorem World.exec_malloc (hx : w.exec cfg (.act i (.malloc m)) = some (o, w')) :
    (o.content w'.heap).length = m.toNat := by
  obtain ⟨b, b', h', -, hrun, rfl⟩ := World.exec_act.mp hx
  obtain ⟨⟨s, b₁, h₁⟩, hr, he⟩ := Option.map_eq_some_iff.mp hrun
  cases he
  simp [Out.content, Heap.bytes, malloc_len hr]

theorem World.Single.opens (hI : Inv w l P) {x : LinkBuffer × Parts} (hl : l[0]? = some x)
    (hne : x.2.back ≠ []) (hop : w.Single op) : w.opens op := by
  cases op with
  | lend _ => rfl
  | act i a =>
    obtain ⟨b, hi⟩ : ∃ b, w.bufs[i]? = some b := ⟨_, List.getElem?_eq_getElem hop.2.1⟩
    rcases hop.2.2 with ha | ⟨rfl, -⟩
    · simp [World.opens, hi, (Act.of_reads ha).2.2]
    · obtain rfl : x.1 = b := by simpa [hI.bufs, hl] using hi
      have hw := (hI.buffer x (List.mem_of_getElem? hl)).write_ne_none.mpr hne
      simp [World.opens, hi, Option.isSome_iff_ne_none.mpr hw]
  | slice i _ => simpa [World.opens] using hop.2
  | new _ | append _ _ => exact hop.2.elim

theorem single_trimming (hw : Reach (World.step cfg) World.Single (.single cfg mem picks size) w) :
    Reach (World.step cfg) World.Trimming (World.start mem picks) w :=
  .trans (.tail .refl (World.trimming_new size) (World.step_single cfg mem picks size))
    (hw.mono fun _ _ _ hop => hop.trimming)

theorem single_tidy (hw : Reach (World.step cfg) World.Single (.single cfg mem picks size) w) :
    ∃ l P x, Tidy w l P ∧ l[0]? = some x ∧ x.2.back ≠ [] := by
  induction hw with
  | refl =>
    obtain ⟨b, h', p, hnew, hT, -, -, -, -, hback, -⟩ :=
      (Tidy.start mem picks).add_new cfg (.new size) rfl size
    refine ⟨[(b, p)], fun _ => False, (b, p), ?_, rfl, hback⟩
    rw [World.single, hnew]
    exact hT
  | tail hw hop hs ih =>
    obtain ⟨l, P, x, hT, hl, hne⟩ := ih
    obtain ⟨l₀, hI, hidle, hun⟩ := trimming_run (single_trimming hw)
    have hplain : World.Plain _ _ := ⟨hop.trimming, hop.opens hT.inv hl hne⟩
    obtain ⟨o, w', l', P', hx, hS⟩ := hT.step cfg (hplain.orderly hI hidle hun)
    rw [World.step, hx, Option.map_some, Option.some.injEq] at hs
    obtain ⟨x', hl', hne'⟩ := hS.opened 0 x hop.shuts hl hne
    exact ⟨l', P', x', hs ▸ hS.tidy, hl', hne'⟩

theorem single_plain (hw : Reach (World.step cfg) World.Single (.single cfg mem picks size) w) :
    Reach (World.step cfg) World.Plain (World.start mem picks) w :=
  .trans (.tail .refl ⟨World.trimming_new size, rfl⟩ (World.step_single cfg mem picks size))
    (hw.mono fun w op hw hop => by
      obtain ⟨l, P, x, hT, hl, hne⟩ := single_tidy hw
      exact ⟨hop.trimming, hop.opens hT.inv hl hne⟩)

/-- A buffer is a queue of bytes in two parts, whatever its user does: no call fails, each returns
what the queue returns, a reader that `Slice` returns is a queue with the bytes sliced, `Malloc`
returns as many bytes as it has been asked for, and `Len` and `MallocLen` count the two parts. -/
theorem linkBuffer_refines
    (hw : Reach (World.step cfg) World.Single (.single cfg mem picks size) w) :
    (∀ b ∈ w.bufs, b.length = (b.queue w.heap).ready.length ∧
      b.mallocSize = (b.queue w.heap).staged.length) ∧
      ∀ op, w.Single op → ∃ o w' q r, w.exec cfg op = some (o, w') ∧ op.request w w' o = some q ∧
        serve w.queues q = some (r, w'.queues) ∧ o.agrees w'.heap r ∧
        ∀ i n, op = .act i (.malloc n) → (o.content w'.heap).length = n.toNat := by
  obtain ⟨l, P, x, hT, hl, hne⟩ := single_tidy hw
  refine ⟨fun b hb => plain_counts (single_plain hw) hb, fun op hop => ?_⟩
  obtain ⟨o, w', q, r, hx, hq, hs, ho⟩ :=
    plain_step (single_plain hw) ⟨hop.trimming, hop.opens hT.inv hl hne⟩
  refine ⟨o, w', q, r, hx, hq, hs, ho, ?_⟩
  rintro i n rfl
  exact World.exec_malloc hx

theorem linkBuffer_refines_sliced : ∃ w o w' r, runs (guarded (World.step .small) fun w op =>
      decide (w.Single op)) (.single .small (fun _ _ => 0) (fun _ => 0) 1)
      [.act 0 (.malloc 3), .act 0 (.fill (0, 1) 7), .act 0 .flush, .act 0 (.writeByte 5)] =
      some w ∧
    w.exec .small (.slice 0 2) = some (o, w') ∧ w.queues = [⟨[0, 7, 0], [5]⟩] ∧
    serve w.queues (.split 0 2) = some (r, w'.queues) ∧ o.agrees w'.heap r := by
  obtain ⟨w, hw, hop, hq⟩ : ∃ w, runs (guarded (World.step .small) fun w op =>
      decide (w.Single op)) (.single .small (fun _ _ => 0) (fun _ => 0) 1)
      [.act 0 (.malloc 3), .act 0 (.fill (0, 1) 7), .act 0 .flush, .act 0 (.writeByte 5)] =
      some w ∧ w.Single (.slice 0 2) ∧ w.queues = [⟨[0, 7, 0], [5]⟩] :=
    ⟨_, rfl, by decide, rfl⟩
  obtain ⟨o, w', q, r, hx, hreq, hs, ho, -⟩ := (linkBuffer_refines (.of_decide hw)).2 _ hop
  obtain rfl : .split 0 2 = q := by simpa [Op.request] using hreq
  exact ⟨w, o, w', r, hw, hx, hq, hs, ho⟩

end Netpoll.Nocopy
