import Netpoll.Connection.OutputStream
import Netpoll.Nocopy.Single

/-! The output of a connection without a write timeout, to which one goroutine at a time writes. -/

namespace Netpoll.OutputStream

open Netpoll.Lib.Transition Netpoll.Nocopy
open Netpoll.Poll.Handler (SysRes)

variable {cfg : Config} {s s' : System} {w w' : World} {l : Layout} {P : Nat → Prop} {h h' : Heap}
  {b b' : LinkBuffer} {i n : Nat} {m : Int} {a : Act} {op : Op} {e : Event} {r : SysRes} {f : Bool}
  {o : Out} {submitted kernel : List UInt8}

/-- `NewLinkBuffer` has made the buffer `j`, and it has not been appended to another one. -/
def ours (w : World) (j : Nat) : Bool := (w.bufs[j]?).any (·.write.isSome)

def spent (w : World) (j : Nat) : Bool :=
  (w.bufs[j]?).any fun buf => decide (buf.length + buf.mallocSize ≤ 0)

def puts : Act → Bool
  | .fill _ _ | .malloc _ | .writeBinary _ | .writeString _ | .writeByte _ => true
  | _ => false

/-- A call that writes to the output buffer 0 of the connection, or to a buffer that will be
appended to it. -/
def writing (w : World) : Op → Bool
  | .new _ | .lend _ => true
  | .act 0 a => puts a
  | .act (j + 1) a => (puts a || a == .flush) && ours w (j + 1)
  | .append j k => k != 0 && (ours w k || spent w k) && (j == 0 || ours w j)
  | .slice _ _ => false

/-- The goroutine writes while no `Flush` of the connection is running. -/
def System.writes (s : System) : Event → Prop
  | .user op => s.world.legal op ∧ writing s.world op = true ∧
      (op.uses 0 = true → s.active = true ∧ s.writer = .idle)
  | _ => True

instance (s : System) : DecidablePred s.writes
  | .user _ => inferInstanceAs (Decidable (_ ∧ _ ∧ (_ → _)))
  | .call | .writer _ | .event | .poller _ | .close | .closeTrigger =>
    inferInstanceAs (Decidable True)

structure Puts (a : Act) : Prop where
  splits : a.splits = false
  acks : a.acks = false
  wants : ∀ b h, LinkBuffer.wants b h a = 0
  close : a ≠ .close

theorem Puts.of_puts (ha : puts a = true) : Puts a ∧ stages a = true := by
  cases a <;> first
    | exact ⟨⟨rfl, rfl, fun _ _ => rfl, Act.noConfusion⟩, rfl⟩
    | exact Bool.noConfusion ha

theorem Puts.flush : Puts .flush := ⟨rfl, rfl, fun _ _ => rfl, Act.noConfusion⟩

theorem writing_act (hop : writing w (.act i a) = true) :
    Puts a ∧ (i = 0 ∧ stages a = true ∨ i ≠ 0 ∧ ours w i = true) := by
  cases i with
  | zero =>
    obtain ⟨hp, hst⟩ := Puts.of_puts hop
    exact ⟨hp, .inl ⟨rfl, hst⟩⟩
  | succ j =>
    obtain ⟨ha, ho⟩ : (puts a = true ∨ a = .flush) ∧ ours w (j + 1) = true := by
      simpa [writing] using hop
    refine ⟨?_, .inr ⟨by simp, ho⟩⟩
    rcases ha with ha | rfl
    · exact (Puts.of_puts ha).1
    · exact .flush

theorem writing_append {j k : Nat} : writing w (.append j k) = true ↔
    k ≠ 0 ∧ (ours w k = true ∨ spent w k = true) ∧ (j = 0 ∨ ours w j = true) := by
  simp [writing, and_assoc]

theorem ours_iff {j : Nat} :
    ours w j = true ↔ ∃ b, w.bufs[j]? = some b ∧ b.write.isSome = true := by
  cases hb : w.bufs[j]? <;> simp [ours, hb]

theorem spent_iff {j : Nat} :
    spent w j = true ↔ ∃ b, w.bufs[j]? = some b ∧ b.length + b.mallocSize ≤ 0 := by
  cases hb : w.bufs[j]? <;> simp [spent, hb]

theorem writing_writesTo (hop : writing w op = true) : writesTo 0 op = true := by
  cases op with
  | new _ | lend _ => rfl
  | act i a =>
    rcases (writing_act hop).2 with ⟨-, hst⟩ | ⟨hi, -⟩ <;> simp [writesTo, *]
  | append j k =>
    simpa [writesTo] using (writing_append.mp hop).1
  | slice _ _ => cases hop

theorem writing_orderly (hl : w.legal op) (hop : writing w op = true) (h0 : ours w 0 = true) :
    w.Orderly op := by
  refine ⟨hl, ?_⟩
  cases op with
  | new _ | lend _ => exact ⟨trivial, rfl, rfl, rfl⟩
  | act i a =>
    obtain ⟨hp, ho⟩ := writing_act hop
    have hours : ours w i = true := by
      rcases ho with ⟨rfl, -⟩ | ⟨-, ho⟩
      · exact h0
      · exact ho
    obtain ⟨b, hi, hw⟩ := ours_iff.mp hours
    refine ⟨fun b _ => ⟨?_, Act.cutsOwn_of_splits hp.splits, by
      simp [Act.acked_of_acks hp.acks]⟩, hp.splits, by simp [World.opens, hi, hw], by
      simp [World.settled, hp.acks]⟩
    rw [hp.wants]
    exact fun _ => Int.natCast_nonneg _
  | append j k =>
    obtain ⟨-, hk, hj⟩ := writing_append.mp hop
    obtain ⟨b, hb, hw⟩ : ∃ b, w.bufs[j]? = some b ∧ b.write.isSome = true := by
      rcases hj with rfl | hj
      · exact ours_iff.mp h0
      · exact ours_iff.mp hj
    refine ⟨trivial, rfl, ?_, rfl⟩
    rcases hk with hk | hk
    · obtain ⟨buf, hbuf, hwk⟩ := ours_iff.mp hk
      simp [World.opens, hb, hw, hbuf, hwk]
    · obtain ⟨buf, hbuf, hle⟩ := spent_iff.mp hk
      simp [World.opens, hb, hbuf, hle]
  | slice _ _ => cases hop

theorem doFlush_write (hf : b.doFlush h cfg = some (b', h')) : b'.write.isSome = true := by
  simp only [LinkBuffer.doFlush, Option.bind_eq_bind] at hf
  obtain ⟨x, -, hf⟩ := Option.bind_eq_some_iff.mp hf
  obtain ⟨j, hj, hf⟩ := Option.bind_eq_some_iff.mp hf
  obtain ⟨y, -, hf⟩ := Option.bind_eq_some_iff.mp hf
  cases hf
  exact Option.isSome_of_mem hj

theorem skip_write {x : Except String Unit} (hs : b.skip h m = some (x, b', h')) :
    b'.write = b.write := by
  simp only [LinkBuffer.skip, Option.bind_eq_bind] at hs
  split_ifs at hs
  · cases hs
    rfl
  · cases hs
    rfl
  · obtain ⟨⟨k, h₁⟩, -, hs⟩ := Option.bind_eq_some_iff.mp hs
    cases hs
    rfl

theorem release_write (hr : b.release h = some (b', h')) : b'.write = b.write := by
  simp only [LinkBuffer.release, Option.bind_eq_bind] at hr
  obtain ⟨k, -, hr⟩ := Option.bind_eq_some_iff.mp hr
  obtain ⟨h₁, -, hr⟩ := Option.bind_eq_some_iff.mp hr
  obtain ⟨h₂, -, hr⟩ := Option.bind_eq_some_iff.mp hr
  obtain ⟨h₃, -, hr⟩ := Option.bind_eq_some_iff.mp hr
  cases hr
  rfl

theorem ack_write (ha : ack cfg b h n = some (f, b', h')) : b'.write = b.write := by
  by_cases h0 : n = 0
  · simp only [ack, if_pos h0, Option.some.injEq, Prod.mk.injEq] at ha
    rw [ha.2.1]
  · simp only [ack, if_neg h0, LinkBuffer.run, Option.bind_eq_bind] at ha
    obtain ⟨⟨o, b₁, h₁⟩, hs, ha⟩ := Option.bind_eq_some_iff.mp ha
    obtain ⟨⟨o', b₂, h₂⟩, hr, ha⟩ := Option.bind_eq_some_iff.mp ha
    obtain ⟨⟨x, b₃, h₃⟩, hskip, he⟩ := Option.map_eq_some_iff.mp hs
    obtain ⟨⟨b₄, h₄⟩, hrel, he'⟩ := Option.map_eq_some_iff.mp hr
    simp only [Prod.mk.injEq] at he he'
    simp only [Option.pure_def, Option.some.injEq, Prod.mk.injEq] at ha
    rw [← ha.2.1, ← he'.2.1, release_write hrel, ← he.2.1, skip_write hskip]

theorem Inv.ours_iff {j : Nat} (hI : Inv w l P) :
    ours w j = true ↔ ∃ x, l[j]? = some x ∧ x.2.back ≠ [] := by
  rw [OutputStream.ours_iff, hI.bufs]
  constructor
  · rintro ⟨b, hb, hw⟩
    obtain ⟨x, hx, rfl⟩ := Option.map_eq_some_iff.mp (List.getElem?_map .. ▸ hb)
    exact ⟨x, hx, (hI.buffer x (List.mem_of_getElem? hx)).write_ne_none.mp
      (Option.isSome_iff_ne_none.mp hw)⟩
  · rintro ⟨x, hx, hne⟩
    exact ⟨x.1, by rw [List.getElem?_map, hx]; rfl, Option.isSome_iff_ne_none.mpr
      ((hI.buffer x (List.mem_of_getElem? hx)).write_ne_none.mpr hne)⟩

theorem ours_put (hb : s.world.bufs[0]? = some b) (hw : b'.write.isSome = true) :
    ours (s.put 0 b' h').world 0 = true := by
  obtain ⟨hlt, -⟩ := List.getElem?_eq_some_iff.mp hb
  exact ours_iff.mpr ⟨b', List.getElem?_set_self hlt, hw⟩

theorem writing_shuts (hop : writing w op = true) : op.shuts 0 = false := by
  cases op with
  | act i a =>
    have hc := (writing_act hop).1.close
    cases a <;> first | rfl | exact absurd rfl hc
  | append j k => simpa [Op.shuts] using (writing_append.mp hop).1
  | _ => rfl

namespace System

/-- The writer and the poller change a buffer only when they acknowledge what has been sent. -/
def Acks (cfg : Config) (s s' : System) (b : LinkBuffer) : Prop :=
  s'.world = s.world ∨ ∃ n f b' h', ack cfg b s.world.heap n = some (f, b', h') ∧
    s'.world = (s.put 0 b' h').world

theorem writerStep_acks (h : s.writerStep cfg 0 b r = some s') : Acks cfg s s' b := by
  cases hw : s.writer with
  | skip n =>
    simp only [writerStep, hw] at h
    obtain ⟨⟨f, b', h'⟩, hack, rfl⟩ := Option.map_eq_some_iff.mp h
    exact .inr ⟨n, f, b', h', hack, rfl⟩
  | flush =>
    simp only [writerStep, hw] at h
    split_ifs at h
    · cases h
      exact .inl rfl
    · obtain ⟨vs, -, rfl⟩ := Option.map_eq_some_iff.mp h
      exact .inl rfl
  | send vs =>
    simp only [writerStep, hw] at h
    split at h <;> cases h <;> exact .inl rfl
  | register =>
    simp only [writerStep, hw] at h
    split at h <;> cases h <;> exact .inl rfl
  | waitFlush =>
    simp only [writerStep, hw] at h
    obtain ⟨err, -, rfl⟩ := Option.map_eq_some_iff.mp h
    exact .inl rfl
  | returned e =>
    simp only [writerStep, hw] at h
    cases h
    exact .inl rfl
  | idle | timedOut | expired => simp [writerStep, hw] at h

theorem triggerWrite_world (s : System) (err : Option Flush.FlushErr) :
    (s.triggerWrite err).world = s.world := by
  rw [triggerWrite]
  split <;> rfl

theorem pollerStep_acks (h : s.pollerStep cfg 0 b r = some s') : Acks cfg s s' b := by
  cases hp : s.poller with
  | ack n =>
    simp only [pollerStep, hp] at h
    obtain ⟨⟨f, b', h'⟩, hack, rfl⟩ := Option.map_eq_some_iff.mp h
    exact .inr ⟨n, f, b', h', hack, rfl⟩
  | outputs =>
    simp only [pollerStep, hp] at h
    split_ifs at h
    · cases h
      exact .inl rfl
    · obtain ⟨vs, -, rfl⟩ := Option.map_eq_some_iff.mp h
      exact .inl rfl
  | send vs =>
    simp only [pollerStep, hp] at h
    split at h <;> cases h <;> exact .inl rfl
  | trigger =>
    simp only [pollerStep, hp] at h
    cases h
    exact .inl (s.triggerWrite_world none)
  | rw2r =>
    simp only [pollerStep, hp] at h
    cases h
    exact .inl rfl
  | idle => simp [pollerStep, hp] at h

theorem ours_acked (hb : s.world.bufs[0]? = some b) (h0 : ours s.world 0 = true)
    (h : Acks cfg s s' b) : ours s'.world 0 = true := by
  rcases h with he | ⟨n, f, b', h', hack, he⟩
  · rwa [he]
  · obtain ⟨c, hc, hw⟩ := ours_iff.mp h0
    obtain rfl : b = c := Option.some.inj (hb.symm.trans hc)
    rw [he]
    exact ours_put hb (ack_write hack ▸ hw)

theorem ours_step (hT : Tidy s.world l P) (h0 : ours s.world 0 = true) (he : s.writes e)
    (h : s.step cfg 0 e = some s') : ours s'.world 0 = true := by
  cases e with
  | user op =>
    obtain ⟨hl, hop, -⟩ := he
    obtain ⟨o, w', l', P', hx, hS⟩ := hT.step cfg (writing_orderly hl hop h0)
    simp only [step, hx, Option.map_some, Option.some.injEq] at h
    obtain ⟨x, hl, hne⟩ := (Inv.ours_iff hT.inv).mp h0
    rw [← h]
    exact (Inv.ours_iff hS.tidy.inv).mpr (hS.opened 0 x (writing_shuts hop) hl hne)
  | call =>
    obtain ⟨b, hb, h⟩ := Option.bind_eq_some_iff.mp h
    simp only [call] at h
    split_ifs at h
    · obtain ⟨⟨b', h'⟩, hf, rfl⟩ := Option.map_eq_some_iff.mp h
      exact ours_put hb (doFlush_write hf)
    · cases h
      exact h0
  | writer r =>
    obtain ⟨b, hb, h⟩ := Option.bind_eq_some_iff.mp h
    exact ours_acked hb h0 (writerStep_acks h)
  | poller r =>
    obtain ⟨b, hb, h⟩ := Option.bind_eq_some_iff.mp h
    exact ours_acked hb h0 (pollerStep_acks h)
  | event =>
    obtain ⟨-, h⟩ := Option.ite_none_right_eq_some.mp h
    cases h
    exact h0
  | close =>
    obtain ⟨-, h⟩ := Option.ite_none_right_eq_some.mp h
    cases h
    exact h0
  | closeTrigger =>
    obtain ⟨-, h⟩ := Option.ite_none_right_eq_some.mp h
    cases h
    exact (congrArg (ours · 0) (s.triggerWrite_world _)).trans h0

end System

/-- A run of a connection with a new output buffer, to which one goroutine at a time writes:
`submitted` has been flushed, and the kernel has taken `kernel`. -/
inductive Written (cfg : Config) : System → List UInt8 → List UInt8 → Prop
  | init (mem : Nat → Nat → UInt8) (picks : Nat → Nat) :
      Written cfg (.init (.single cfg mem picks 0)) [] []
  | step {s s' : System} {submitted kernel : List UInt8} (e : Event) :
      Written cfg s submitted kernel → s.writes e → s.step cfg 0 e = some s' →
      Written cfg s' (submitted ++ s.submits 0 e) (kernel ++ s.sends e)

theorem System.writes.allows (h0 : ours s.world 0 = true) (he : s.writes e) : s.allows 0 e := by
  cases e with
  | user op => exact ⟨writing_orderly he.1 he.2.1 h0, writing_writesTo he.2.1, he.2.2⟩
  | call => exact h0
  | _ => trivial

theorem Written.sends (hs : Written cfg s submitted kernel) :
    Sends cfg 0 s submitted kernel ∧ ours s.world 0 = true := by
  induction hs with
  | init mem picks => exact ⟨.init (w := World.start mem picks) .refl rfl rfl, rfl⟩
  | step e _ he h ih =>
    obtain ⟨hs, h0⟩ := ih
    obtain ⟨a, l, P, p, hL, -, -⟩ := hs.live
    exact ⟨.step e hs (he.allows h0) h, System.ours_step hL.tidy h0 he h⟩

/-- Whatever part of a send the kernel takes, and whenever the poller runs, the kernel has got a
prefix of what has been flushed, and the output buffer holds the rest.  The goroutine that writes
and the poller never both have a send in progress, and `Flush` returns nil only when nothing is
left. -/
theorem output_exactly_once (hs : Written cfg s submitted kernel) :
    ∃ b, s.world.bufs[0]? = some b ∧
      submitted = kernel ++ (s.world.heap.look (b.readable s.world.heap)).drop s.sent ∧
      (s.writer.busy = true → s.poller = .idle) ∧
      (s.writer = .returned none →
        (s.world.heap.look (b.readable s.world.heap)).drop s.sent = []) := by
  obtain ⟨hs, h0⟩ := hs.sends
  obtain ⟨b, hb, -⟩ := ours_iff.mp h0
  obtain ⟨a, l, P, p, hL, rfl, rfl⟩ := hs.live
  obtain ⟨hstream, -, hbusy, hret⟩ := hL.sent hb
  refine ⟨b, hb, hstream, hbusy, fun hr => ?_⟩
  have hlen := congrArg List.length hstream
  rw [hret hr, List.length_append] at hlen
  exact List.eq_nil_of_length_eq_zero (by omega)

theorem output_exactly_once_appended : ∃ s b submitted kernel, Written .small s submitted kernel ∧
    s.world.bufs[0]? = some b ∧ s.writer = .skip 1 ∧ submitted = [7, 8] ∧ kernel = [7] ∧
    submitted = kernel ++ (s.world.heap.look (b.readable s.world.heap)).drop 1 := by
  obtain ⟨s, submitted, kernel, hs, hw, hsent, hsub, hker⟩ : ∃ s submitted kernel,
      Written .small s submitted kernel ∧ s.writer = .skip 1 ∧ s.sent = 1 ∧ submitted = [7, 8] ∧
      kernel = [7] := by
    refine ⟨_, _, _, .step (.writer (.ok 1)) (.step (.writer (.ok 0)) (.step .call
      (.step (.user (.append 0 1)) (.step (.user (.act 1 (.writeByte 8)))
        (.step (.user (.new 1)) (.step (.user (.act 0 (.writeByte 7)))
          (.init (fun _ _ => 0) fun _ => 0) ?_ rfl) ?_ rfl) ?_ rfl) ?_ rfl)
      ?_ rfl) ?_ rfl) ?_ rfl, rfl, rfl, rfl, rfl⟩
    all_goals decide
  obtain ⟨b, hb, hstream, -⟩ := output_exactly_once hs
  rw [hsent] at hstream
  exact ⟨s, b, submitted, kernel, hs, hb, hw, hsub, hker, hstream⟩

end Netpoll.OutputStream
