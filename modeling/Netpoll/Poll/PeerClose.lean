import Mathlib.Algebra.Order.BigOperators.Group.Finset
import Mathlib.Tactic.Common
import Netpoll.Poll.Handler

namespace Netpoll.Poll.Handler

open Netpoll.Lib.Transition Finset

structure Input where
  booked : Nat
  acked : Nat
  deriving DecidableEq, Repr

abbrev Chunks := Nat → { l : Nat // 0 < l }

section

variable {τ : Type*}

def Input.inputs (chunk : Chunks) (s : Input × τ) : List Nat × Input × τ :=
  ([(chunk s.1.booked).1], { s.1 with booked := s.1.booked + 1 }, s.2)

def Input.inputAck (n : Int) (s : Input × τ) : Input × τ :=
  ({ s.1 with acked := s.1.acked + n.toNat }, s.2)

def connOperator (chunk : Chunks) (outputs : τ → List Nat × τ) (outputAck : Int → τ → τ) :
    Operator (Input × τ) where
  onRead := none
  inputs := some (Input.inputs chunk)
  inputAck := Input.inputAck
  onWrite := none
  outputs := some fun s => ((outputs s.2).1, s.1, (outputs s.2).2)
  outputAck := fun n s => (s.1, outputAck n s.2)

end

def SysRes.data : SysRes → Nat
  | .ok n => n
  | .fail _ => 0

def SysRes.retryable : SysRes → Bool
  | .fail .eagain | .fail .eintr => true
  | _ => false

def SysRes.ends : SysRes → Bool
  | .ok n => n == 0
  | .fail (.other _) => true
  | _ => false

section

variable {σ : Type*} {k : Kernel} {o : Operator σ} {inputs : σ → List Nat × σ} {s s' : Fd σ}

theorem iovecs_resetIovecs (total : Nat) (bs : List Nat) : iovecs total (resetIovecs bs) = [] := by
  induction bs with
  | nil => rfl
  | cons l bs ih => simpa [resetIovecs, iovecs] using ih

theorem ioread_goes_on {bs rest : List Nat} {n : Int} (h : ioread k s bs = ((n, none), rest, s')) :
    rest = resetIovecs bs ∧ s'.reads = s.reads + 1 ∧ n = (k.reads s.reads).data := by
  by_cases hv : iovecs 0 bs = []
  · simp [ioread, readv, hv] at h
  · rcases hr : k.reads s.reads with m | (_ | _ | c) <;>
      simp [ioread, readv, hv, hr] at h <;> obtain ⟨h1, h2, rfl⟩ := h
    · exact ⟨h2.symm, rfl, by rw [← h1.1]; rfl⟩
    · exact ⟨h2.symm, rfl, by rw [← h1]; rfl⟩
    · exact ⟨h2.symm, rfl, by rw [← h1]; rfl⟩

theorem iosend_input (s : Fd σ) (bs : List Nat) :
    (iosend k s bs).2.state = s.state ∧ (iosend k s bs).2.reads = s.reads := by
  unfold iosend writev
  split_ifs
  · simp
  · rcases k.writes s.writes with n | (_ | _ | c) <;> simp

theorem tryRead_reset (fuel : Nat) (bs : List Nat) (total : Int) :
    (tryRead k o inputs (fuel + 1) (resetIovecs bs) s total).isSome := by
  simp [tryRead, ioread, readv, iovecs_resetIovecs]

theorem tryRead_returns {fuel : Nat} {bs : List Nat} {total : Int} {i : Nat} (hi : s.reads ≤ i)
    (hend : (k.reads i).data = 0) (hf : i < s.reads + fuel) :
    (tryRead k o inputs (fuel + 1) bs s total).isSome := by
  induction fuel generalizing bs s total with
  | zero => omega
  | succ fuel ih =>
    obtain ⟨⟨⟨n, e⟩, rest, t⟩, hio⟩ : ∃ r, ioread k s bs = r := ⟨_, rfl⟩
    rw [tryRead]
    simp only [hio]
    cases e with
    | some e => simp
    | none =>
      obtain ⟨rfl, hr, hn⟩ := ioread_goes_on hio
      rw [if_neg (by simp)]
      split_ifs with h0 hbs
      · exact tryRead_reset fuel bs _
      · rfl
      · -- some bytes, so that the read was not the `i`-th
        have hne : s.reads ≠ i := by
          rintro rfl
          omega
        refine ih ?_ ?_ <;> dsimp only <;> omega

theorem readall_returns {i : Nat} (hi : s.reads ≤ i) (hend : (k.reads i).data = 0) :
    (readall k o inputs (i - s.reads + 2) s).isSome := by
  simp only [readall]
  split_ifs
  · rfl
  · exact tryRead_returns hi hend (by dsimp only; omega)

end

def Kernel.delivered (k : Kernel) (i : Nat) : Nat := ∑ j ∈ range i, (k.reads j).data

section

variable {τ : Type*} (k : Kernel) (chunk : Chunks) (outputs : τ → List Nat × τ)
  (outputAck : Int → τ → τ)

/-- The connection has acknowledged what the kernel has delivered. -/
def Acked (s : Fd (Input × τ)) : Prop := s.state.1.acked = k.delivered s.reads

variable {k chunk outputs outputAck} {s s' : Fd (Input × τ)}

theorem iovecs_single {l : Nat} (hl : 0 < l) : iovecs 0 [l] ≠ [] := by
  simp only [iovecs]
  split_ifs <;> simp
  omega

theorem ioread_cleared (s : Fd (Input × τ)) : ioread k s [0] = ((0, some .eof), [0], s) := by
  simp [ioread, readv, iovecs]

theorem ioread_fresh {l : Nat} (hl : 0 < l) :
    ∃ n err, ioread k s [l] = ((n, err), [0], { s with reads := s.reads + 1 }) ∧
      n.toNat = (k.reads s.reads).data ∧
      (0 < n ∧ err = none ∨ n = 0 ∧ err = none ∧ (k.reads s.reads).retryable ∨
        err.isSome ∧ (k.reads s.reads).ends) := by
  have hv := iovecs_single hl
  rcases hr : k.reads s.reads with (_ | n) | (_ | _ | c) <;>
    simp [ioread, readv, hv, hr, resetIovecs, SysRes.data, SysRes.retryable, SysRes.ends]
  omega

theorem Acked.read (ha : Acked k s) {n : Int} (hn : n.toNat = (k.reads s.reads).data) :
    Acked k { s with state := Input.inputAck n s.state, reads := s.reads + 1 } := by
  simp only [Acked, Input.inputAck, Kernel.delivered, sum_range_succ, hn] at *
  rw [ha]

def Kernel.ended (k : Kernel) (i j : Nat) : Prop := ∃ m, i ≤ m ∧ m < j ∧ (k.reads m).ends

theorem Kernel.ended.mono {i i' j : Nat} (h : k.ended i j) (hi : i' ≤ i) : k.ended i' j := by
  obtain ⟨m, h1, h2, h3⟩ := h
  exact ⟨m, by omega, h2, h3⟩

structure LeftRead (k : Kernel) (s s' : Fd (Input × τ)) (total total' : Int) : Prop where
  acked : Acked k s'
  reads : s.reads ≤ s'.reads
  stops : k.ended s.reads s'.reads ∨ total < total' ∨
    total' = total ∧ (k.reads s.reads).retryable

theorem tryRead_spec {fuel l : Nat} {total total' : Int} {err : Option IoErr} (hl : 0 < l)
    (ha : Acked k s)
    (h : tryRead k (connOperator chunk outputs outputAck) (Input.inputs chunk) fuel [l] s total =
      some (s', total', err)) : LeftRead k s s' total total' := by
  induction fuel generalizing l s total with
  | zero => cases h
  | succ fuel ih =>
    obtain ⟨n, e, hio, hn, hcase⟩ := ioread_fresh (k := k) (s := s) hl
    have hack := ha.read hn
    simp only [tryRead, hio, connOperator] at h
    rcases hcase with ⟨hpos, rfl⟩ | ⟨rfl, rfl, hretry⟩ | ⟨he, hends⟩
    · -- some bytes: the next round has a fresh chunk
      rw [if_neg (by simp), if_neg (by omega), if_neg (by simp [Input.inputs])] at h
      have hbooked : Acked k ⟨(Input.inputs chunk (Input.inputAck n s.state)).2, s.reads + 1,
          s.writes, s.errors⟩ := hack
      have hnext := ih (chunk _).2 hbooked h
      refine ⟨hnext.acked, Nat.le_trans (Nat.le_succ _) hnext.reads, ?_⟩
      rcases hnext.stops with hs | hs | ⟨hs, -⟩
      · exact .inl (hs.mono (Nat.le_succ _))
      · exact .inr (.inl (by omega))
      · exact .inr (.inl (by omega))
    · -- a retry: the cleared chunk reads as the end
      rw [if_neg (by simp), if_pos rfl] at h
      cases fuel with
      | zero => cases h
      | succ fuel =>
        simp only [tryRead, ioread_cleared, Option.isSome_some, if_true, Option.some.injEq,
          Prod.mk.injEq] at h
        obtain ⟨rfl, rfl, -⟩ := h
        exact ⟨by simpa [Acked, Input.inputAck] using hack, Nat.le_succ _,
          .inr (.inr ⟨by simp, hretry⟩)⟩
    · rw [if_pos he] at h
      obtain ⟨rfl, rfl, -⟩ := by simpa using h
      exact ⟨hack, Nat.le_succ _, .inl ⟨s.reads, Nat.le_refl _, Nat.lt_succ_self _, hends⟩⟩

theorem handleRead_spec (ha : Acked k s) {n : Int} {failed : Bool}
    (h : handleRead k (connOperator chunk outputs outputAck) s = (s', n, failed)) :
    Acked k s' ∧ s'.reads = s.reads + 1 ∧
      (failed = false → 0 < n ∨ n = 0 ∧ (k.reads s.reads).retryable) := by
  have hbooked : Acked k { s with state := (Input.inputs chunk s.state).2 } := ha
  obtain ⟨m, e, hio, hm, hcase⟩ :=
    ioread_fresh (k := k) (s := { s with state := (Input.inputs chunk s.state).2 })
      (chunk s.state.1.booked).2
  simp only [handleRead, connOperator] at h
  rw [if_neg (by simp [Input.inputs])] at h
  simp only [Input.inputs] at h hio
  rw [hio] at h
  obtain ⟨rfl, rfl, rfl⟩ := by simpa using h
  refine ⟨hbooked.read hm, rfl, fun hf => ?_⟩
  rcases hcase with ⟨hpos, -⟩ | ⟨h0, -, hr⟩ | ⟨he, -⟩
  · exact .inl hpos
  · exact .inr ⟨h0, hr⟩
  · simp [he] at hf

variable (k chunk outputs outputAck) in
theorem handleWrite_input (s : Fd (Input × τ)) :
    (handleWrite k (connOperator chunk outputs outputAck) s).1.state.1 = s.state.1 ∧
      (handleWrite k (connOperator chunk outputs outputAck) s).1.reads = s.reads ∧
      (handleWrite k (connOperator chunk outputs outputAck) s).2 ≠ some .hup := by
  simp only [handleWrite, connOperator]
  by_cases hbs : (outputs s.state.2).1 = []
  · simp [hbs]
  · simp only [hbs, if_false, iosend_input, true_and]
    split <;> simp

theorem handleLeft_spec {fuel : Nat} {ev : Event} {total total' : Int} (ha : Acked k s)
    (h : handleLeft k (connOperator chunk outputs outputAck) fuel ev s total = some (s', total')) :
    Acked k s' ∧ s.reads ≤ s'.reads ∧ (ev.hup → ev.read → LeftRead k s s' total total') := by
  cases hev : ev.hup && ev.read with
  | false =>
    simp only [handleLeft, hev, Option.some.injEq, Prod.mk.injEq] at h
    obtain ⟨rfl, rfl⟩ := h
    exact ⟨ha, Nat.le_refl _, fun h1 h2 => by simp [h1, h2] at hev⟩
  | true =>
    simp only [handleLeft, hev, connOperator] at h
    obtain ⟨⟨t, m, e⟩, hr, he⟩ := Option.map_eq_some_iff.mp h
    obtain ⟨rfl, rfl⟩ := by simpa using he
    simp only [readall] at hr
    rw [if_neg (by simp [Input.inputs])] at hr
    have hbooked : Acked k { s with state := (Input.inputs chunk s.state).2 } := ha
    have hleft := tryRead_spec (chunk s.state.1.booked).2 hbooked hr
    refine ⟨hleft.acked, hleft.reads, fun _ _ => ⟨hleft.acked, hleft.reads, ?_⟩⟩
    rcases hleft.stops with hs | hs | ⟨hs, hq⟩
    · exact .inl hs
    · exact .inr (.inl (by omega))
    · exact .inr (.inr ⟨by omega, hq⟩)

theorem handle_spec {fuel : Nat} {ev : Event} {c : Option Cause} (ha : Acked k s)
    (h : handle k (connOperator chunk outputs outputAck) fuel ev s = some (s', c)) :
    Acked k s' ∧ s.reads ≤ s'.reads ∧ (c = some .hup → ev.read →
      k.ended s.reads s'.reads ∨
        ev.hup ∧ (k.reads s.reads).retryable ∧ (k.reads (s.reads + 1)).retryable) := by
  obtain ⟨s₁, n, failed, hread⟩ :
      ∃ s₁ n failed, (if ev.read then handleRead k (connOperator chunk outputs outputAck) s
        else (s, 0, false)) = (s₁, n, failed) := ⟨_, _, _, rfl⟩
  have hfirst : Acked k s₁ ∧ s.reads ≤ s₁.reads ∧ (ev.read → s₁.reads = s.reads + 1 ∧
      (failed = false → 0 < n ∨ n = 0 ∧ (k.reads s.reads).retryable)) := by
    cases hev : ev.read with
    | false =>
      obtain ⟨rfl, -⟩ : s = s₁ ∧ _ := by simpa [hev] using hread
      exact ⟨ha, Nat.le_refl _, by simp⟩
    | true =>
      obtain ⟨h1, h2, h3⟩ := handleRead_spec ha (by simpa [hev] using hread)
      exact ⟨h1, by omega, fun _ => ⟨h2, h3⟩⟩
  obtain ⟨ha₁, hle₁, hr₁⟩ := hfirst
  simp only [handle, hread] at h
  cases failed with
  | true =>
    obtain ⟨rfl, rfl⟩ := by simpa using h
    exact ⟨ha₁, hle₁, by simp⟩
  | false =>
    obtain ⟨⟨s₂, total⟩, hleft, hout⟩ := Option.map_eq_some_iff.mp h
    obtain ⟨ha₂, hle₂, hleft⟩ := handleLeft_spec ha₁ hleft
    have hsame : s'.state.1 = s₂.state.1 ∧ s'.reads = s₂.reads ∧
        (c = some .hup → ev.hup ∧ total = 0) := by
      dsimp only at hout
      split_ifs at hout with hhup herr hnone hwrite
      · obtain ⟨rfl, rfl⟩ := by simpa using hout
        exact ⟨rfl, rfl, fun _ => hhup⟩
      · obtain ⟨rfl, rfl⟩ := by simpa using hout
        exact ⟨rfl, rfl, by simp⟩
      · obtain ⟨rfl, rfl⟩ := by simpa using hout
        exact ⟨rfl, rfl, by simp⟩
      · obtain ⟨h1, h2, h3⟩ := handleWrite_input k chunk outputs outputAck s₂
        rw [hout] at h1 h2 h3
        exact ⟨h1, h2, fun hc => absurd hc h3⟩
      · obtain ⟨rfl, rfl⟩ := by simpa using hout
        exact ⟨rfl, rfl, by simp⟩
    obtain ⟨h1, h2, h3⟩ := hsame
    refine ⟨by simpa [Acked, h1, h2] using ha₂, by omega, fun hc hev => ?_⟩
    obtain ⟨hhup, rfl⟩ := h3 hc
    obtain ⟨hreads, hn⟩ := hr₁ hev
    rw [h2]
    rcases (hleft hhup hev).stops with hs | hs | ⟨hs, hq⟩
    · exact .inl (hs.mono hle₁)
    · rcases hn rfl with hn | ⟨hn, -⟩ <;> omega
    · rcases hn rfl with hn | ⟨-, hr⟩
      · omega
      · exact .inr ⟨hhup, hr, hreads ▸ hq⟩

end

structure Watched (τ : Type*) where
  fd : Fd (Input × τ)
  hup : Option (Event × Cause)

structure Label where
  event : Event
  fuel : Nat
  deriving DecidableEq, Repr

section

variable {τ : Type*} (k : Kernel) (chunk : Chunks) (outputs : τ → List Nat × τ)
  (outputAck : Int → τ → τ)

def step (s : Watched τ) (a : Label) : Option (Watched τ) :=
  if s.hup.isSome then none
  else
    (handle k (connOperator chunk outputs outputAck) a.fuel a.event s.fd).map fun r =>
      ⟨r.1, r.2.map (a.event, ·)⟩

def init (t : τ) : Watched τ := ⟨⟨(⟨0, 0⟩, t), 0, 0, 0⟩, none⟩

/-- Beside a hang-up the kernel does not put off both the first read and the first
read of `readall`. -/
def Label.steady (s : Watched τ) (a : Label) : Bool :=
  !(a.event.hup && a.event.read && (k.reads s.fd.reads).retryable &&
    (k.reads (s.fd.reads + 1)).retryable)

/-- A peer that has sent `sent` bytes in all and closed: the kernel delivers no
more, and reports the end when it has delivered them. -/
def Kernel.honest (sent : Nat) : Prop :=
  ∀ i, k.delivered i ≤ sent ∧ (k.reads i = .ok 0 → k.delivered i = sent)

variable {k chunk outputs outputAck}

theorem Kernel.delivered_mono {i j : Nat} (hij : i ≤ j) : k.delivered i ≤ k.delivered j :=
  sum_le_sum_of_subset (range_mono hij)

theorem Kernel.ended.delivered {i j sent : Nat} (he : k.ended i j) (hk : k.honest sent)
    (hfail : ∀ m < j, ∀ e, k.reads m ≠ .fail (.other e)) : k.delivered j = sent := by
  obtain ⟨m, -, hmj, hm⟩ := he
  have hzero : k.reads m = .ok 0 := by
    rcases hr : k.reads m with (_ | n) | (_ | _ | c) <;> simp [hr, SysRes.ends] at hm
    · rfl
    · exact absurd hr (hfail m hmj c)
  have hsum := (hk m).2 hzero
  have hmono := k.delivered_mono (Nat.le_of_lt hmj)
  have hbound := (hk j).1
  omega

/-- A hang-up event beside EPOLLIN queues `OnHup` only after the kernel has
reported the end of the stream or an error, and then everything that an honest
peer sent has been acknowledged. -/
theorem hup_after_end (t : τ) {s : Watched τ}
    (hr : Reach (step k chunk outputs outputAck) (fun s a => a.steady k s) (init t) s) (ev : Event)
    (hh : s.hup = some (ev, .hup)) (hread : ev.read) :
    k.ended 0 s.fd.reads ∧
      ∀ sent, k.honest sent → (∀ i < s.fd.reads, ∀ e, k.reads i ≠ .fail (.other e)) →
        s.fd.state.1.acked = sent := by
  have hi : Acked k s.fd ∧ ∀ ev, s.hup = some (ev, .hup) → ev.read → k.ended 0 s.fd.reads := by
    refine hr.invariant (I := fun s => Acked k s.fd ∧ ∀ ev, s.hup = some (ev, .hup) → ev.read →
      k.ended 0 s.fd.reads) ?_ ?_
    · exact ⟨rfl, by simp [init]⟩
    · rintro s a s' ⟨ha, -⟩ hg hs
      simp only [step] at hs
      split at hs
      · cases hs
      obtain ⟨⟨fd, c⟩, hc, rfl⟩ := Option.map_eq_some_iff.mp hs
      obtain ⟨ha', -, hend⟩ := handle_spec ha hc
      refine ⟨ha', fun ev hev hread => ?_⟩
      obtain ⟨c', hc', he⟩ := Option.map_eq_some_iff.mp hev
      obtain ⟨rfl, rfl⟩ := Prod.mk.inj he
      rcases hend hc' hread with he | ⟨hhup, h1, h2⟩
      · exact he.mono (Nat.zero_le _)
      · simp [Label.steady, hhup, hread, h1, h2] at hg
  obtain ⟨ha, hend⟩ := hi
  have he := hend ev hh hread
  exact ⟨he, fun sent hk hfail => ha.trans (he.delivered hk hfail)⟩

end

def Event.peerClosed : Event := ⟨true, false, true, false⟩

def Kernel.oneByte : Kernel where
  reads i := if i = 0 then .ok 1 else if i = 1 then .fail .eagain else .ok 0
  writes _ := .ok 0
  noError _ := true

theorem Kernel.oneByte_honest : Kernel.oneByte.honest 1 := by
  have hone : ∀ i, Kernel.oneByte.delivered (i + 1) = 1 := by
    intro i
    induction i with
    | zero => rfl
    | succ i ih =>
      rw [Kernel.delivered, sum_range_succ, ← Kernel.delivered, ih]
      cases i <;> simp [Kernel.oneByte, SysRes.data]
  intro i
  cases i with
  | zero => simp [Kernel.delivered, Kernel.oneByte]
  | succ i => simp [hone i]

theorem hup_after_end_one :
    ∃ s, Reach (step .oneByte (fun _ => ⟨1, Nat.one_pos⟩) (fun t : Unit => ([], t)) fun _ t => t)
        (fun s a => a.steady .oneByte s) (init ()) s ∧
      s.hup = some (.peerClosed, .hup) ∧ Kernel.oneByte.ended 0 s.fd.reads ∧
      s.fd.state.1.acked = 1 := by
  have hrun : ∃ s, runs (guarded (step .oneByte (fun _ => ⟨1, Nat.one_pos⟩)
        (fun t : Unit => ([], t)) fun _ t => t) fun s a => a.steady .oneByte s) (init ())
        [⟨⟨true, false, false, false⟩, 0⟩, ⟨.peerClosed, 2⟩] = some s ∧
      s.hup = some (.peerClosed, .hup) ∧ s.fd.reads = 3 := ⟨_, rfl, rfl, rfl⟩
  obtain ⟨s, hs, hh, hreads⟩ := hrun
  have hr := Reach.of_runs hs
  obtain ⟨hend, hacked⟩ := hup_after_end () hr .peerClosed hh rfl
  refine ⟨s, hr, hh, hend, hacked 1 Kernel.oneByte_honest ?_⟩
  intro i _ e
  simp only [Kernel.oneByte]
  split_ifs <;> simp

def Kernel.again : Kernel where
  reads _ := .fail .eagain
  writes _ := .ok 0
  noError _ := true

/-- The kernel has reported neither the end nor an error, and `OnHup` is queued. -/
theorem hup_before_end :
    ∃ s, Reach (step .again (fun _ => ⟨1, Nat.one_pos⟩) (fun t : Unit => ([], t)) fun _ t => t)
        (fun _ _ => True) (init ()) s ∧
      s.hup = some (.peerClosed, .hup) ∧ ¬ Kernel.again.ended 0 s.fd.reads := by
  have hrun : ∃ s, runs (guarded (step .again (fun _ => ⟨1, Nat.one_pos⟩)
        (fun t : Unit => ([], t)) fun _ t => t) fun _ _ => true) (init ())
        [⟨.peerClosed, 2⟩] = some s ∧ s.hup = some (.peerClosed, .hup) := ⟨_, rfl, rfl⟩
  obtain ⟨s, hs, hh⟩ := hrun
  refine ⟨s, (Reach.of_runs hs).mono fun _ _ _ _ => trivial, hh, ?_⟩
  rintro ⟨m, -, -, hm⟩
  simp [Kernel.again, SysRes.ends] at hm

end Netpoll.Poll.Handler
