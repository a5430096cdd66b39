import Netpoll.Poll.PeerClose

namespace Netpoll.Poll.Handler

def counted {σ : Type*} (f : σ → List Nat × σ) (s : σ × Nat) : List Nat × σ × Nat :=
  ((f s.1).1, (f s.1).2, s.2)

def Operator.counting {σ : Type*} (o : Operator σ) : Operator (σ × Nat) where
  onRead := o.onRead.map fun f s => (f s.1, s.2)
  inputs := o.inputs.map counted
  inputAck := fun n s => (o.inputAck n s.1, s.2 + n.toNat)
  onWrite := o.onWrite.map fun f s => (f s.1, s.2)
  outputs := o.outputs.map counted
  outputAck := fun n s => (o.outputAck n s.1, s.2)

def SysRes.fatal : SysRes → Bool
  | .fail (.other _) => true
  | _ => false

/-- One of the reads from the `i`-th on failed with an error that is not retryable. -/
def Kernel.failed (k : Kernel) (i j : Nat) : Prop := ∃ m, i ≤ m ∧ m < j ∧ (k.reads m).fatal

section

variable {σ : Type*} {k : Kernel} {o : Operator σ} {inputs : σ → List Nat × σ}
  {s s' : Fd (σ × Nat)} {bs rest : List Nat} {n total total' : Int} {err : Option IoErr}
  {fuel : Nat}

theorem Kernel.not_failed_self (i : Nat) : ¬ k.failed i i := by
  rintro ⟨m, h1, h2, -⟩
  omega

theorem Kernel.failed_one (i : Nat) : k.failed i (i + 1) ↔ (k.reads i).fatal := by
  constructor
  · rintro ⟨m, h1, h2, h3⟩
    obtain rfl : m = i := by omega
    exact h3
  · intro h
    exact ⟨i, Nat.le_refl i, Nat.lt_succ_self i, h⟩

theorem Kernel.failed_trans {i m j : Nat} (hi : i ≤ m) (hj : m ≤ j) :
    k.failed i j ↔ k.failed i m ∨ k.failed m j := by
  constructor
  · rintro ⟨q, h1, h2, h3⟩
    rcases Nat.lt_or_ge q m with h | h
    · exact .inl ⟨q, h1, h, h3⟩
    · exact .inr ⟨q, h, h2, h3⟩
  · rintro (⟨q, h1, h2, h3⟩ | ⟨q, h1, h2, h3⟩)
    · exact ⟨q, h1, by omega, h3⟩
    · exact ⟨q, by omega, h2, h3⟩

inductive IoRead (k : Kernel) (s s' : Fd (σ × Nat)) (n : Int) (err : Option IoErr) : Prop
  | none (hs : s' = s) (hn : n = 0) (he : err.isSome)
  | fatal (hs : s' = { s with reads := s.reads + 1 }) (hf : (k.reads s.reads).fatal) (hn : n = -1)
      (he : err.isSome)
  | count (hs : s' = { s with reads := s.reads + 1 }) (hf : (k.reads s.reads).fatal = false)
      (hn : n = (k.reads s.reads).data)

theorem ioread_count (h : ioread k s bs = ((n, err), rest, s')) : IoRead k s s' n err := by
  by_cases hv : iovecs 0 bs = []
  · simp only [ioread, readv, hv, if_true, Prod.mk.injEq] at h
    obtain ⟨⟨rfl, rfl⟩, -, rfl⟩ := h
    exact .none rfl rfl rfl
  · rcases hr : k.reads s.reads with m | (_ | _ | c) <;>
      simp only [ioread, readv, hv, if_false, hr, Prod.mk.injEq] at h <;>
      obtain ⟨⟨rfl, rfl⟩, -, rfl⟩ := h
    · exact .count rfl (by rw [hr]; rfl) (by rw [hr]; rfl)
    · exact .count rfl (by rw [hr]; rfl) (by rw [hr]; rfl)
    · exact .count rfl (by rw [hr]; rfl) (by rw [hr]; rfl)
    · exact .fatal rfl (by rw [hr]; rfl) rfl rfl

structure Counts (k : Kernel) (s s' : Fd (σ × Nat)) (total total' : Int) : Prop where
  reads : s.reads ≤ s'.reads
  acks : s.state.2 ≤ s'.state.2
  total : (¬ k.failed s.reads s'.reads ∧ total' - total = s'.state.2 - s.state.2) ∨
    (k.failed s.reads s'.reads ∧ total' - total = s'.state.2 - s.state.2 - 1)

theorem Counts.trans {t : Fd (σ × Nat)} {m : Int} (h : Counts k s t total m)
    (hf : ¬ k.failed s.reads t.reads) (h' : Counts k t s' m total') :
    Counts k s s' total total' := by
  refine ⟨Nat.le_trans h.reads h'.reads, Nat.le_trans h.acks h'.acks, ?_⟩
  rw [Kernel.failed_trans h.reads h'.reads]
  simp only [hf, false_or]
  rcases h.total with ⟨-, h1⟩ | ⟨h1, -⟩
  · rcases h'.total with ⟨h2, h3⟩ | ⟨h2, h3⟩
    · exact .inl ⟨h2, by omega⟩
    · exact .inr ⟨h2, by omega⟩
  · exact absurd h1 hf

theorem Counts.refl (ht : s'.state.2 = s.state.2) (hr : s'.reads = s.reads) :
    Counts k s s' total total := by
  refine ⟨Nat.le_of_eq hr.symm, Nat.le_of_eq ht.symm, .inl ⟨?_, by omega⟩⟩
  rw [hr]
  exact Kernel.not_failed_self s.reads

theorem Counts.cons {t : Fd (σ × Nat)} {m : Int} (h : Counts k t s' m total')
    (hr : t.reads = s.reads + 1) (hf : (k.reads s.reads).fatal = false)
    (hle : s.state.2 ≤ t.state.2) (ht : m - total = t.state.2 - s.state.2) :
    Counts k s s' total total' := by
  have hone : ¬ k.failed s.reads t.reads := by
    rw [hr, Kernel.failed_one, hf]
    exact Bool.false_ne_true
  exact Counts.trans ⟨by omega, hle, .inl ⟨hone, ht⟩⟩ hone h

theorem tryRead_counts (h : tryRead k o.counting (counted inputs) fuel bs s total =
    some (s', total', err)) : Counts k s s' total total' := by
  induction fuel generalizing bs s total with
  | zero => cases h
  | succ fuel ih =>
    obtain ⟨⟨⟨n, e⟩, rest, t⟩, hio⟩ : ∃ r, ioread k s bs = r := ⟨_, rfl⟩
    simp only [tryRead, hio, Operator.counting] at h
    rcases ioread_count hio with ⟨rfl, rfl, he⟩ | ⟨rfl, hf, rfl, he⟩ | ⟨rfl, hf, rfl⟩
    · rw [if_pos he] at h
      obtain ⟨rfl, rfl, -⟩ := by simpa using h
      exact .refl (by simp) rfl
    · rw [if_pos he] at h
      obtain ⟨rfl, rfl, -⟩ := by simpa using h
      refine ⟨Nat.le_succ _, Nat.le_refl _, .inr ⟨?_, by simp⟩⟩
      exact ⟨s.reads, Nat.le_refl _, Nat.lt_succ_self _, hf⟩
    · split_ifs at h with he hn hbs
      · obtain ⟨rfl, rfl, -⟩ := by simpa using h
        exact Counts.cons (.refl rfl rfl) rfl hf (Nat.le_add_right _ _) (by simp)
      · exact (ih h).cons rfl hf (Nat.le_add_right _ _) (by simp)
      · obtain ⟨rfl, rfl, -⟩ := by simpa using h
        exact Counts.cons (.refl rfl rfl) rfl hf (Nat.le_add_right _ _) (by simp [counted])
      · exact (ih h).cons rfl hf (Nat.le_add_right _ _) (by simp [counted])

theorem readall_sum (h : readall k o.counting (counted inputs) fuel s = some (s', total, err)) :
    Counts k s s' 0 total := by
  simp only [readall] at h
  split_ifs at h with hbs
  · obtain ⟨rfl, rfl, -⟩ := by simpa using h
    exact .refl rfl rfl
  · have hc := tryRead_counts h
    exact ⟨hc.reads, hc.acks, hc.total⟩

theorem handleRead_counts (h : handleRead k o.counting s = (s', n, false)) :
    Counts k s s' 0 n ∧ ¬ k.failed s.reads s'.reads := by
  have hsame (t : Fd (σ × Nat)) (h2 : t.state.2 = s.state.2) (h3 : t.reads = s.reads) :
      Counts k s t 0 0 ∧ ¬ k.failed s.reads t.reads := by
    refine ⟨.refl h2 h3, ?_⟩
    rw [h3]
    exact Kernel.not_failed_self s.reads
  rcases o with ⟨_ | onRead, _ | inputs, inputAck, onWrite, outputs, outputAck⟩ <;>
    simp only [handleRead, Operator.counting, Option.map_none, Option.map_some, Prod.mk.injEq] at h
  · obtain ⟨rfl, rfl, -⟩ := h
    exact hsame s rfl rfl
  · split_ifs at h with hbs
    · obtain ⟨rfl, rfl, -⟩ := by simpa using h
      exact hsame _ rfl rfl
    · obtain ⟨⟨⟨m, e⟩, rest, t⟩, hio⟩ :
          ∃ r, ioread k { s with state := (counted inputs s.state).2 } (counted inputs s.state).1 =
          r :=
        ⟨_, rfl⟩
      rw [hio] at h
      obtain ⟨rfl, rfl, he⟩ := by simpa using h
      rcases ioread_count hio with ⟨rfl, rfl, he'⟩ | ⟨rfl, hf, rfl, he'⟩ | ⟨rfl, hf, rfl⟩
      · simp [he] at he'
      · simp [he] at he'
      · refine ⟨Counts.cons (.refl rfl rfl) rfl hf (Nat.le_add_right _ _) (by simp [counted]), ?_⟩
        rw [Kernel.failed_one]
        simpa using hf
  · obtain ⟨rfl, rfl, -⟩ := h
    exact hsame _ rfl rfl
  · obtain ⟨rfl, rfl, -⟩ := h
    exact hsame _ rfl rfl

theorem handleLeft_counts
    {ev : Event} (h : handleLeft k o.counting fuel ev s total = some (s', total')) :
    Counts k s s' total total' := by
  have hsame (h : some (s, total) = some (s', total')) : Counts k s s' total total' := by
    obtain ⟨rfl, rfl⟩ := by simpa using h
    exact .refl rfl rfl
  rcases o with ⟨onRead, _ | inputs, inputAck, onWrite, outputs, outputAck⟩ <;>
    cases hev : ev.hup && ev.read <;>
    simp only [handleLeft, hev, Operator.counting, Option.map_none, Option.map_some] at h
  · exact hsame h
  · exact hsame h
  · exact hsame h
  · obtain ⟨⟨t, m, e⟩, hr, he⟩ := Option.map_eq_some_iff.mp h
    obtain ⟨rfl, rfl⟩ := by simpa using he
    have hc := readall_sum (o := ⟨onRead, some inputs, inputAck, onWrite, outputs, outputAck⟩) hr
    refine ⟨hc.reads, hc.acks, ?_⟩
    rcases hc.total with ⟨h1, h2⟩ | ⟨h1, h2⟩
    · exact .inl ⟨h1, by omega⟩
    · exact .inr ⟨h1, by omega⟩

variable (k o) in
theorem handleWrite_counting (s : Fd (σ × Nat)) :
    (handleWrite k o.counting s).1.state.2 = s.state.2 ∧
    (handleWrite k o.counting s).1.reads = s.reads ∧
      (handleWrite k o.counting s).2 ≠ some .hup := by
  rcases o with ⟨onRead, inputs, inputAck, _ | onWrite, _ | outputs, outputAck⟩
  · exact ⟨rfl, rfl, by rintro ⟨⟩⟩
  · simp only [handleWrite, Operator.counting, Option.map_none, Option.map_some]
    by_cases hbs : (counted outputs s.state).1 = []
    · simp only [hbs, if_true]
      exact ⟨rfl, trivial, by rintro ⟨⟩⟩
    · simp only [hbs, if_false, iosend_input]
      refine ⟨rfl, trivial, ?_⟩
      split <;> simp
  · exact ⟨rfl, rfl, by rintro ⟨⟩⟩
  · exact ⟨rfl, rfl, by rintro ⟨⟩⟩

theorem handle_counts {ev : Event} {c : Option Cause} (hev : ev.hup)
    (h : handle k o.counting fuel ev s = some (s', c)) (hc : c ≠ some .read) :
    ∃ total, Counts k s s' 0 total ∧ (c = some .hup ↔ total = 0) := by
  obtain ⟨t, n, failed, hread⟩ :
      ∃ t n failed, (if ev.read then handleRead k o.counting s else (s, 0, false)) =
      (t, n, failed) :=
    ⟨_, _, _, rfl⟩
  simp only [handle, hread] at h
  cases failed with
  | true =>
    obtain ⟨-, rfl⟩ := by simpa using h
    exact absurd rfl hc
  | false =>
    have hfirst : Counts k s t 0 n ∧ ¬ k.failed s.reads t.reads := by
      cases hr : ev.read with
      | false =>
        obtain ⟨rfl, rfl, -⟩ := by simpa [hr] using hread
        exact ⟨.refl rfl rfl, Kernel.not_failed_self _⟩
      | true => exact handleRead_counts (by simpa [hr] using hread)
    obtain ⟨⟨t', total⟩, hleft, hout⟩ := Option.map_eq_some_iff.mp h
    have hcount := hfirst.1.trans hfirst.2 (handleLeft_counts hleft)
    refine ⟨total, ?_⟩
    have hrest : s'.state.2 = t'.state.2 ∧ s'.reads = t'.reads ∧ (c = some .hup ↔ total = 0) := by
      dsimp only at hout
      split_ifs at hout with hhup herr hnone hwrite
      · obtain ⟨rfl, rfl⟩ := by simpa using hout
        simp [hhup.2]
      · obtain ⟨rfl, rfl⟩ := by simpa using hout
        simpa [hev] using hhup
      · obtain ⟨rfl, rfl⟩ := by simpa using hout
        simpa [hev] using hhup
      · obtain ⟨h1, h2, h3⟩ := handleWrite_counting k o t'
        rw [hout] at h1 h2 h3
        exact ⟨h1, h2, by simpa [h3, hev] using hhup⟩
      · obtain ⟨rfl, rfl⟩ := by simpa using hout
        simpa [hev] using hhup
    obtain ⟨h1, h2, h3⟩ := hrest
    refine ⟨⟨?_, ?_, ?_⟩, h3⟩
    · rw [h2]
      exact hcount.reads
    · rw [h1]
      exact hcount.acks
    · rw [h1, h2]
      exact hcount.total

/-- The total is the number of bytes that have been acknowledged, iff no read of
the call has failed; the end of `readall` comes with the first read that delivers
nothing.  A hang-up event is answered with `appendHup` exactly when no byte has
been read for it, iff no read has failed or two bytes came before. -/
theorem readall_counts (k : Kernel) (o : Operator σ) (s : Fd (σ × Nat)) :
    (∀ inputs fuel s' total err,
      readall k o.counting (counted inputs) fuel s = some (s', total, err) →
      (total = s'.state.2 - s.state.2 ↔ ¬ k.failed s.reads s'.reads)) ∧
    (∀ inputs i, s.reads ≤ i → (k.reads i).data = 0 →
      (readall k o.counting (counted inputs) (i - s.reads + 2) s).isSome) ∧
    ∀ fuel ev s' c, ev.hup → handle k o.counting fuel ev s = some (s', c) → c ≠ some .read →
      ((c = some .hup ↔ s'.state.2 = s.state.2) ↔
        ¬ k.failed s.reads s'.reads ∨ s.state.2 + 2 ≤ s'.state.2) := by
  refine ⟨fun inputs fuel s' total err h => ?_, fun inputs i => readall_returns,
    fun fuel ev s' c hev h hc => ?_⟩
  · rcases (readall_sum h).total with ⟨h1, h2⟩ | ⟨h1, h2⟩
    · simp only [h1, not_false_eq_true, iff_true]
      omega
    · simp only [h1, not_true_eq_false, iff_false]
      omega
  · obtain ⟨total, hcount, hhup⟩ := handle_counts hev h hc
    have hle := hcount.acks
    rw [hhup]
    rcases hcount.total with ⟨h1, h2⟩ | ⟨h1, h2⟩
    · simp only [h1, not_false_eq_true, true_or, iff_true]
      omega
    · simp only [h1, not_true_eq_false, false_or]
      omega

end

def Operator.bytewise : Operator Unit where
  onRead := none
  inputs := some fun t => ([1], t)
  inputAck := fun _ t => t
  onWrite := none
  outputs := some fun t => ([], t)
  outputAck := fun _ t => t

def Kernel.twoBytes : Kernel where
  reads i := if i < 2 then .ok 1 else .ok 0
  writes _ := .ok 0
  noError _ := true

theorem readall_counts_two :
    (∃ s', readall .twoBytes Operator.bytewise.counting (counted fun t => ([1], t)) 3
        ⟨((), 0), 0, 0, 0⟩ = some (s', 2, some .eof) ∧ (2 : Int) = s'.state.2 - (0 : Nat)) ∧
      ∃ s', handle .again Operator.bytewise.counting 2 .peerClosed ⟨((), 0), 0, 0, 0⟩ =
        some (s', some .hup) ∧ s'.state.2 = 0 := by
  constructor
  · obtain ⟨s', hs', hr⟩ : ∃ s', readall .twoBytes Operator.bytewise.counting
        (counted fun t => ([1], t)) 3 ⟨((), 0), 0, 0, 0⟩ = some (s', 2, some .eof) ∧ s'.reads = 3 :=
      ⟨_, rfl, rfl⟩
    have hf : ¬ Kernel.twoBytes.failed 0 s'.reads := by
      rintro ⟨m, -, -, hm⟩
      change (if m < 2 then SysRes.ok 1 else .ok 0).fatal = true at hm
      split_ifs at hm <;> cases hm
    exact ⟨s', hs', ((readall_counts .twoBytes .bytewise ⟨((), 0), 0, 0, 0⟩).1 _ _ _ _ _ hs').mpr
      hf⟩
  · obtain ⟨s', hs'⟩ : ∃ s', handle .again Operator.bytewise.counting 2 .peerClosed
        ⟨((), 0), 0, 0, 0⟩ = some (s', some .hup) := ⟨_, rfl⟩
    have hf : ¬ Kernel.again.failed 0 s'.reads := by
      rintro ⟨m, -, -, hm⟩
      simp [Kernel.again, SysRes.fatal] at hm
    obtain ⟨-, -, hhup⟩ := readall_counts .again .bytewise ⟨((), 0), 0, 0, 0⟩
    exact ⟨s', hs', ((hhup _ _ _ _ rfl hs' (by decide)).mpr (.inl hf)).mp rfl⟩

def Kernel.reset : Kernel where
  reads i := if i = 0 then .ok 1 else .fail (.other 104)
  writes _ := .ok 0
  noError _ := true

/-- The sum of one byte and the failed read is zero. -/
theorem readall_miscounts :
    ∃ s', readall Kernel.reset Operator.bytewise.counting
      (counted fun t => ([1], t)) 2 ⟨((), 0), 0, 0, 0⟩ =
        some (s', 0, some (.errno (.other 104))) ∧ s'.state.2 = 1 :=
  ⟨_, rfl, rfl⟩

end Netpoll.Poll.Handler
