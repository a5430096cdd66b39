import Netpoll.Lib.Counting
import Netpoll.Mux.ShardQueue

namespace Netpoll.Mux

open Netpoll.Lib.Threads Netpoll.Lib.Slices Netpoll.Lib.Transition

variable {G : Type*}

theorem addInt32_eq {x d : Int} (hlo : -2 ^ 31 ≤ x + d) (hhi : x + d < 2 ^ 31) :
    addInt32 x d = x + d :=
  Int.bmod_eq_of_le hlo hhi

namespace Pc

def enters : Pc G → Bool
  | addState _ | addIdx _ => true
  | _ => false

def adding : Pc G → Bool
  | addState _ | addIdx _ | addLock .. | addLen .. | addAppend .. | addUnlock .. | listLock _
  | listWrite _ | listUnlock | trigger => true
  | _ => false

def works : Pc G → Bool
  | load | read .. | swapLock .. | swap .. | swapUnlock .. | deal .. | sub _ | flush | stop => true
  | _ => false

def attends : Pc G → Bool
  | foreach | recheck => true
  | p => p.works

def calls (p : Pc G) : Bool := p.adding || p.attends

def Fits (t : Int) : Pc G → Prop
  | read n m | swapLock _ n m | swap _ n m | swapUnlock _ n m | deal _ _ _ n m =>
    0 < n + m ∧ m ≤ 0 ∧ n ≤ t
  | sub m => m ≤ 0 ∧ -m ≤ t
  | _ => True

theorem Fits.mono {p : Pc G} {t t' : Int} (h : p.Fits t) (ht : t ≤ t') : p.Fits t' := by
  cases p <;> simp only [Fits] at h ⊢ <;> omega

theorem fits_of_not_works {p : Pc G} {t : Int} (h : p.works = false) : p.Fits t := by
  cases p <;> simp_all [works, Fits]

@[simp] theorem loop_works (n m : Int) : (loop n m : Pc G).works = true := by
  unfold loop
  split <;> rfl

@[simp] theorem loop_attends (n m : Int) : (loop n m : Pc G).attends = true := by
  unfold loop
  split <;> rfl

@[simp] theorem loop_adding (n m : Int) : (loop n m : Pc G).adding = false := by
  unfold loop
  split <;> rfl

@[simp] theorem loop_enters (n m : Int) : (loop n m : Pc G).enters = false := by
  unfold loop
  split <;> rfl

theorem loop_fits {n m t : Int} (hm : 0 < n → 0 < n + m) (h0 : m ≤ 0) (ht : n ≤ t) :
    (loop n m : Pc G).Fits t := by
  unfold loop
  split
  · exact ⟨hm ‹_›, h0, ht⟩
  · trivial

theorem attends_of_works {p : Pc G} (h : p.works = true) : p.attends = true := by
  cases p <;> simp_all [works, attends]

end Pc

structure Bounded (q : Queue G) (p : Pc G) : Prop where
  idx : 0 ≤ q.idx ∧ (p.enters = true → q.idx + 1 < 2 ^ 31)
  trigger : 0 ≤ q.trigger ∧ q.trigger < 2 ^ 31 ∧ (p.adding = true → q.trigger + 1 < 2 ^ 31)
  runNum : 0 ≤ q.runNum ∧ (p = .foreach → q.runNum + 1 < 2 ^ 31)

inductive CounterMove (q : Queue G) (p : Pc G) : Move (Queue G) (Pc G) → Prop
  | keep {q' p'} : q'.idx = q.idx → q'.trigger = q.trigger → q'.runNum = q.runNum →
      q'.adds = q.adds → (p'.enters = true → p.enters = true) →
      (p'.adding = true → p.adding = true) → (p'.calls = true → p.calls = true) →
      p'.works = p.works → (p.attends = true → p'.attends = true ∨ q.trigger ≤ 0) →
      p'.Fits q.trigger → CounterMove q p ⟨q', p', none⟩
  | idx {p'} : p.enters = true → p.adding = true → p'.enters = false → p.works = false →
      p.attends = false → p'.calls = p'.adding → p'.works = false →
      CounterMove q p ⟨{ q with idx := q.idx + 1 }, p', none⟩
  | trigger : p = .trigger → CounterMove q p ⟨{ q with trigger := q.trigger + 1 },
      if 1 < q.trigger + 1 then .idle else .foreach, none⟩
  | busy : p = .foreach → 1 ≤ q.runNum →
      CounterMove q p ⟨{ q with runNum := q.runNum + 1 }, .idle, none⟩
  | start : p = .foreach → q.runNum = 0 →
      CounterMove q p ⟨{ q with runNum := 1 }, .idle, some .load⟩
  | sub {m} : p = .sub m →
      CounterMove q p ⟨{ q with trigger := q.trigger + m }, loop (q.trigger + m) 0, none⟩
  | stop : p = .stop → CounterMove q p ⟨{ q with runNum := 0 }, .recheck, none⟩

section Next

variable {grow : Nat → Nat → Nat} {q : Queue G} {k j : Nat} {p : Pc G} {m : Move (Queue G) (Pc G)}

theorem deal_end {n d t : Int} (hf : 0 < n + d ∧ d ≤ 0 ∧ n ≤ t) (ht : t < 2 ^ 31) :
    addInt32 d (-1) = d - 1 ∧ addInt32 n (d - 1) = n + d - 1 := by
  constructor <;> rw [addInt32_eq] <;> omega

theorem next_counters (hn : next grow q k j p = some m) (hb : Bounded q p) (hf : p.Fits q.trigger) :
    CounterMove q p m := by
  obtain ⟨hi0, hi⟩ := hb.idx
  obtain ⟨ht0, ht1, ht⟩ := hb.trigger
  obtain ⟨hr0, hr⟩ := hb.runNum
  cases p with
  | idle | outOfRange => simp [next] at hn
  | addState gts =>
    simp only [next, Option.some.injEq] at hn
    subst hn
    split <;> exact .keep rfl rfl rfl rfl (by simp [Pc.enters]) (by simp [Pc.adding])
      (by simp [Pc.calls, Pc.adding]) rfl (by simp [Pc.attends, Pc.works]) trivial
  | addIdx gts =>
    have hw : addInt32 q.idx 1 = q.idx + 1 := addInt32_eq (by omega) (hi rfl)
    simp only [next, hw, Option.some.injEq] at hn
    subst hn
    split <;> exact .idx rfl rfl rfl rfl rfl rfl rfl
  | addLock i gts | swapLock i n d =>
    simp only [next] at hn
    split at hn
    · cases hn
    · cases hn
      exact .keep rfl rfl rfl rfl (by simp [Pc.enters]) (by simp [Pc.adding])
        (by simp [Pc.calls, Pc.adding, Pc.attends, Pc.works]) rfl (by simp [Pc.attends, Pc.works])
        hf
  | listLock i =>
    simp only [next] at hn
    split at hn
    · cases hn
    · cases hn
      exact .keep rfl rfl rfl rfl (by simp [Pc.enters]) (by simp [Pc.adding])
        (by simp [Pc.calls, Pc.adding]) rfl (by simp [Pc.attends, Pc.works]) trivial
  | addUnlock i b =>
    simp only [next, Option.some.injEq] at hn
    subst hn
    split <;> exact .keep rfl rfl rfl rfl (by simp [Pc.enters]) (by simp [Pc.adding])
      (by simp [Pc.calls, Pc.adding]) rfl (by simp [Pc.attends, Pc.works]) trivial
  | trigger =>
    have hw : addInt32 q.trigger 1 = q.trigger + 1 := addInt32_eq (by omega) (ht rfl)
    simp only [next, hw, Option.some.injEq] at hn
    subst hn
    exact .trigger rfl
  | foreach =>
    have hw : addInt32 q.runNum 1 = q.runNum + 1 := addInt32_eq (by omega) (hr rfl)
    simp only [next, hw, Option.some.injEq] at hn
    subst hn
    split
    · exact .busy rfl (by omega)
    · have h0 : q.runNum = 0 := by omega
      simp only [h0]
      exact .start rfl h0
  | load =>
    simp only [next, Option.some.injEq] at hn
    subst hn
    exact .keep rfl rfl rfl rfl (by simp) (by simp) (by simp [Pc.calls, Pc.attends, Pc.works])
      (Pc.loop_works _ _) (by simp) (Pc.loop_fits (by omega) le_rfl le_rfl)
  | deal i gts t n d =>
    obtain ⟨hd, hnd⟩ := deal_end hf ht1
    simp only [next] at hn
    split at hn
    · cases hn
      exact .keep rfl rfl rfl rfl (by simp [Pc.enters]) (by simp [Pc.adding])
        (by simp [Pc.calls, Pc.attends, Pc.works]) rfl (by simp [Pc.attends, Pc.works]) hf
    · simp only [hd, hnd, Option.some.injEq] at hn
      subst hn
      simp only [Pc.Fits] at hf
      split
      · exact .keep rfl rfl rfl rfl (by simp [Pc.enters]) (by simp [Pc.adding])
          (by simp [Pc.calls, Pc.attends, Pc.works]) rfl (by simp [Pc.attends, Pc.works])
          ⟨by omega, by omega⟩
      · exact .keep rfl rfl rfl rfl (by simp) (by simp) (by simp [Pc.calls, Pc.attends, Pc.works])
          (Pc.loop_works _ _) (by simp) (Pc.loop_fits (by omega) (by omega) hf.2.2)
  | sub d =>
    have hw : addInt32 q.trigger d = q.trigger + d := by
      simp only [Pc.Fits] at hf
      exact addInt32_eq (by omega) (by omega)
    simp only [next, hw, Option.some.injEq] at hn
    subst hn
    exact .sub rfl
  | stop =>
    simp only [next, Option.some.injEq] at hn
    subst hn
    exact .stop rfl
  | recheck =>
    simp only [next, Option.some.injEq] at hn
    subst hn
    split
    · exact .keep rfl rfl rfl rfl (by simp [Pc.enters]) (by simp [Pc.adding])
        (by simp [Pc.calls, Pc.attends]) rfl (by simp [Pc.attends]) trivial
    · exact .keep rfl rfl rfl rfl (by simp [Pc.enters]) (by simp [Pc.adding])
        (by simp [Pc.calls, Pc.attends]) rfl (fun _ => .inr (by omega)) trivial
  | closed =>
    simp only [next, Option.some.injEq] at hn
    subst hn
    split <;> exact .keep rfl rfl rfl rfl (by simp [Pc.enters]) (by simp [Pc.adding])
      (by simp [Pc.calls, Pc.adding, Pc.attends, Pc.works]) rfl (by simp [Pc.attends, Pc.works])
      trivial
  | closeCas =>
    simp only [next] at hn
    split at hn <;> cases hn <;>
      exact .keep rfl rfl rfl rfl (by simp [Pc.enters]) (by simp [Pc.adding])
        (by simp [Pc.calls, Pc.adding, Pc.attends, Pc.works]) rfl (by simp [Pc.attends, Pc.works])
        trivial
  | closeLoop | closeTrigger =>
    simp only [next, Option.some.injEq] at hn
    subst hn
    split <;> exact .keep rfl rfl rfl rfl (by simp [Pc.enters]) (by simp [Pc.adding])
      (by simp [Pc.calls, Pc.adding, Pc.attends, Pc.works]) rfl (by simp [Pc.attends, Pc.works])
      trivial
  | addLen | addAppend | listWrite | listUnlock | read | swap | swapUnlock | flush | closeStore
  | closeReturned =>
    simp only [next, Option.some.injEq] at hn
    subst hn
    exact .keep rfl rfl rfl rfl (by simp [Pc.enters]) (by simp [Pc.adding])
      (by simp [Pc.calls, Pc.adding, Pc.attends, Pc.works]) rfl (by simp [Pc.attends, Pc.works]) hf

end Next

/-- The invariant of the counters.  Of the calls of `Add` so far, `idx`, `trigger`
and `runNum` have each used up no more than those that can no longer increment
them. -/
structure Counters (s : System G) : Prop where
  adds : s.shared.adds < 2 ^ 31
  idx : 0 ≤ s.shared.idx
  trigger : 0 ≤ s.shared.trigger
  runNum : 0 ≤ s.shared.runNum
  enters : ∃ n, s.Count Pc.enters n ∧ s.shared.idx + n ≤ s.shared.adds
  adding : ∃ n, s.Count Pc.adding n ∧ s.shared.trigger + n ≤ s.shared.adds
  calls : ∃ n, s.Count Pc.calls n ∧ n ≤ s.shared.adds ∧ s.shared.runNum + n ≤ s.shared.adds + 1
  busy : ∀ k, (s.pc k).works → 1 ≤ s.shared.runNum
  worker : s.Covered (fun q => 1 ≤ q.runNum) Pc.works
  unique : s.Unique Pc.works
  fits : s.Facts fun q p => p.Fits q.trigger
  attended : s.Covered (fun q => 0 < q.trigger) Pc.attends

/-- A call of `Add` has getters, and there are fewer than 2^31 of them. -/
def Label.admitted (s : System G) : Label G → Bool
  | .add _ gts => !gts.isEmpty && decide (s.shared.adds + 1 < 2 ^ 31)
  | _ => true

theorem Label.admitted_add {s : System G} {k : Nat} {gts : List G}
    (h : (Label.add k gts).admitted s = true) : gts ≠ [] ∧ s.shared.adds + 1 < 2 ^ 31 := by
  simpa [admitted] using h

namespace Counters

variable {s s' : System G} {k j : Nat} {q : Queue G} {p : Pc G}

theorem bounded (hc : Counters s) (k : Nat) : Bounded s.shared (s.pc k) := by
  have hA := hc.adds
  obtain ⟨n, hn, hle⟩ := hc.enters
  obtain ⟨n', hn', hle'⟩ := hc.adding
  obtain ⟨u, hu, -, hue⟩ := hc.calls
  refine ⟨⟨hc.idx, fun hk => ?_⟩, ⟨hc.trigger, by omega, fun hk => ?_⟩, hc.runNum, fun hk => ?_⟩
  · have := State.Count.pos hn hk
    omega
  · have := State.Count.pos hn' hk
    omega
  · -- next to the caller there is the worker, unless `runNum` is zero
    by_cases h1 : 1 ≤ s.shared.runNum
    · obtain ⟨i, hi⟩ := hc.worker h1
      have hik : i ≠ k := by
        rintro rfl
        simp [hk, Pc.works] at hi
      have := State.Count.two (k := k) (i := i) hu (by simp [hk, Pc.calls, Pc.attends])
        (by simp [Pc.calls, Pc.attends_of_works hi]) hik
      omega
    · omega

theorem count_le {T : Pc G → Bool} {n : Nat} (hn : s.Count T n) (c : Queue G) {k : Nat} {p : Pc G}
    (hp : T p = true → T (s.pc k) = true) : ∃ n' ≤ n, (s.enter c k p).Count T n' := by
  obtain ⟨n', hn', he⟩ := State.Total.enter hn c k p
  refine ⟨n', ?_, hn'⟩
  cases hT : T p
  · simp [hT] at he
    omega
  · simp [hT, hp hT] at he
    omega

theorem count_lt {T : Pc G → Bool} {n : Nat} (hn : s.Count T n) (c : Queue G) {k : Nat} {p : Pc G}
    (hk : T (s.pc k) = true) (hp : T p = false) :
    ∃ n', n' + 1 = n ∧ (s.enter c k p).Count T n' := by
  obtain ⟨n', hn', he⟩ := State.Total.enter hn c k p
  exact ⟨n', by simpa [hk, hp] using he, hn'⟩

theorem alone (hc : Counters s) (hk : (s.pc k).works) {i : Nat} (hik : i ≠ k) :
    (s.pc i).works = false := by
  by_contra hi
  exact hik (hc.unique i k (by simpa using hi) hk)

section Keep

variable (hc : Counters s)
include hc

theorem enters_keep (hadds : q.adds = s.shared.adds) (hidx : q.idx = s.shared.idx)
    (hp : p.enters = true → (s.pc k).enters = true) :
    ∃ n, (s.enter q k p).Count Pc.enters n ∧ q.idx + n ≤ q.adds := by
  obtain ⟨n, hn, hle⟩ := hc.enters
  obtain ⟨n', hn', hcount⟩ := count_le hn q hp
  exact ⟨n', hcount, by omega⟩

theorem adding_keep (hadds : q.adds = s.shared.adds) (htr : q.trigger ≤ s.shared.trigger)
    (hp : p.adding = true → (s.pc k).adding = true) :
    ∃ n, (s.enter q k p).Count Pc.adding n ∧ q.trigger + n ≤ q.adds := by
  obtain ⟨n, hn, hle⟩ := hc.adding
  obtain ⟨n', hn', hcount⟩ := count_le hn q hp
  exact ⟨n', hcount, by omega⟩

theorem calls_keep (hadds : q.adds = s.shared.adds) (hrun : q.runNum ≤ s.shared.runNum)
    (hp : p.calls = true → (s.pc k).calls = true) :
    ∃ n, (s.enter q k p).Count Pc.calls n ∧ n ≤ q.adds ∧ q.runNum + n ≤ q.adds + 1 := by
  obtain ⟨n, hn, hle, hle'⟩ := hc.calls
  obtain ⟨n', hn', hcount⟩ := count_le hn q hp
  exact ⟨n', hcount, by omega, by omega⟩

theorem busy_keep (hrun : s.shared.runNum ≤ q.runNum) (hp : p.works = true → (s.pc k).works = true)
    (i : Nat) (hi : ((s.enter q k p).pc i).works = true) : 1 ≤ q.runNum := by
  rcases eq_or_ne i k with rfl | hik
  · exact (hc.busy i (hp (by simpa using hi))).trans hrun
  · exact (hc.busy i (by simpa [hik] using hi)).trans hrun

theorem worker_keep (hrun : 1 ≤ q.runNum → 1 ≤ s.shared.runNum) (hp : p.works = (s.pc k).works) :
    (s.enter q k p).Covered (fun q => 1 ≤ q.runNum) Pc.works :=
  hc.worker.enter (fun h => .inl (hrun h)) fun _ hw => .inl (hp ▸ hw)

theorem attended_keep (htr : 0 < q.trigger → 0 < s.shared.trigger)
    (hp : 0 < q.trigger → (s.pc k).attends = true → p.attends = true) :
    (s.enter q k p).Covered (fun q => 0 < q.trigger) Pc.attends :=
  hc.attended.enter (fun h => .inl (htr h)) fun h hw => .inl (hp h hw)

theorem fits_keep (htr : s.shared.trigger ≤ q.trigger) (hp : p.Fits q.trigger) :
    (s.enter q k p).Facts fun q p => p.Fits q.trigger :=
  hc.fits.enter (fun _ _ hi => hi.mono htr) hp

end Keep

theorem move (hc : Counters s) (hm : CounterMove s.shared (s.pc k) ⟨q, p, none⟩) :
    Counters (s.enter q k p) := by
  have hA := hc.adds
  have hI := hc.idx
  have hT := hc.trigger
  have hR := hc.runNum
  have hfit : (s.pc k).Fits s.shared.trigger := hc.fits k
  cases hm with
  | keep hidx htr hrun hadds henters hadding hcalls hworks hatt hf =>
    exact {
      adds := hadds ▸ hA
      idx := hidx ▸ hI
      trigger := htr ▸ hT
      runNum := hrun ▸ hR
      enters := hc.enters_keep hadds hidx henters
      adding := hc.adding_keep hadds htr.le hadding
      calls := hc.calls_keep hadds hrun.le hcalls
      busy := hc.busy_keep hrun.ge (by simp [hworks])
      worker := hc.worker_keep (by simp [hrun]) hworks
      unique := hc.unique.enter (by simp [hworks])
      fits := hc.fits_keep htr.ge (htr ▸ hf)
      attended := hc.attended_keep (by simp [htr]) fun h hw =>
        (hatt hw).resolve_right (by rw [htr] at h; omega) }
  | idx hen had hen' hwk hat hcl hwk' =>
    obtain ⟨n, hn, hle⟩ := hc.enters
    obtain ⟨n', hn', hcount⟩ := count_lt hn { s.shared with idx := s.shared.idx + 1 } hen hen'
    exact {
      hc with
      idx := by simp only [State.enter_shared]; omega
      enters := ⟨n', hcount, by simp only [State.enter_shared]; omega⟩
      adding := hc.adding_keep rfl le_rfl fun _ => had
      calls := hc.calls_keep rfl le_rfl fun _ => by simp [Pc.calls, had]
      busy := hc.busy_keep le_rfl (by simp [hwk'])
      worker := hc.worker_keep id (by simp [hwk, hwk'])
      unique := hc.unique.enter (by simp [hwk'])
      fits := hc.fits_keep le_rfl (Pc.fits_of_not_works hwk')
      attended := hc.attended_keep id (by simp [hat]) }
  | trigger h =>
    obtain ⟨n, hn, hle⟩ := hc.adding
    obtain ⟨n', hn', hcount⟩ :=
      count_lt (p := if 1 < s.shared.trigger + 1 then .idle else .foreach) hn
        { s.shared with trigger := s.shared.trigger + 1 } (by rw [h]; rfl) (by split <;> rfl)
    -- a trigger that was positive is attended already, a first one by its caller
    have hatt : ∀ q, (s.enter q k (if 1 < s.shared.trigger + 1 then .idle else .foreach)).Covered
        (fun q => 0 < q.trigger) Pc.attends := by
      intro q
      refine hc.attended.enter (fun _ => ?_) fun _ hw => by simp [h, Pc.attends, Pc.works] at hw
      split
      · exact .inl (by omega)
      · exact .inr rfl
    exact {
      hc with
      trigger := by simp only [State.enter_shared]; omega
      enters := hc.enters_keep rfl rfl (by split <;> simp [Pc.enters])
      adding := ⟨n', hcount, by simp only [State.enter_shared]; omega⟩
      calls := hc.calls_keep rfl le_rfl fun _ => by simp [h, Pc.calls, Pc.adding]
      busy := hc.busy_keep le_rfl (by split <;> simp [Pc.works])
      worker := hc.worker_keep id (by rw [h]; split <;> rfl)
      unique := hc.unique.enter (by split <;> simp [Pc.works])
      fits := hc.fits_keep (Int.le_add_one le_rfl) (by split <;> trivial)
      attended := hatt _ }
  | busy h h1 =>
    obtain ⟨u, hu, hle, hle'⟩ := hc.calls
    obtain ⟨u', hu', hcount⟩ := count_lt (p := .idle) hu
      { s.shared with runNum := s.shared.runNum + 1 } (k := k) (by rw [h]; rfl) rfl
    obtain ⟨i, hi⟩ := hc.worker h1
    have hik : i ≠ k := by
      rintro rfl
      simp [h, Pc.works] at hi
    exact {
      hc with
      runNum := by simp only [State.enter_shared]; omega
      enters := hc.enters_keep rfl rfl (by simp [Pc.enters])
      adding := hc.adding_keep rfl le_rfl (by simp [Pc.adding])
      calls := ⟨u', hcount, by simp only [State.enter_shared]; omega,
        by simp only [State.enter_shared]; omega⟩
      busy := hc.busy_keep (Int.le_add_one le_rfl) (by simp [Pc.works])
      worker := hc.worker_keep (fun _ => h1) (by rw [h]; rfl)
      unique := hc.unique.enter (by simp [Pc.works])
      fits := hc.fits_keep le_rfl trivial
      attended := hc.attended.enter .inl fun _ _ => .inr ⟨i, hik, Pc.attends_of_works hi⟩ }
  | @sub m h =>
    have hw : (s.pc k).works := by rw [h]; rfl
    rw [h] at hfit
    simp only [Pc.Fits] at hfit
    have hfits : ∀ q, (s.enter q k (loop (s.shared.trigger + m) 0)).shared.trigger =
        s.shared.trigger + m → (s.enter q k (loop (s.shared.trigger + m) 0)).Facts
          fun q p => p.Fits q.trigger := by
      intro q hq
      refine hc.fits.enter (fun i hik _ => Pc.fits_of_not_works (hc.alone hw hik)) ?_
      simp only [State.enter_shared] at hq
      exact Pc.loop_fits (by omega) le_rfl hq.ge
    exact {
      hc with
      trigger := by simp only [State.enter_shared]; omega
      enters := hc.enters_keep rfl rfl (by simp)
      adding := hc.adding_keep rfl (by simp only; omega) (by simp)
      calls := hc.calls_keep rfl le_rfl fun _ => by simp [h, Pc.calls, Pc.attends, Pc.works]
      busy := hc.busy_keep le_rfl fun _ => hw
      worker := hc.worker_keep id (by simpa using hw.symm)
      unique := hc.unique.enter fun _ => hw
      fits := hfits _ rfl
      attended := hc.attended_keep (by simp only; omega) (by simp) }
  | stop h =>
    have hw : (s.pc k).works := by rw [h]; rfl
    have hnone : ∀ i, ((s.enter { s.shared with runNum := 0 } k .recheck).pc i).works = false := by
      intro i
      rcases eq_or_ne i k with rfl | hik
      · simp [Pc.works]
      · simpa [hik] using hc.alone hw hik
    exact {
      hc with
      runNum := le_rfl
      enters := hc.enters_keep rfl rfl (by simp [Pc.enters])
      adding := hc.adding_keep rfl le_rfl (by simp [Pc.adding])
      calls := hc.calls_keep rfl hR fun _ => by simp [h, Pc.calls, Pc.attends, Pc.works]
      busy := fun i hi => by simp [hnone i] at hi
      worker := fun h1 => by simp at h1
      unique := fun i l hi => by simp [hnone i] at hi
      fits := hc.fits_keep le_rfl trivial
      attended := hc.attended_keep id fun _ _ => rfl }

theorem start (hc : Counters s) (hk : s.pc k = .foreach) (h0 : s.shared.runNum = 0)
    (hjk : j ≠ k) (hj : s.pc j = .idle) :
    Counters ((s.enter { s.shared with runNum := 1 } k .idle).enter { s.shared with runNum := 1 } j
      .load) := by
  have hR := hc.runNum
  obtain ⟨u, hu, hle, hle'⟩ := hc.calls
  obtain ⟨u₁, hu₁, hc₁⟩ := count_lt hu { s.shared with runNum := 1 } (p := .idle) (by rw [hk]; rfl)
    rfl
  obtain ⟨u₂, hc₂, hu₂⟩ := State.Total.enter hc₁ { s.shared with runNum := 1 } j .load
  have hnone : ∀ i, ((s.enter { s.shared with runNum := 1 } k .idle).pc i).works = false := by
    intro i
    rcases eq_or_ne i k with rfl | hik
    · simp [Pc.works]
    · by_contra hi
      have := hc.busy i (by simpa [hik] using hi)
      omega
  have hcount {T : Pc G → Bool} {n : Nat} (hn : s.Count T n) (hl : T .load = false)
      (hi : T .idle = false) : ∃ n' ≤ n, ((s.enter { s.shared with runNum := 1 } k .idle).enter
        { s.shared with runNum := 1 } j .load).Count T n' := by
    obtain ⟨n₁, h₁, hn₁⟩ := count_le hn { s.shared with runNum := 1 } (k := k) (p := .idle)
      (by simp [hi])
    obtain ⟨n₂, h₂, hn₂⟩ := count_le hn₁ { s.shared with runNum := 1 } (k := j) (p := .load)
      (by simp [hl])
    exact ⟨n₂, h₂.trans h₁, hn₂⟩
  obtain ⟨n, hn, hnle⟩ := hc.enters
  obtain ⟨n₂, hn₂, hcn⟩ := hcount hn rfl rfl
  obtain ⟨a, ha, hale⟩ := hc.adding
  obtain ⟨a₂, ha₂, hca⟩ := hcount ha rfl rfl
  have hj' : (s.enter { s.shared with runNum := 1 } k .idle).pc j = .idle := by simp [hjk, hj]
  rw [hj'] at hu₂
  simp only [Pc.calls, Pc.adding, Pc.attends, Pc.works, Bool.or_self, Bool.false_or,
    Bool.toNat_false, Bool.toNat_true] at hu₂
  exact {
    adds := hc.adds
    idx := hc.idx
    trigger := hc.trigger
    runNum := by simp
    enters := ⟨n₂, hcn, by simp only [State.enter_shared]; omega⟩
    adding := ⟨a₂, hca, by simp only [State.enter_shared]; omega⟩
    calls := ⟨u₂,
      hc₂, by simp only [State.enter_shared]; omega, by simp only [State.enter_shared]; omega⟩
    busy := fun _ _ => le_rfl
    worker := fun _ => ⟨j, by simp [Pc.works]⟩
    unique := State.Unique.enter_first hnone
    fits := by
      have hk : (s.enter { s.shared with runNum := 1 } k .idle).Facts fun q p => p.Fits q.trigger :=
        hc.fits.enter (fun _ _ h => h) trivial
      exact hk.enter (fun _ _ h => h) trivial
    attended := fun _ => ⟨j, by simp [Pc.attends, Pc.works]⟩ }

theorem step [DecidableEq G] {grow : Nat → Nat → Nat} {a : Label G} (hc : Counters s)
    (hg : a.admitted s = true) (hs : step grow s a = some s') : Counters s' := by
  cases a with
  | add k gts =>
    obtain ⟨hk, hs⟩ := Option.ite_none_right_eq_some.mp hs
    cases hs
    obtain ⟨n, hn, hle⟩ := hc.enters
    obtain ⟨n', hn', he⟩ := State.Total.enter hn { s.shared with adds := s.shared.adds + 1 } k
      (.addState gts)
    obtain ⟨b, hb, hble⟩ := hc.adding
    obtain ⟨b', hb', hbe⟩ := State.Total.enter hb { s.shared with adds := s.shared.adds + 1 } k
      (.addState gts)
    obtain ⟨u, hu, hule, hule'⟩ := hc.calls
    obtain ⟨u', hu', hue⟩ := State.Total.enter hu { s.shared with adds := s.shared.adds + 1 } k
      (.addState gts)
    rw [hk] at he hbe hue
    simp only [Pc.enters, Pc.adding, Pc.calls, Pc.attends, Pc.works, Bool.toNat_false,
      Bool.toNat_true, Bool.or_false, Nat.add_zero] at he hbe hue
    exact {
      hc with
      adds := (Label.admitted_add hg).2
      enters := ⟨n', hn', by simp only [State.enter_shared]; omega⟩
      adding := ⟨b', hb', by simp only [State.enter_shared]; omega⟩
      calls := ⟨u',
        hu', by simp only [State.enter_shared]; omega, by simp only [State.enter_shared]; omega⟩
      busy := hc.busy_keep le_rfl (by simp [Pc.works])
      worker := hc.worker_keep id (by rw [hk]; rfl)
      unique := hc.unique.enter (by simp [Pc.works])
      fits := hc.fits_keep le_rfl trivial
      attended := hc.attended_keep id (by simp [hk, Pc.attends, Pc.works]) }
  | close k =>
    obtain ⟨hk, hs⟩ := Option.ite_none_right_eq_some.mp hs
    cases hs
    refine hc.move (.keep rfl rfl rfl rfl (by simp [Pc.enters]) (by simp [Pc.adding])
      (by simp [Pc.calls, Pc.adding, Pc.attends, Pc.works]) (by rw [hk]; rfl)
      (by simp [hk, Pc.attends, Pc.works]) trivial)
  | run k j =>
    rcases State.run_cases hs with ⟨c, p, hn, rfl⟩ | ⟨c, p, t, hn, -, hjk, hj, rfl⟩
    · exact hc.move (next_counters hn (hc.bounded k) (hc.fits k))
    · have hm := next_counters hn (hc.bounded k) (hc.fits k)
      generalize hp : s.pc k = p₀ at hm
      cases hm with
      | start h h0 => exact hc.start (hp.trans h) h0 hjk hj

theorem init (size : Nat) : Counters (init size : System G) where
  adds := by simp [Mux.init, newShardQueue]
  idx := le_rfl
  trigger := le_rfl
  runNum := le_rfl
  enters := ⟨0, State.Total.zero fun _ => rfl, le_rfl⟩
  adding := ⟨0, State.Total.zero fun _ => rfl, le_rfl⟩
  calls := ⟨0, State.Total.zero fun _ => rfl, le_rfl, by simp [Mux.init, newShardQueue]⟩
  busy := nofun
  worker := fun h => by simp [Mux.init, newShardQueue] at h
  unique := nofun
  fits := fun _ => trivial
  attended := fun h => by simp [Mux.init, newShardQueue] at h

end Counters

end Netpoll.Mux
