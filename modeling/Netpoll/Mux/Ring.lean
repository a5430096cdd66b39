import Mathlib.Data.List.Perm.Subperm
import Netpoll.Lib.RingBuffer
import Netpoll.Mux.Counters

namespace Netpoll.Mux

open Netpoll.Lib.Threads Netpoll.Lib.Slices Netpoll.Lib.Transition Netpoll.Lib.RingBuffer

variable {G : Type*}

namespace Pc

def inside : Pc G → Option Nat
  | addLen i _ | addAppend i _ _ | addUnlock i _ | swap i _ _ | swapUnlock i _ _ => some i
  | _ => none

def token : Pc G → Option Nat
  | addUnlock i true | listLock i | listWrite i | swapLock i _ _ | swap i _ _ => some i
  | _ => none

def wrote : Pc G → Bool
  | listUnlock | trigger => true
  | _ => false

def taken : Pc G → Nat
  | read _ m | sub m => (-m).toNat
  | swapLock _ _ m | swap _ _ m | swapUnlock _ _ m | deal _ _ _ _ m => (1 - m).toNat
  | _ => 0

def entries (ring : List Nat) : Pc G → List Nat
  | listWrite i => ring ++ [i]
  | read .. => ring.tail
  | _ => ring

def Sane (q : Queue G) : Pc G → Prop
  | outOfRange => False
  | addState gts | addIdx gts => gts ≠ []
  | addLock i gts | addLen i gts => i < q.size ∧ gts ≠ []
  | addAppend i b gts => i < q.size ∧ gts ≠ [] ∧ b = ((q.getters i).len == 0)
  | addUnlock i _ | listLock i | listWrite i | swapLock i _ _ | swap i _ _ | swapUnlock i _ _
  | deal i _ _ _ _ => i < q.size
  | _ => True

theorem taken_of_not_works {p : Pc G} (h : p.works = false) : p.taken = 0 := by
  cases p <;> simp_all [works, taken]

theorem loop_taken {n m : Int} (hn : 0 < n) : (loop n m : Pc G).taken = (-m).toNat := by
  simp [loop, hn, taken]

@[simp] theorem loop_zero_taken (n : Int) : (loop n 0 : Pc G).taken = 0 := by
  unfold loop
  split <;> rfl

@[simp] theorem loop_token (n m : Int) : (loop n m : Pc G).token = none := by
  unfold loop
  split <;> rfl

@[simp] theorem loop_wrote (n m : Int) : (loop n m : Pc G).wrote = false := by
  unfold loop
  split <;> rfl

@[simp] theorem loop_inside (n m : Int) : (loop n m : Pc G).inside = none := by
  unfold loop
  split <;> rfl

@[simp] theorem loop_sane (q : Queue G) (n m : Int) : (loop n m : Pc G).Sane q := by
  unfold loop
  split <;> trivial

end Pc

inductive RingMove (q : Queue G) (p : Pc G) : Queue G → Pc G → Prop
  | keep {q' p'} : (∀ ring, p.entries ring = ring) → q'.size = q.size → q'.w = q.w → q'.r = q.r →
      q'.list = q.list → q'.trigger = q.trigger → q'.getters = q.getters → p'.token = p.token →
      p'.wrote = p.wrote → p'.taken = p.taken → RingMove q p q' p'
  | append {i b gts s heap accepted} : p = .addAppend i b gts →
      s.len = (q.getters i).len + gts.length →
      RingMove q p { q with heap, getters := Function.update q.getters i s, accepted }
        (.addUnlock i b)
  | write {i} : p = .listWrite i → RingMove q p
      { q with w := (q.w + 1) % q.size, list := Function.update q.list ((q.w + 1) % q.size) i }
      .listUnlock
  | announce {p'} : p = .trigger → p'.token = none → p'.wrote = false → p'.taken = 0 →
      RingMove q p { q with trigger := q.trigger + 1 } p'
  | read {n m} : p = .read n m → RingMove q p { q with r := (q.r + 1) % q.size }
      (.swapLock (q.list ((q.r + 1) % q.size)) n m)
  | swap {i n m} : p = .swap i n m → RingMove q p
      { q with getters := Function.update q.getters i q.swap.reset, swap := q.getters i }
      (.swapUnlock i n m)
  | sub {m} : p = .sub m →
      RingMove q p { q with trigger := q.trigger + m } (loop (q.trigger + m) 0)

section Next

variable {grow : Nat → Nat → Nat} {q q' : Queue G} {k j : Nat} {p p' : Pc G} {t : Option (Pc G)}

theorem next_ring (hn : next grow q k j p = some ⟨q', p', t⟩) (hb : Bounded q p)
    (hf : p.Fits q.trigger) : RingMove q p q' p' := by
  obtain ⟨ht0, ht1, ht⟩ := hb.trigger
  cases p with
  | idle | outOfRange => simp [next] at hn
  | addLock i gts | swapLock i n d | listLock i =>
    simp only [next] at hn
    split at hn
    · cases hn
    · cases hn
      exact .keep (fun _ => rfl) rfl rfl rfl rfl rfl rfl rfl rfl rfl
  | addAppend i b gts =>
    cases hn
    exact .append rfl Heap.append_len
  | listWrite i =>
    cases hn
    exact .write rfl
  | trigger =>
    have hw : addInt32 q.trigger 1 = q.trigger + 1 := addInt32_eq (by omega) (ht rfl)
    simp only [next, hw] at hn
    cases hn
    split <;> exact .announce rfl rfl rfl rfl
  | read n d =>
    cases hn
    exact .read rfl
  | swap i n d =>
    cases hn
    exact .swap rfl
  | load =>
    cases hn
    exact .keep (fun _ => rfl) rfl rfl rfl rfl rfl rfl (Pc.loop_token _ _) (Pc.loop_wrote _ _)
      (Pc.loop_zero_taken _)
  | deal i gts l n d =>
    obtain ⟨hd, hnd⟩ := deal_end hf ht1
    simp only [next] at hn
    split at hn
    · cases hn
      exact .keep (fun _ => rfl) rfl rfl rfl rfl rfl rfl rfl rfl rfl
    · simp only [hd, hnd] at hn
      cases hn
      simp only [Pc.Fits] at hf
      have htk : (1 - d).toNat = (-(d - 1)).toNat := by
        congr 1
        omega
      split
      · exact .keep (fun _ => rfl) rfl rfl rfl rfl rfl rfl rfl rfl htk.symm
      · exact .keep (fun _ => rfl) rfl rfl rfl rfl rfl rfl (Pc.loop_token _ _) (Pc.loop_wrote _ _)
          ((Pc.loop_taken (by omega)).trans htk.symm)
  | sub d =>
    have hw : addInt32 q.trigger d = q.trigger + d := by
      simp only [Pc.Fits] at hf
      exact addInt32_eq (by omega) (by omega)
    simp only [next, hw] at hn
    cases hn
    exact .sub rfl
  | addUnlock i b =>
    cases hn
    cases b <;> exact .keep (fun _ => rfl) rfl rfl rfl rfl rfl rfl rfl rfl rfl
  | addState | addIdx | recheck | closeLoop | closeTrigger =>
    cases hn
    split <;> exact .keep (fun _ => rfl) rfl rfl rfl rfl rfl rfl rfl rfl rfl
  | closed =>
    cases hn
    split <;> exact .keep (fun _ => rfl) rfl rfl rfl rfl rfl rfl rfl rfl rfl
  | closeCas =>
    simp only [next] at hn
    split at hn <;> cases hn <;> exact .keep (fun _ => rfl) rfl rfl rfl rfl rfl rfl rfl rfl rfl
  | addLen | listUnlock | foreach | swapUnlock | flush | stop | closeStore | closeReturned =>
    cases hn
    exact .keep (fun _ => rfl) rfl rfl rfl rfl rfl rfl rfl rfl rfl

theorem next_locks (hn : next grow q k j p = some ⟨q', p', t⟩) (i : Nat) :
    State.LockStep (fun q : Queue G => q.locks i) (fun p => p.inside == some i) q k p q' p' := by
  cases p with
  | idle | outOfRange => simp [next] at hn
  | addLock l gts | swapLock l n d =>
    simp only [next] at hn
    split at hn
    · cases hn
    · rename_i hl
      cases hn
      rcases eq_or_ne i l with rfl | hil
      · exact .acquire (by simpa using hl) (by simp)
      · exact .keep (by simp [hil]) (by simp [Pc.inside, hil.symm])
  | addUnlock l b =>
    cases hn
    rcases eq_or_ne i l with rfl | hil
    · exact .release (by simp [Pc.inside]) (by cases b <;> simp [Pc.inside])
    · exact .keep (by simp [hil]) (by cases b <;> simp [Pc.inside, hil.symm])
  | swapUnlock l n d =>
    cases hn
    rcases eq_or_ne i l with rfl | hil
    · exact .release (by simp [Pc.inside]) (by simp [Pc.inside])
    · exact .keep (by simp [hil]) (by simp [Pc.inside, hil.symm])
  | listLock l | closeCas =>
    simp only [next] at hn
    split at hn <;> cases hn <;> exact .keep rfl rfl
  | deal l gts x n d =>
    simp only [next] at hn
    split at hn
    · cases hn
      exact .keep rfl rfl
    · cases hn
      refine .keep rfl ?_
      split
      · rfl
      · rw [Pc.loop_inside]
        rfl
  | load | sub =>
    cases hn
    refine .keep rfl ?_
    rw [Pc.loop_inside]
    rfl
  | addState | addIdx | trigger | recheck | closeLoop | closeTrigger =>
    cases hn
    split <;> exact .keep rfl rfl
  | closed =>
    cases hn
    split <;> exact .keep rfl rfl
  | addLen | addAppend | listWrite | listUnlock | foreach | read | swap | flush | stop | closeStore
  | closeReturned =>
    cases hn
    exact .keep rfl rfl

theorem next_getters (hn : next grow q k j p = some ⟨q', p', t⟩) (hb : Bounded q p)
    (hf : p.Fits q.trigger) {i : Nat} (hi : p.inside ≠ some i) : q'.getters i = q.getters i := by
  cases next_ring hn hb hf with
  | keep _ _ _ _ _ _ hg => rw [hg]
  | append h =>
    subst h
    exact Function.update_of_ne (fun he => hi (by rw [he]; rfl)) _ _
  | swap h =>
    subst h
    exact Function.update_of_ne (fun he => hi (by rw [he]; rfl)) _ _
  | write | announce | read | sub => rfl

theorem next_size (hn : next grow q k j p = some ⟨q', p', t⟩) (hb : Bounded q p)
    (hf : p.Fits q.trigger) : q'.size = q.size := by
  cases next_ring hn hb hf with
  | keep _ h => exact h
  | append | write | announce | read | swap | sub => rfl

theorem Pc.Sane.other (hs : p.Sane q) (hsize : q'.size = q.size)
    (hg : ∀ i, p.inside = some i → q'.getters i = q.getters i) : p.Sane q' := by
  cases p with
  | addAppend i b gts => simpa only [Pc.Sane, hsize, hg i rfl] using hs
  | _ => simp_all [Pc.Sane]

theorem shard_lt (hsize : 1 ≤ q.size) {x : Int} (hx : 0 ≤ x) :
    0 ≤ q.shard x ∧ (q.shard x).toNat < q.size := by
  have h0 : 0 ≤ q.shard x := Int.tmod_nonneg _ hx
  have hlt : q.shard x < q.size := Int.tmod_lt_of_pos x (by omega)
  exact ⟨h0, by omega⟩

theorem next_sane (hn : next grow q k j p = some ⟨q', p', t⟩) (hb : Bounded q p) (hs : p.Sane q)
    (hsize : 1 ≤ q.size) (hread : ∀ n m, p = .read n m → q.list ((q.r + 1) % q.size) < q.size) :
    p'.Sane q' := by
  cases p with
  | idle | outOfRange => simp [next] at hn
  | addIdx gts =>
    obtain ⟨hi0, hi⟩ := hb.idx
    have hw : addInt32 q.idx 1 = q.idx + 1 := addInt32_eq (by omega) (hi rfl)
    obtain ⟨h0, hlt⟩ := shard_lt hsize (x := q.idx + 1) (by omega)
    simp only [next, hw, if_neg (Int.not_lt.mpr h0)] at hn
    cases hn
    exact ⟨hlt, hs⟩
  | addLock i gts | swapLock i n d | listLock i =>
    simp only [next] at hn
    split at hn
    · cases hn
    · cases hn
      exact hs
  | addLen i gts =>
    cases hn
    exact ⟨hs.1, hs.2, rfl⟩
  | addAppend i b gts =>
    cases hn
    exact hs.1
  | read n d =>
    cases hn
    exact hread n d rfl
  | deal i gts l n d =>
    simp only [next] at hn
    split at hn
    · cases hn
      exact hs
    · cases hn
      split
      · trivial
      · exact Pc.loop_sane q _ _
  | load | sub =>
    cases hn
    exact Pc.loop_sane _ _ _
  | addState =>
    cases hn
    split
    · exact hs
    · trivial
  | addUnlock i b =>
    cases hn
    split
    · exact hs
    · trivial
  | trigger | recheck | closeLoop | closeTrigger =>
    cases hn
    split <;> trivial
  | closed =>
    cases hn
    trivial
  | closeCas =>
    simp only [next] at hn
    split at hn <;> cases hn <;> trivial
  | listWrite | listUnlock | foreach | flush | stop | closeStore | closeReturned =>
    cases hn
    trivial
  | swap | swapUnlock =>
    cases hn
    exact hs

end Next

def Held (s : System G) : Prop :=
  ∀ i, s.Owned (fun q => q.locks i) fun p => p.inside == some i

inductive Claim
  | free | listed | held (k : Nat)
  deriving DecidableEq, Repr

def Claims (claim : Nat → Claim) (s : System G) : Prop :=
  ∀ i k, claim i = .held k ↔ (s.pc k).token = some i

section Claims

variable {s : System G} {claim : Nat → Claim} {k i : Nat} {q : Queue G} {p : Pc G}

theorem Claims.keep (hc : Claims claim s) (hp : p.token = (s.pc k).token) :
    Claims claim (s.enter q k p) := by
  intro i l
  rcases eq_or_ne l k with rfl | hlk
  · simpa [hp] using hc i l
  · simpa [hlk] using hc i l

theorem Claims.take (hc : Claims claim s) (hk : (s.pc k).token = none)
    (hi : ∀ l, claim i ≠ .held l) (hp : p.token = some i) :
    Claims (Function.update claim i (.held k)) (s.enter q k p) := by
  intro x l
  rcases eq_or_ne x i with rfl | hxi <;> rcases eq_or_ne l k with rfl | hlk
  · simp [hp]
  · have hno := mt (hc x l).mpr (hi l)
    simp [hlk, hno, hlk.symm]
  · have hno := (hc x l).not.mpr (by simp [hk])
    simp [hxi, hp, hno, hxi.symm]
  · simpa [hxi, hlk] using hc x l

theorem Claims.drop (hc : Claims claim s) {v : Claim} (hk : (s.pc k).token = some i)
    (hv : ∀ l, v ≠ .held l) (hp : p.token = none) :
    Claims (Function.update claim i v) (s.enter q k p) := by
  intro x l
  have own : claim i = .held k := (hc i k).mpr hk
  rcases eq_or_ne x i with rfl | hxi <;> rcases eq_or_ne l k with rfl | hlk
  · simp [hp, hv]
  · have hno : (s.pc l).token ≠ some x := fun h => hlk (by
      have := own.symm.trans ((hc x l).mpr h)
      exact (Claim.held.inj this).symm)
    simp [hlk, hno, hv]
  · have hno : claim x ≠ .held l := fun h => hxi (by
      have := hk.symm.trans ((hc x l).mp h)
      exact (Option.some.inj this).symm)
    simp [hxi, hp, hno]
  · simpa [hxi, hlk] using hc x l

end Claims

/-- The ring and the claims in a state. -/
structure Ring (s : System G) (ring : List Nat) (claim : Nat → Claim) : Prop where
  size : 1 ≤ s.shared.size
  holds : Holds s.shared.size s.shared.list s.shared.r s.shared.w ring
  nodup : ring.Nodup
  lt : ∀ i ∈ ring, i < s.shared.size
  listed : ∀ i, claim i = .listed ↔ i ∈ ring
  claims : Claims claim s
  full : ∀ i < s.shared.size, claim i = .free ↔ (s.shared.getters i).len = 0
  count : ∃ u d, s.Count Pc.wrote u ∧ s.Total Pc.taken d ∧ s.shared.trigger + u = ring.length + d

namespace Ring

variable {s : System G} {ring : List Nat} {claim : Nat → Claim} {k i : Nat} {q : Queue G} {p : Pc G}

theorem count_enter (hr : Ring s ring claim) (q : Queue G) (k : Nat) (p : Pc G) {t : Int} {l : Nat}
    (ht : t + p.wrote.toNat + ring.length + (s.pc k).taken =
      s.shared.trigger + (s.pc k).wrote.toNat + l + p.taken) :
    ∃ u d, (s.enter q k p).Count Pc.wrote u ∧ (s.enter q k p).Total Pc.taken d ∧ t + u = l + d := by
  obtain ⟨u, d, hu, hd, he⟩ := hr.count
  obtain ⟨u', hu', hue⟩ := State.Total.enter hu q k p
  obtain ⟨d', hd', hde⟩ := hd.enter q k p
  exact ⟨u', d', hu', hd', by omega⟩

theorem length_lt (hr : Ring s ring claim) (hi : i ∉ ring) (hlt : i < s.shared.size) :
    ring.length < s.shared.size := by
  have hnd : (i :: ring).Nodup := List.nodup_cons.mpr ⟨hi, hr.nodup⟩
  have hsub : (i :: ring) ⊆ List.range s.shared.size := by
    intro x hx
    rcases List.mem_cons.mp hx with rfl | hx
    · exact List.mem_range.mpr hlt
    · exact List.mem_range.mpr (hr.lt x hx)
  simpa [Nat.succ_le_iff] using (List.subperm_of_subset hnd hsub).length_le

theorem keep (hr : Ring s ring claim) (hsize : q.size = s.shared.size) (hw : q.w = s.shared.w)
    (hrd : q.r = s.shared.r) (hl : q.list = s.shared.list) (ht : q.trigger = s.shared.trigger)
    (hg : q.getters = s.shared.getters) (htok : p.token = (s.pc k).token)
    (hwr : p.wrote = (s.pc k).wrote) (htk : p.taken = (s.pc k).taken) :
    Ring (s.enter q k p) ring claim where
  size := hsize ▸ hr.size
  holds := by simpa only [State.enter_shared, hsize, hw, hrd, hl] using hr.holds
  nodup := hr.nodup
  lt := by simpa only [State.enter_shared, hsize] using hr.lt
  listed := hr.listed
  claims := hr.claims.keep htok
  full := by simpa only [State.enter_shared, hsize, hg] using hr.full
  count := hr.count_enter q k p (by simp only [State.enter_shared, ht, hwr, htk])

theorem append (hr : Ring s ring claim) {b : Bool} {gts : List G} {a : Slice} {heap : Heap G}
    {accepted : Nat → List G} (hp : s.pc k = .addAppend i b gts) (hsane : (s.pc k).Sane s.shared)
    (ha : a.len = (s.shared.getters i).len + gts.length) :
    ∃ claim', Ring (s.enter { s.shared with
      heap, getters := Function.update s.shared.getters i a, accepted } k
        (.addUnlock i b)) ring claim' := by
  rw [hp] at hsane
  obtain ⟨hi, hgts, hb⟩ := hsane
  have hpos : a.len ≠ 0 := by
    have := List.length_pos_of_ne_nil hgts
    omega
  have hcount := hr.count_enter { s.shared with
      heap, getters := Function.update s.shared.getters i a, accepted } k (.addUnlock i b)
    (t := s.shared.trigger) (l := ring.length) (by simp [hp, Pc.wrote, Pc.taken])
  cases b with
  | false =>
    have hlen : (s.shared.getters i).len ≠ 0 := by simpa using hb.symm
    refine ⟨claim,
      { hr with claims := hr.claims.keep (by rw [hp]; rfl), full := ?_, count := hcount }⟩
    intro x hx
    rcases eq_or_ne x i with rfl | hxi
    · simpa [hpos] using (hr.full x hx).not.mpr hlen
    · simpa [hxi] using hr.full x hx
  | true =>
    have hlen : (s.shared.getters i).len = 0 := by simpa using hb.symm
    have hfree : claim i = .free := (hr.full i hi).mpr hlen
    refine ⟨Function.update claim i (.held k), { hr with
      listed := ?_, full := ?_, count := hcount
      claims := hr.claims.take (by rw [hp]; rfl) (by simp [hfree]) rfl }⟩
    · intro x
      rcases eq_or_ne x i with rfl | hxi
      · have hno := (hr.listed x).not.mp (by simp [hfree])
        simp [hno]
      · simpa [hxi] using hr.listed x
    · intro x hx
      rcases eq_or_ne x i with rfl | hxi
      · simp [hpos]
      · simpa [hxi] using hr.full x hx

theorem write (hr : Ring s ring claim) (hp : s.pc k = .listWrite i)
    (hsane : (s.pc k).Sane s.shared) :
    Ring (s.enter { s.shared with
        w := (s.shared.w + 1) % s.shared.size
        list := Function.update s.shared.list ((s.shared.w + 1) % s.shared.size) i } k .listUnlock)
      (ring ++ [i]) (Function.update claim i .listed) := by
  rw [hp] at hsane
  have hown : claim i = .held k := (hr.claims i k).mpr (by rw [hp]; rfl)
  have hi : i ∉ ring := (hr.listed i).not.mp (by simp [hown])
  refine { hr with
    holds := hr.holds.push (hr.length_lt hi hsane) i
    nodup := ?_, lt := ?_, listed := ?_, full := ?_
    claims := hr.claims.drop (by rw [hp]; rfl) nofun rfl
    count := hr.count_enter _ k _ (by simp [hp, Pc.wrote, Pc.taken]; omega) }
  · exact hr.nodup.append (List.nodup_singleton i) (by simpa using hi)
  · intro x hx
    rcases List.mem_append.mp hx with hx | hx
    · exact hr.lt x hx
    · exact List.mem_singleton.mp hx ▸ hsane
  · intro x
    rcases eq_or_ne x i with rfl | hxi
    · simp
    · simpa [hxi] using hr.listed x
  · intro x hx
    rcases eq_or_ne x i with rfl | hxi
    · simpa [hown] using hr.full x hx
    · simpa [hxi] using hr.full x hx

theorem announce (hr : Ring s ring claim) (hp : s.pc k = .trigger) (htok : p.token = none)
    (hwr : p.wrote = false) (htk : p.taken = 0) :
    Ring (s.enter { s.shared with trigger := s.shared.trigger + 1 } k p) ring claim :=
  { hr with
    claims := hr.claims.keep (by rw [hp, htok]; rfl)
    count := hr.count_enter _ k _ (by
      rw [hp, hwr, htk]
      simp [Pc.wrote, Pc.taken]) }

theorem exists_entry (hr : Ring s ring claim) (hc : Counters s) {n m : Int}
    (hp : s.pc k = .read n m) :
    ∃ x rest, ring = x :: rest := by
  obtain ⟨u, d, -, hd, he⟩ := hr.count
  have hw : (s.pc k).works := by rw [hp]; rfl
  have hfit : (s.pc k).Fits s.shared.trigger := hc.fits k
  have hdk := hd.eq_of_alone (k := k) fun i hik => Pc.taken_of_not_works (hc.alone hw hik)
  rw [hp] at hdk hfit
  simp only [Pc.taken, Pc.Fits] at hdk hfit
  cases ring with
  | nil =>
    simp only [List.length_nil] at he
    omega
  | cons x rest => exact ⟨x, rest, rfl⟩

theorem read {x : Nat} {rest : List Nat} (hr : Ring s (x :: rest) claim) {n m : Int}
    (hp : s.pc k = .read n m) (hm : m ≤ 0) :
    s.shared.list ((s.shared.r + 1) % s.shared.size) = x ∧
      Ring (s.enter { s.shared with r := (s.shared.r + 1) % s.shared.size } k (.swapLock x n m))
        rest (Function.update claim x (.held k)) := by
  obtain ⟨hx, hpop⟩ := hr.holds.pop
  have hlisted : claim x = .listed := (hr.listed x).mpr (by simp)
  obtain ⟨hxr, hnd⟩ := List.nodup_cons.mp hr.nodup
  refine ⟨hx, { hr with
    holds := hpop, nodup := hnd, lt := fun i hi => hr.lt i (List.mem_cons_of_mem _ hi)
    listed := ?_, full := ?_
    claims := hr.claims.take (by rw [hp]; rfl) (by simp [hlisted]) rfl
    count := hr.count_enter _ k _ ?_ }⟩
  · intro i
    rcases eq_or_ne i x with rfl | hix
    · simp [hxr]
    · simpa [hix] using hr.listed i
  · intro i hi
    rcases eq_or_ne i x with rfl | hix
    · simpa [hlisted] using hr.full i hi
    · simpa [hix] using hr.full i hi
  · simp only [State.enter_shared, hp, Pc.wrote, Pc.taken, Bool.toNat_false, List.length_cons]
    omega

theorem swap (hr : Ring s ring claim) {n m : Int} (hp : s.pc k = .swap i n m) :
    Ring (s.enter { s.shared with
        getters := Function.update s.shared.getters i s.shared.swap.reset
        swap := s.shared.getters i } k (.swapUnlock i n m))
      ring (Function.update claim i .free) := by
  have hown : claim i = .held k := (hr.claims i k).mpr (by rw [hp]; rfl)
  have hi : i ∉ ring := (hr.listed i).not.mp (by simp [hown])
  refine { hr with
    listed := ?_, full := ?_
    claims := hr.claims.drop (by rw [hp]; rfl) nofun rfl
    count := hr.count_enter _ k _ (by simp [hp, Pc.wrote, Pc.taken]) }
  · intro x
    rcases eq_or_ne x i with rfl | hxi
    · simp [hi]
    · simpa [hxi] using hr.listed x
  · intro x hx
    rcases eq_or_ne x i with rfl | hxi
    · simp [Slice.reset]
    · simpa [hxi] using hr.full x hx

theorem sub (hr : Ring s ring claim) {m : Int} (hp : s.pc k = .sub m) (hm : m ≤ 0) :
    Ring (s.enter { s.shared with trigger := s.shared.trigger + m } k
      (loop (s.shared.trigger + m) 0)) ring claim :=
  { hr with
    claims := hr.claims.keep (by rw [hp, Pc.loop_token]; rfl)
    count := hr.count_enter _ k _ (by
      rw [hp, Pc.loop_wrote, Pc.loop_zero_taken]
      simp only [State.enter_shared, Pc.wrote, Pc.taken, Bool.toNat_false]
      omega) }

theorem move (hr : Ring s ring claim) (hc : Counters s) (hsane : (s.pc k).Sane s.shared)
    (hm : RingMove s.shared (s.pc k) q p) :
    ∃ claim', Ring (s.enter q k p) ((s.pc k).entries ring) claim' := by
  have hfit : (s.pc k).Fits s.shared.trigger := hc.fits k
  cases hm with
  | keep h0 h1 h2 h3 h4 h5 h6 h7 h8 h9 =>
    rw [h0]
    exact ⟨claim, hr.keep h1 h2 h3 h4 h5 h6 h7 h8 h9⟩
  | append hp ha =>
    simp only [hp, Pc.entries]
    exact hr.append hp hsane ha
  | write hp =>
    simp only [hp, Pc.entries]
    exact ⟨_, hr.write hp hsane⟩
  | announce hp h1 h2 h3 =>
    simp only [hp, Pc.entries]
    exact ⟨claim, hr.announce hp h1 h2 h3⟩
  | read hp =>
    rw [hp] at hfit
    obtain ⟨x, rest, rfl⟩ := hr.exists_entry hc hp
    obtain ⟨hx, hr'⟩ := hr.read hp hfit.2.1
    simp only [hp, Pc.entries]
    exact ⟨_, hx ▸ hr'⟩
  | swap hp =>
    simp only [hp, Pc.entries]
    exact ⟨_, hr.swap hp⟩
  | sub hp =>
    rw [hp] at hfit
    simp only [hp, Pc.entries]
    exact ⟨claim, hr.sub hp hfit.1⟩

theorem init {size : Nat} (hsize : 1 ≤ size) : Ring (init size : System G) [] fun _ => .free where
  size := hsize
  holds := ⟨by simp [Mux.init, newShardQueue], nofun⟩
  nodup := .nil
  lt := nofun
  listed := by simp
  claims := by simp [Claims, Mux.init, Pc.token]
  full := by simp [Mux.init, newShardQueue]
  count := ⟨0, 0, State.Total.zero fun _ => rfl, State.Total.zero fun _ => rfl, rfl⟩

end Ring

def Label.entries (s : System G) (ring : List Nat) : Label G → List Nat
  | .run k _ => (s.pc k).entries ring
  | _ => ring

structure Announced (s : System G) : Prop where
  counters : Counters s
  locks : Held s
  sane : s.Facts fun q p => p.Sane q
  ring : ∃ ring claim, Ring s ring claim

namespace Announced

variable {s s' : System G} {k j : Nat} {q : Queue G} {p : Pc G}

theorem getters_of_inside (ha : Announced s) {grow : Nat → Nat → Nat} {t : Option (Pc G)}
    (hn : next grow s.shared k j (s.pc k) = some ⟨q, p, t⟩) {i l : Nat} (hik : i ≠ k)
    (hl : (s.pc i).inside = some l) : q.getters l = s.shared.getters l := by
  refine next_getters hn (ha.counters.bounded k) (ha.counters.fits k) fun hk => hik ?_
  exact (ha.locks l).unique i k (by simp [hl]) (by simp [hk])

theorem task_load (ha : Announced s) {grow : Nat → Nat → Nat} {t : Pc G}
    (hn : next grow s.shared k j (s.pc k) = some ⟨q, p, some t⟩) : t = .load := by
  have hm := next_counters hn (ha.counters.bounded k) (ha.counters.fits k)
  generalize s.pc k = p₀ at hm
  cases hm
  rfl

theorem entry_lt (ha : Announced s) {n m : Int} (hp : s.pc k = .read n m) :
    s.shared.list ((s.shared.r + 1) % s.shared.size) < s.shared.size := by
  obtain ⟨ring, claim, hr⟩ := ha.ring
  obtain ⟨x, rest, rfl⟩ := hr.exists_entry ha.counters hp
  rw [hr.holds.pop.1]
  exact hr.lt x (by simp)

theorem ring_step [DecidableEq G] {grow : Nat → Nat → Nat} {a : Label G} (ha : Announced s)
    {ring : List Nat} {claim : Nat → Claim} (hr : Ring s ring claim)
    (hs : step grow s a = some s') :
    ∃ claim', Ring s' (a.entries s ring) claim' := by
  cases a with
  | add k gts | close k =>
    obtain ⟨hk, hs⟩ := Option.ite_none_right_eq_some.mp hs
    cases hs
    exact ⟨claim, hr.keep rfl rfl rfl rfl rfl rfl (by rw [hk]; rfl) (by rw [hk]; rfl)
      (by rw [hk]; rfl)⟩
  | run k j =>
    have hb := ha.counters.bounded k
    have hf : (s.pc k).Fits s.shared.trigger := ha.counters.fits k
    rcases State.run_cases hs with ⟨c, p, hn, rfl⟩ | ⟨c, p, t, hn, -, hjk, hj, rfl⟩
    · exact hr.move ha.counters (ha.sane k) (next_ring hn hb hf)
    · obtain ⟨claim', hr'⟩ := hr.move ha.counters (ha.sane k) (next_ring hn hb hf)
      have hj' : (s.enter c k p).pc j = .idle := by simp [hjk, hj]
      obtain rfl := ha.task_load hn
      exact ⟨claim', hr'.keep rfl rfl rfl rfl rfl rfl (by rw [hj']; rfl) (by rw [hj']; rfl)
        (by rw [hj']; rfl)⟩

theorem step [DecidableEq G] {grow : Nat → Nat → Nat} {a : Label G} (ha : Announced s)
    (hg : a.admitted s = true) (hs : step grow s a = some s') : Announced s' := by
  have hc' := ha.counters.step hg hs
  obtain ⟨ring, claim, hr⟩ := ha.ring
  have hr' : ∃ ring claim, Ring s' ring claim := ⟨_, ha.ring_step hr hs⟩
  cases a with
  | add k gts =>
    obtain ⟨hk, hs⟩ := Option.ite_none_right_eq_some.mp hs
    cases hs
    exact ⟨hc', fun i => (ha.locks i).keep rfl (by simp [Pc.inside]),
      ha.sane.enter (fun _ _ h => h.other rfl fun _ _ => rfl) (Label.admitted_add hg).1, hr'⟩
  | close k =>
    obtain ⟨hk, hs⟩ := Option.ite_none_right_eq_some.mp hs
    cases hs
    exact ⟨hc', fun i => (ha.locks i).keep rfl (by simp [Pc.inside]),
      ha.sane.enter (fun _ _ h => h) trivial, hr'⟩
  | run k j =>
    have hb := ha.counters.bounded k
    have hf : (s.pc k).Fits s.shared.trigger := ha.counters.fits k
    have sane {t : Option (Pc G)} {c : Queue G} {p : Pc G}
        (hn : next grow s.shared k j (s.pc k) = some ⟨c, p, t⟩) :
        (s.enter c k p).Facts fun q p => p.Sane q :=
      ha.sane.enter (fun i hik h => h.other (next_size hn hb hf)
        fun l hl => ha.getters_of_inside hn hik hl)
        (next_sane hn hb (ha.sane k) hr.size fun _ _ hp => ha.entry_lt hp)
    rcases State.run_cases hs with ⟨c, p, hn, rfl⟩ | ⟨c, p, t, hn, -, hjk, hj, rfl⟩
    · exact ⟨hc', fun i => (ha.locks i).step (next_locks hn i), sane hn, hr'⟩
    · obtain rfl := ha.task_load hn
      exact ⟨hc', fun i => ((ha.locks i).step (next_locks hn i)).keep rfl (by simp [Pc.inside]),
        (sane hn).enter (fun _ _ h => h) trivial, hr'⟩

theorem init {size : Nat} (hsize : 1 ≤ size) : Announced (init size : System G) where
  counters := .init size
  locks := fun i k hk => by simp [Mux.init, Pc.inside] at hk
  sane := fun _ => trivial
  ring := ⟨_, _, .init hsize⟩

end Announced

end Netpoll.Mux
