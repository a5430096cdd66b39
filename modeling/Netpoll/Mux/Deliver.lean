import Netpoll.Mux.Ring

namespace Netpoll.Mux

open Netpoll.Lib.Threads Netpoll.Lib.Slices Netpoll.Lib.Transition

variable {G : Type*}

namespace Pc

def batch (q : Queue G) : Pc G → Option (Nat × List G)
  | swapUnlock i _ _ => some (i, q.heap.view q.swap)
  | deal i gts t _ _ => some (i, (q.heap.view gts).drop t)
  | _ => none

def Deals (q : Queue G) : Pc G → Prop
  | deal _ gts _ _ _ => gts = q.swap
  | _ => True

def unflushed : Pc G → Bool
  | read .. | swapLock .. | swap .. | swapUnlock .. | deal .. | sub _ | flush => true
  | _ => false

@[simp] theorem loop_batch (q : Queue G) (n m : Int) : (loop n m : Pc G).batch q = none := by
  unfold loop
  split <;> rfl

@[simp] theorem loop_deals (q : Queue G) (n m : Int) : (loop n m : Pc G).Deals q := by
  unfold loop
  split <;> trivial

@[simp] theorem loop_unflushed (n m : Int) : (loop n m : Pc G).unflushed = true := by
  unfold loop
  split <;> rfl

theorem works_of_batch {q : Queue G} {p : Pc G} {b : Nat × List G} (h : p.batch q = some b) :
    p.works = true := by
  cases p <;> simp_all [batch, works]

theorem batch_congr {q q' : Queue G} {p : Pc G} (hd : p.Deals q)
    (hv : q'.heap.view q.swap = q.heap.view q.swap) (hs : q'.swap = q.swap) :
    p.batch q' = p.batch q := by
  cases p with
  | swapUnlock i n m => simp only [batch, hs, hv]
  | deal i gts t n m => simp only [batch, show gts = q.swap from hd, hv]
  | _ => rfl

theorem Deals.congr {q q' : Queue G} {p : Pc G} (hd : p.Deals q) (hs : q'.swap = q.swap) :
    p.Deals q' := by
  cases p <;> simp_all [Deals]

theorem deals_of_not_works {q : Queue G} {p : Pc G} (h : p.works = false) : p.Deals q := by
  cases p <;> simp_all [works, Deals]

end Pc

/-- Nothing has been called after the last flush. -/
def Flushed (log : List (Event G)) : Prop :=
  ∀ older newer shard g, log = older ++ .invoke shard g :: newer → .flush ∈ newer

theorem flushed_append_flush (log : List (Event G)) : Flushed (log ++ [.flush]) := by
  intro older newer i g he
  rcases List.append_eq_append_iff.mp he with ⟨l, rfl, hl⟩ | ⟨l, rfl, hl⟩
  · -- the flush would stand at or before the call
    cases l with
    | nil => simp at hl
    | cons e l =>
      have := congrArg List.length hl
      simp at this
  · cases l with
    | nil => simp at hl
    | cons e l =>
      obtain ⟨rfl, rfl⟩ := List.cons.inj hl
      simp

inductive ContentMove (grow : Nat → Nat → Nat) (q : Queue G) (p : Pc G) : Queue G → Pc G → Prop
  | keep {q' p'} : q'.size = q.size → q'.heap = q.heap → q'.getters = q.getters →
      q'.swap = q.swap → q'.accepted = q.accepted → q'.invoked = q.invoked →
      p'.batch q = p.batch q → p'.Deals q → ContentMove grow q p q' p'
  | append {i b gts} : p = .addAppend i b gts → ContentMove grow q p
      { q with
        heap := (q.heap.append grow (q.getters i) gts).1
        getters := Function.update q.getters i (q.heap.append grow (q.getters i) gts).2
        accepted := Function.update q.accepted i (q.accepted i ++ gts) } (.addUnlock i b)
  | swap {i n m} : p = .swap i n m → ContentMove grow q p
      { q with getters := Function.update q.getters i q.swap.reset, swap := q.getters i }
      (.swapUnlock i n m)
  | invoke {i gts t n m g} : p = .deal i gts t n m → (q.heap.view gts)[t]? = some g →
      ContentMove grow q p { q with log := q.log ++ [.invoke i g] } (.deal i gts (t + 1) n m)
  | done {i p'} : p.batch q = some (i, []) → p'.batch q = none → p'.Deals q →
      ContentMove grow q p q p'

section Next

variable {grow : Nat → Nat → Nat} {q q' : Queue G} {k j : Nat} {p p' : Pc G} {t : Option (Pc G)}

theorem next_content (hn : next grow q k j p = some ⟨q', p', t⟩) (hd : p.Deals q) :
    ContentMove grow q p q' p' := by
  cases p with
  | idle | outOfRange => simp [next] at hn
  | addLock i gts | swapLock i n d | listLock i =>
    simp only [next] at hn
    split at hn
    · cases hn
    · cases hn
      exact .keep rfl rfl rfl rfl rfl rfl rfl trivial
  | addAppend i b gts =>
    cases hn
    exact .append rfl
  | swap i n d =>
    cases hn
    exact .swap rfl
  | deal i gts l n d =>
    simp only [next] at hn
    split at hn
    · cases hn
      exact .invoke rfl ‹_›
    · rename_i hnone
      cases hn
      have hdrop : (q.heap.view gts).drop l = [] :=
        List.drop_eq_nil_of_le (List.getElem?_eq_none_iff.mp hnone)
      refine .done (i := i) (by simp only [Pc.batch, hdrop]) ?_ ?_
      · split
        · rfl
        · exact Pc.loop_batch q _ _
      · split
        · trivial
        · exact Pc.loop_deals q _ _
  | load | sub =>
    cases hn
    exact .keep rfl rfl rfl rfl rfl rfl (Pc.loop_batch q _ _) (Pc.loop_deals q _ _)
  | flush =>
    cases hn
    exact .keep rfl rfl rfl rfl rfl (by funext i; simp [Queue.invoked, called]) rfl trivial
  | swapUnlock i n d =>
    cases hn
    exact .keep rfl rfl rfl rfl rfl rfl (by simp [Pc.batch]) rfl
  | addState | addIdx | addUnlock | trigger | recheck | closeLoop | closeTrigger =>
    cases hn
    split <;> exact .keep rfl rfl rfl rfl rfl rfl rfl trivial
  | closed =>
    cases hn
    split <;> exact .keep rfl rfl rfl rfl rfl rfl rfl trivial
  | closeCas =>
    simp only [next] at hn
    split at hn <;> cases hn <;> exact .keep rfl rfl rfl rfl rfl rfl rfl trivial
  | addLen | listWrite | listUnlock | foreach | read | stop | closeStore | closeReturned =>
    cases hn
    exact .keep rfl rfl rfl rfl rfl rfl rfl trivial

theorem next_flushed (hn : next grow q k j p = some ⟨q', p', t⟩) :
    (q'.log = q.log ∧ (p.unflushed = true → p'.unflushed = true)) ∨
      (p.unflushed = true ∧ p'.unflushed = true) ∨ Flushed q'.log := by
  cases p with
  | idle | outOfRange => simp [next] at hn
  | flush =>
    cases hn
    exact .inr (.inr (flushed_append_flush q.log))
  | deal i gts l n d =>
    simp only [next] at hn
    split at hn
    · cases hn
      exact .inr (.inl ⟨rfl, rfl⟩)
    · cases hn
      refine .inr (.inl ⟨rfl, ?_⟩)
      split
      · rfl
      · exact Pc.loop_unflushed _ _
  | load | sub =>
    cases hn
    exact .inl ⟨rfl, fun _ => Pc.loop_unflushed _ _⟩
  | addLock i gts | swapLock i n d | listLock i =>
    simp only [next] at hn
    split at hn
    · cases hn
    · cases hn
      exact .inl ⟨rfl, by simp [Pc.unflushed]⟩
  | closeCas =>
    simp only [next] at hn
    split at hn <;> cases hn <;> exact .inl ⟨rfl, by simp [Pc.unflushed]⟩
  | closed =>
    cases hn
    refine .inl ⟨?_, by simp [Pc.unflushed]⟩
    split <;> rfl
  | _ =>
    cases hn
    exact .inl ⟨rfl, by simp [Pc.unflushed]⟩

end Next

def inHand (hand : Option (Nat × List G)) (i : Nat) : List G :=
  match hand with
  | some (l, gs) => if l = i then gs else []
  | none => []

structure Apart (q : Queue G) : Prop where
  shards : ∀ i < q.size, ∀ l < q.size, i ≠ l → (q.getters i).array ≠ (q.getters l).array
  swap : ∀ i < q.size, q.swap.array ≠ (q.getters i).array
  valid : ∀ i < q.size, q.heap.Valid (q.getters i)
  swapValid : q.heap.Valid q.swap

structure Contents (s : System G) (hand : Option (Nat × List G)) : Prop where
  apart : Apart s.shared
  deals : s.Facts fun q p => p.Deals q
  sole : s.Sole Pc.batch hand
  split : ∀ i < s.shared.size, s.shared.accepted i =
    s.shared.invoked i ++ inHand hand i ++ s.shared.heap.view (s.shared.getters i)
  outside : ∀ i, s.shared.size ≤ i → s.shared.accepted i = [] ∧ s.shared.invoked i = []

namespace Apart

variable {q : Queue G} {i : Nat}

theorem append (ha : Apart q) (grow : Nat → Nat → Nat) (hi : i < q.size) (gts : List G)
    (accepted : Nat → List G) :
    Apart { q with
      heap := (q.heap.append grow (q.getters i) gts).1
      getters := Function.update q.getters i (q.heap.append grow (q.getters i) gts).2,
        accepted } where
  shards := by
    intro x hx l hl hxl
    rcases eq_or_ne x i with rfl | hxi
    · simpa [hxl.symm] using ((ha.valid l hl).append_array_ne (ha.shards l hl x hx hxl.symm)).symm
    · rcases eq_or_ne l i with rfl | hli
      · simpa [hxi] using (ha.valid x hx).append_array_ne (ha.shards x hx l hl hxl)
      · simpa [hxi, hli] using ha.shards x hx l hl hxl
  swap := by
    intro x hx
    rcases eq_or_ne x i with rfl | hxi
    · simpa using ha.swapValid.append_array_ne (ha.swap x hx)
    · simpa [hxi] using ha.swap x hx
  valid := by
    intro x hx
    rcases eq_or_ne x i with rfl | hxi
    · simpa using (ha.valid x hx).append
    · simpa [hxi] using ((ha.valid x hx).append_other (ha.shards x hx i hi hxi)).2
  swapValid := (ha.swapValid.append_other (ha.swap i hi)).2

theorem exchange (ha : Apart q) (hi : i < q.size) :
    Apart { q with getters := Function.update q.getters i q.swap.reset, swap := q.getters i } where
  shards := by
    intro x hx l hl hxl
    rcases eq_or_ne x i with rfl | hxi
    · simpa [hxl.symm] using ha.swap l hl
    · rcases eq_or_ne l i with rfl | hli
      · simpa [hxi] using (ha.swap x hx).symm
      · simpa [hxi, hli] using ha.shards x hx l hl hxl
  swap := by
    intro x hx
    rcases eq_or_ne x i with rfl | hxi
    · simpa using (ha.swap x hx).symm
    · simpa [hxi] using ha.shards i hi x hx hxi.symm
  valid := by
    intro x hx
    rcases eq_or_ne x i with rfl | hxi
    · simpa using ha.swapValid.reset
    · simpa [hxi] using ha.valid x hx
  swapValid := ha.valid i hi

end Apart

namespace Contents

variable {s : System G} {hand : Option (Nat × List G)} {k i : Nat} {q : Queue G} {p : Pc G}

theorem batch_of_alone (hu : s.Unique Pc.works) (hk : (s.pc k).works) (q : Queue G) {l : Nat}
    (hl : l ≠ k) : (s.pc l).batch q = none := by
  by_contra hb
  obtain ⟨b, hb⟩ := Option.ne_none_iff_exists'.mp hb
  exact hl (hu l k (Pc.works_of_batch hb) hk)

theorem hand_eq (hc : Contents s hand) (hu : s.Unique Pc.works) (hk : (s.pc k).works) :
    hand = (s.pc k).batch s.shared :=
  hc.sole.eq_of_alone fun _ hl => batch_of_alone hu hk _ hl

theorem deals_alone (hu : s.Unique Pc.works) (hk : (s.pc k).works) (hp : p.Deals q) :
    (s.enter q k p).Facts fun q p => p.Deals q := by
  intro l
  rcases eq_or_ne l k with rfl | hlk
  · simpa using hp
  · refine Pc.deals_of_not_works ?_
    by_contra hl
    exact hlk (hu l k (by simpa [hlk] using hl) hk)

theorem keep (hc : Contents s hand) (hsize : q.size = s.shared.size)
    (hheap : q.heap = s.shared.heap) (hg : q.getters = s.shared.getters)
    (hsw : q.swap = s.shared.swap) (hacc : q.accepted = s.shared.accepted)
    (hinv : q.invoked = s.shared.invoked) (hb : p.batch s.shared = (s.pc k).batch s.shared)
    (hd : p.Deals s.shared) :
    Contents (s.enter q k p) hand where
  apart := by
    have ha := hc.apart
    exact ⟨by simpa only [State.enter_shared, hsize, hg] using ha.shards,
      by simpa only [State.enter_shared, hsize, hg, hsw] using ha.swap,
      by simpa only [State.enter_shared, hsize, hheap, hg] using ha.valid,
      by simpa only [State.enter_shared, hheap, hsw] using ha.swapValid⟩
  deals := hc.deals.enter (fun _ _ h => h.congr hsw) (hd.congr hsw)
  sole := by
    refine hc.sole.keep ?_ fun l _ => Pc.batch_congr (hc.deals l) (by rw [hheap]) hsw
    rw [Pc.batch_congr hd (by rw [hheap]) hsw, hb]
  split := by simpa only [State.enter_shared, hsize, hheap, hg, hacc, hinv] using hc.split
  outside := by simpa only [State.enter_shared, hsize, hacc, hinv] using hc.outside

theorem append (hc : Contents s hand) {grow : Nat → Nat → Nat} {b : Bool} {gts : List G}
    (hp : s.pc k = .addAppend i b gts) (hi : i < s.shared.size) :
    Contents (s.enter { s.shared with
      heap := (s.shared.heap.append grow (s.shared.getters i) gts).1
      getters := Function.update s.shared.getters i
        (s.shared.heap.append grow (s.shared.getters i) gts).2
      accepted := Function.update s.shared.accepted i (s.shared.accepted i ++ gts) } k
      (.addUnlock i b)) hand where
  apart := hc.apart.append grow hi gts _
  deals := hc.deals.enter (fun _ _ h => h.congr rfl) trivial
  sole := by
    have hv : (s.shared.heap.append grow (s.shared.getters i) gts).1.view s.shared.swap = _ :=
      (hc.apart.swapValid.append_other (hc.apart.swap i hi)).1
    exact hc.sole.keep (by rw [hp]; rfl) fun l _ => Pc.batch_congr (hc.deals l) hv rfl
  split := by
    intro x hx
    rcases eq_or_ne x i with rfl | hxi
    · have hv : (s.shared.heap.append grow (s.shared.getters x) gts).1.view
          (s.shared.heap.append grow (s.shared.getters x) gts).2 = _ :=
            (hc.apart.valid x hx).append_view
      simp only [State.enter_shared, Function.update_self, hv, hc.split x hx, List.append_assoc]
      rfl
    · have hv : (s.shared.heap.append grow (s.shared.getters i) gts).1.view (s.shared.getters x) =
        _ :=
        ((hc.apart.valid x hx).append_other (hc.apart.shards x hx i hi hxi)).1
      simp only [State.enter_shared, Function.update_of_ne hxi, hv]
      exact hc.split x hx
  outside := by
    intro x hx
    have hxi : x ≠ i := by
      rintro rfl
      exact absurd hi (Nat.not_lt.mpr hx)
    exact ⟨by simpa [hxi] using (hc.outside x hx).1, (hc.outside x hx).2⟩

theorem swap (hc : Contents s hand) (hu : s.Unique Pc.works) {n m : Int}
    (hp : s.pc k = .swap i n m) (hi : i < s.shared.size) :
    Contents (s.enter { s.shared with
      getters := Function.update s.shared.getters i s.shared.swap.reset
      swap := s.shared.getters i } k (.swapUnlock i n m))
      (some (i, s.shared.heap.view (s.shared.getters i))) := by
  have hk : (s.pc k).works := by rw [hp]; rfl
  have hnone : hand = none := (hc.hand_eq hu hk).trans (by rw [hp]; rfl)
  subst hnone
  refine ⟨hc.apart.exchange hi, deals_alone hu hk trivial,
    State.Sole.alone fun l hl => batch_of_alone hu hk _ hl, fun x hx => ?_, hc.outside⟩
  have hsplit := hc.split x hx
  simp only [inHand, List.append_nil] at hsplit
  rcases eq_or_ne x i with rfl | hxi
  · simp only [State.enter_shared, Function.update_self, Heap.view_reset, inHand, if_true,
      List.append_nil]
    exact hsplit
  · simp only [State.enter_shared, Function.update_of_ne hxi, inHand, if_neg hxi.symm,
      List.append_nil]
    exact hsplit

theorem invoked_append (q : Queue G) (x l : Nat) (g : G) :
    ({ q with log := q.log ++ [Event.invoke l g] } : Queue G).invoked x =
      q.invoked x ++ if l = x then [g] else [] := by
  simp only [Queue.invoked, called, List.filterMap_append]
  split <;> simp_all

theorem invoke (hc : Contents s hand) (hu : s.Unique Pc.works) {gts : Slice} {t : Nat} {n m : Int}
    {g : G} (hp : s.pc k = .deal i gts t n m) (hi : i < s.shared.size)
    (hg : (s.shared.heap.view gts)[t]? = some g) :
    Contents (s.enter { s.shared with log := s.shared.log ++ [.invoke i g] } k
      (.deal i gts (t + 1) n m)) (some (i, (s.shared.heap.view gts).drop (t + 1))) := by
  have hk : (s.pc k).works := by rw [hp]; rfl
  have hd : gts = s.shared.swap := by
    have := hc.deals k
    rwa [hp] at this
  have hhand : hand = some (i, (s.shared.heap.view gts).drop t) :=
    (hc.hand_eq hu hk).trans (by rw [hp]; rfl)
  subst hhand
  have hdrop : (s.shared.heap.view gts).drop t = g :: (s.shared.heap.view gts).drop (t + 1) := by
    obtain ⟨ht, rfl⟩ := List.getElem?_eq_some_iff.mp hg
    exact List.drop_eq_getElem_cons ht
  refine ⟨⟨hc.apart.shards, hc.apart.swap, hc.apart.valid, hc.apart.swapValid⟩,
    deals_alone hu hk hd, State.Sole.alone fun l hl => batch_of_alone hu hk _ hl, fun x hx => ?_,
    fun x hx => ?_⟩
  · have hsplit := hc.split x hx
    rw [State.enter_shared, invoked_append]
    simp only [inHand, hdrop] at hsplit ⊢
    split <;> simp_all
  · have hix : i ≠ x := by
      rintro rfl
      exact absurd hi (Nat.not_lt.mpr hx)
    rw [State.enter_shared, invoked_append, if_neg hix, List.append_nil]
    exact hc.outside x hx

theorem done (hc : Contents s hand) (hu : s.Unique Pc.works)
    (hb : (s.pc k).batch s.shared = some (i, [])) (hp : p.batch s.shared = none)
    (hd : p.Deals s.shared) : Contents (s.enter s.shared k p) none := by
  have hk : (s.pc k).works := Pc.works_of_batch hb
  have hhand : hand = some (i, []) := (hc.hand_eq hu hk).trans hb
  subst hhand
  refine ⟨hc.apart, deals_alone hu hk hd, ?_, fun x hx => ?_, hc.outside⟩
  · have hs : (s.enter s.shared k p).Sole Pc.batch (p.batch s.shared) :=
      .alone fun l hl => batch_of_alone hu hk _ hl
    rwa [hp] at hs
  · have hsplit := hc.split x hx
    simp only [inHand, ite_self] at hsplit ⊢
    exact hsplit

theorem move (hc : Contents s hand) (hu : s.Unique Pc.works) (hsane : (s.pc k).Sane s.shared)
    {grow : Nat → Nat → Nat} (hm : ContentMove grow s.shared (s.pc k) q p) :
    ∃ hand', Contents (s.enter q k p) hand' := by
  cases hm with
  | keep h1 h2 h3 h4 h5 h6 h7 h8 => exact ⟨hand, hc.keep h1 h2 h3 h4 h5 h6 h7 h8⟩
  | append hp =>
    rw [hp] at hsane
    exact ⟨hand, hc.append hp hsane.1⟩
  | swap hp =>
    rw [hp] at hsane
    exact ⟨_, hc.swap hu hp hsane⟩
  | invoke hp hg =>
    rw [hp] at hsane
    exact ⟨_, hc.invoke hu hp hsane hg⟩
  | done hb hp hd => exact ⟨none, hc.done hu hb hp hd⟩

theorem init (size : Nat) : Contents (init size : System G) none where
  apart := by
    refine ⟨fun i _ l _ hil => hil, fun i hi => ?_, fun i hi => ⟨?_, ?_⟩, ?_, ?_⟩ <;>
      simp [Mux.init, newShardQueue] at * <;> omega
  deals := fun _ => trivial
  sole := ⟨nofun, nofun⟩
  split := fun _ _ => rfl
  outside := fun _ _ => ⟨rfl, rfl⟩

end Contents

structure Delivering (s : System G) : Prop where
  announced : Announced s
  contents : ∃ hand, Contents s hand
  flushing : s.Covered (fun q => ¬ Flushed q.log) Pc.unflushed

theorem covered_flush {grow : Nat → Nat → Nat} {s : System G} {k j : Nat} {q : Queue G} {p : Pc G}
    {t : Option (Pc G)} (hf : s.Covered (fun q => ¬ Flushed q.log) Pc.unflushed)
    (hn : next grow s.shared k j (s.pc k) = some ⟨q, p, t⟩) :
    (s.enter q k p).Covered (fun q => ¬ Flushed q.log) Pc.unflushed := by
  rcases next_flushed hn with ⟨hl, hp⟩ | ⟨hk, hp⟩ | hfl
  · exact hf.enter (fun h => .inl (by rwa [hl] at h)) fun _ hw => .inl (hp hw)
  · exact hf.enter (fun _ => .inr hp) fun _ _ => .inl hp
  · exact fun h => absurd hfl h

theorem Delivering.step [DecidableEq G] {grow : Nat → Nat → Nat} {s s' : System G} {a : Label G}
    (hd : Delivering s) (hg : a.admitted s = true) (hs : step grow s a = some s') :
    Delivering s' := by
  have ha' := hd.announced.step hg hs
  have hu := hd.announced.counters.unique
  obtain ⟨hand, hc⟩ := hd.contents
  cases a with
  | add k gts =>
    obtain ⟨hk, hs⟩ := Option.ite_none_right_eq_some.mp hs
    cases hs
    exact ⟨ha', ⟨hand, hc.keep rfl rfl rfl rfl rfl rfl (by rw [hk]; rfl) trivial⟩,
      hd.flushing.enter .inl fun _ hw => by simp [hk, Pc.unflushed] at hw⟩
  | close k =>
    obtain ⟨hk, hs⟩ := Option.ite_none_right_eq_some.mp hs
    cases hs
    exact ⟨ha', ⟨hand, hc.keep rfl rfl rfl rfl rfl rfl (by rw [hk]; rfl) trivial⟩,
      hd.flushing.enter .inl fun _ hw => by simp [hk, Pc.unflushed] at hw⟩
  | run k j =>
    rcases State.run_cases hs with ⟨c, p, hn, rfl⟩ | ⟨c, p, t, hn, -, hjk, hj, rfl⟩
    · exact ⟨ha', hc.move hu (hd.announced.sane k) (next_content hn (hc.deals k)),
        covered_flush hd.flushing hn⟩
    · obtain ⟨hand', hc'⟩ := hc.move hu (hd.announced.sane k) (next_content hn (hc.deals k))
      have hj' : (s.enter c k p).pc j = .idle := by simp [hjk, hj]
      obtain rfl := hd.announced.task_load hn
      refine ⟨ha', ⟨hand', hc'.keep rfl rfl rfl rfl rfl rfl (by rw [hj']; rfl) trivial⟩, ?_⟩
      exact (covered_flush hd.flushing hn).enter .inl fun _ hw => by simp [hj', Pc.unflushed] at hw

theorem Delivering.init {size : Nat} (hsize : 1 ≤ size) : Delivering (init size : System G) :=
  ⟨.init hsize, ⟨none, .init size⟩,
    fun h => absurd (fun older _ _ _ he => by simp [Mux.init, newShardQueue] at he) h⟩

namespace Pc

def announcing : Pc G → Bool
  | addUnlock _ true | listLock _ | listWrite _ | listUnlock | trigger => true
  | _ => false

/-- Getters that `trigger` does not tell of: an `Add` has not yet counted them, or the
worker has not yet flushed them. -/
def inFlight (p : Pc G) : Bool := p.announcing || p.unflushed

def pending : Pc G → Bool
  | idle | closeCas | closeLoop | closeTrigger | closeStore | closeReturned _ => false
  | _ => true

theorem pending_of_attends {p : Pc G} (h : p.attends = true) : p.pending = true := by
  cases p <;> simp_all [attends, works, pending]

theorem pending_of_inFlight {p : Pc G} (h : p.inFlight = true) : p.pending = true := by
  cases p <;> simp_all [inFlight, announcing, unflushed, pending]

theorem token_of_not_inFlight {p : Pc G} (h : p.inFlight = false) : p.token = none := by
  cases p with
  | addUnlock i b => cases b <;> simp_all [inFlight, announcing, token]
  | _ => simp_all [inFlight, announcing, unflushed, token]

theorem wrote_of_not_inFlight {p : Pc G} (h : p.inFlight = false) : p.wrote = false := by
  cases p <;> simp_all [inFlight, announcing, wrote]

theorem taken_of_not_inFlight {p : Pc G} (h : p.inFlight = false) : p.taken = 0 := by
  cases p <;> simp_all [inFlight, unflushed, taken]

theorem batch_of_not_inFlight {q : Queue G} {p : Pc G} (h : p.inFlight = false) :
    p.batch q = none := by
  cases p <;> simp_all [inFlight, unflushed, batch]

end Pc

section Settled

variable {s : System G} (ht : s.shared.trigger = 0) (hq : ∀ k, (s.pc k).inFlight = false)
include ht hq

theorem Ring.empty_of_settled {ring : List Nat} {claim : Nat → Claim} (hr : Ring s ring claim)
    {i : Nat} (hi : i < s.shared.size) : (s.shared.getters i).len = 0 := by
  obtain ⟨u, d, hu, hd, he⟩ := hr.count
  have hu0 : u = 0 := State.Total.eq_zero hu fun k => by simp [Pc.wrote_of_not_inFlight (hq k)]
  have hd0 : d = 0 := hd.eq_zero fun k => Pc.taken_of_not_inFlight (hq k)
  have hring : ring = [] := List.length_eq_zero_iff.mp (by omega)
  refine (hr.full i hi).mp ?_
  cases hcl : claim i with
  | free => rfl
  | listed => simpa [hring] using (hr.listed i).mp hcl
  | held k =>
    have hk := (hr.claims i k).mp hcl
    simp [Pc.token_of_not_inFlight (hq k)] at hk

theorem Delivering.settled (hd : Delivering s) :
    (∀ shard, s.shared.invoked shard = s.shared.accepted shard) ∧ Flushed s.shared.log := by
  obtain ⟨ring, claim, hr⟩ := hd.announced.ring
  obtain ⟨hand, hc⟩ := hd.contents
  have hhand : hand = none := by
    by_contra hn
    obtain ⟨b, rfl⟩ := Option.ne_none_iff_exists'.mp hn
    obtain ⟨k, hk⟩ := hc.sole.owner b rfl
    simp [Pc.batch_of_not_inFlight (hq k)] at hk
  subst hhand
  constructor
  · intro i
    rcases Nat.lt_or_ge i s.shared.size with hi | hi
    · have hview : s.shared.heap.view (s.shared.getters i) = [] := by
        simp [Heap.view, hr.empty_of_settled ht hq hi]
      simpa [inHand, hview] using (hc.split i hi).symm
    · rw [(hc.outside i hi).1, (hc.outside i hi).2]
  · by_contra hf
    obtain ⟨k, hk⟩ := hd.flushing hf
    have hno := hq k
    simp [Pc.inFlight, hk] at hno

end Settled

theorem Delivering.quiet {s : System G} (hd : Delivering s) (hq : ∀ k, (s.pc k).pending = false) :
    (∀ shard, s.shared.invoked shard = s.shared.accepted shard) ∧ Flushed s.shared.log := by
  have hc := hd.announced.counters
  refine hd.settled (le_antisymm ?_ hc.trigger) fun k => ?_
  · by_contra ht
    obtain ⟨k, hk⟩ := hc.attended (by simpa using ht)
    simpa [hq k] using Pc.pending_of_attends hk
  · by_contra h
    have hp := Pc.pending_of_inFlight (p := s.pc k) (by simpa using h)
    simp [hq k] at hp

/-- In every interleaving of calls of `Add`, each with getters and fewer than 2^31
of them, no `Add` panics and at most one task works; the getters called so far of a
shard are the first ones appended to it, in their order and each once; and when
neither an `Add` nor a task is under way all of them have been called and flushed. -/
theorem getters_delivered [DecidableEq G] {grow : Nat → Nat → Nat} {size : Nat} (hsize : 1 ≤ size)
    {s : System G} (hr : Reach (step grow) (fun s a => a.admitted s) (init size) s) :
    (∀ k, s.pc k ≠ .outOfRange) ∧
      (∀ i k, (s.pc i).works = true → (s.pc k).works = true → i = k) ∧
      (∀ shard, ∃ rest, s.shared.accepted shard = s.shared.invoked shard ++ rest) ∧
      ((∀ k, (s.pc k).pending = false) →
        (∀ shard, s.shared.invoked shard = s.shared.accepted shard) ∧ Flushed s.shared.log) := by
  have hd : Delivering s := hr.invariant (.init hsize) fun _ _ _ hd hg hs => hd.step hg hs
  obtain ⟨hand, hc⟩ := hd.contents
  refine ⟨fun k hk => ?_, hd.announced.counters.unique, fun i => ?_, fun hq => hd.quiet hq⟩
  · have hsane : (s.pc k).Sane s.shared := hd.announced.sane k
    rw [hk] at hsane
    exact hsane
  · rcases Nat.lt_or_ge i s.shared.size with hi | hi
    · exact ⟨_, (hc.split i hi).trans (List.append_assoc _ _ _)⟩
    · exact ⟨[], by rw [(hc.outside i hi).1, (hc.outside i hi).2]; rfl⟩

def twoAdds : List (Label Nat) :=
  [.add 0 [5], .run 0 0, .run 0 0, .run 0 0, .run 0 0, .run 0 0, .run 0 0, .run 0 0, .run 0 0,
    .add 2 [6, 7], .run 2 0, .run 2 0, .run 2 0, .run 2 0, .run 2 0, .run 2 0, .run 0 0, .run 0 0,
    .run 0 1, .run 1 0, .run 1 0, .run 1 0, .run 1 0, .run 1 0, .run 1 0, .run 1 0, .run 1 0,
    .run 1 0, .run 1 0, .run 1 0, .run 1 0, .run 1 0, .run 1 0]

theorem getters_delivered_two :
    ∃ s : System Nat, Reach (step fun _ n => n) (fun s a => a.admitted s) (init 1) s ∧
      (∀ k, (s.pc k).pending = false) ∧ s.shared.accepted 0 = [5, 6, 7] ∧
      s.shared.invoked 0 = [5, 6, 7] ∧ Flushed s.shared.log := by
  have hrun : ∃ s, runs (guarded (step fun _ n => n) fun s a => a.admitted s) (init 1 : System Nat)
      twoAdds = some s ∧ s.shared.accepted 0 = [5, 6, 7] ∧ s.pc 0 = .idle ∧ s.pc 1 = .idle ∧
      s.pc 2 = .idle ∧ ∀ k, 3 ≤ k → s.pc k = .idle := by
    refine ⟨_, rfl, rfl, rfl, rfl, rfl, fun k hk => ?_⟩
    have hk0 : k ≠ 0 := by omega
    have hk1 : k ≠ 1 := by omega
    have hk2 : k ≠ 2 := by omega
    simp [State.enter, init, Function.update_apply, hk0, hk1, hk2]
  obtain ⟨s, hs, hacc, h0, h1, h2, h3⟩ := hrun
  have hr := Reach.of_runs hs
  have hq : ∀ k, (s.pc k).pending = false := by
    intro k
    have hidle : s.pc k = .idle := by
      obtain rfl | rfl | rfl | hk : k = 0 ∨ k = 1 ∨ k = 2 ∨ 3 ≤ k := by omega
      · exact h0
      · exact h1
      · exact h2
      · exact h3 k hk
    rw [hidle]
    rfl
  obtain ⟨hinv, hfl⟩ := (getters_delivered (le_refl 1) hr).2.2.2 hq
  exact ⟨s, hr, hq, hacc, (hinv 0).trans hacc, hfl⟩

end Netpoll.Mux
