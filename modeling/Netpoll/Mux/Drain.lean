import Mathlib.Data.List.DropRight
import Netpoll.Mux.Deliver

namespace Netpoll.Mux

open Netpoll.Lib.Threads Netpoll.Lib.Transition

variable {G : Type*}

def Event.isFlush : Event G → Bool
  | .flush => true
  | .invoke .. => false

/-- The events up to the last flush. -/
def sent (log : List (Event G)) : List (Event G) := log.rdropWhile fun e => !e.isFlush

theorem sent_concat (log : List (Event G)) (e : Event G) : sent log <+: sent (log ++ [e]) := by
  simp only [sent, List.rdropWhile_concat]
  split
  · exact List.prefix_rfl
  · exact ( List.rdropWhile_prefix _ _).trans (List.prefix_append _ _)

theorem Flushed.sent_eq {log : List (Event G)} (h : Flushed log) : sent log = log := by
  refine List.rdropWhile_eq_self_iff.mpr fun hne => ?_
  have hlast := (List.dropLast_append_getLast hne).symm
  cases he : log.getLast hne with
  | flush => simp [Event.isFlush]
  | invoke i g =>
    rw [he] at hlast
    simpa using h _ [] i g hlast

def Drained (base : Nat → List G) (q : Queue G) : Prop :=
  ∀ i, base i <+: called (sent q.log) i

theorem Drained.concat {base : Nat → List G} {q q' : Queue G} {e : Event G} (hd : Drained base q)
    (hl : q'.log = q.log ++ [e]) : Drained base q' := by
  intro i
  rw [hl]
  exact (hd i).trans ((sent_concat q.log e).filterMap _)

namespace Pc

def closes : Pc G → Bool
  | closeLoop | closeTrigger | closeStore => true
  | _ => false

@[simp] theorem loop_closes (n m : Int) : (loop n m : Pc G).closes = false := by
  unfold loop
  split <;> rfl

theorem loop_ne_returned (n m : Int) : (loop n m : Pc G) ≠ .closeReturned true := by
  unfold loop
  split <;> nofun

end Pc

inductive CloseMove (q : Queue G) (p : Pc G) : Queue G → Pc G → Prop
  | keep {q' p'} : q'.state = q.state → p'.closes = false → p' ≠ .closeReturned true →
      CloseMove q p q' p'
  | closing : p = .closeCas → q.state = .active →
      CloseMove q p { q with state := .closing } .closeLoop
  | look : p = .closeLoop →
      CloseMove q p q (if q.state = .closed then .closeReturned true else .closeTrigger)
  | check : p = .closeTrigger → CloseMove q p q (if q.trigger = 0 then .closeStore else .closeLoop)
  | store : p = .closeStore → CloseMove q p { q with state := .closed } (.closeReturned true)
  | help : p = .closed → q.state = .closing → CloseMove q p { q with state := .closed } .idle

section Next

variable {grow : Nat → Nat → Nat} {q q' : Queue G} {k j : Nat} {p p' : Pc G} {t : Option (Pc G)}

theorem next_close (hn : next grow q k j p = some ⟨q', p', t⟩) : CloseMove q p q' p' := by
  cases p with
  | idle | outOfRange => simp [next] at hn
  | addLock i gts | swapLock i n d | listLock i =>
    simp only [next] at hn
    split at hn
    · cases hn
    · cases hn
      exact .keep rfl rfl (by simp)
  | deal i gts l n d =>
    simp only [next] at hn
    split at hn
    · cases hn
      exact .keep rfl rfl (by simp)
    · cases hn
      split
      · exact .keep rfl rfl (by simp)
      · exact .keep rfl (Pc.loop_closes _ _) (Pc.loop_ne_returned _ _)
  | load | sub =>
    cases hn
    exact .keep rfl (Pc.loop_closes _ _) (Pc.loop_ne_returned _ _)
  | addState | addIdx | addUnlock | trigger | recheck =>
    cases hn
    split <;> exact .keep rfl rfl (by simp)
  | closed =>
    cases hn
    split
    · exact .help rfl ‹_›
    · exact .keep rfl rfl (by simp)
  | closeCas =>
    simp only [next] at hn
    split at hn
    · cases hn
      exact .closing rfl ‹_›
    · cases hn
      exact .keep rfl rfl (by simp)
  | closeLoop =>
    cases hn
    exact .look rfl
  | closeTrigger =>
    cases hn
    exact .check rfl
  | closeStore =>
    cases hn
    exact .store rfl
  | addLen | addAppend | listWrite | listUnlock | foreach | read | swap | swapUnlock | flush | stop
  | closeReturned =>
    cases hn
    exact .keep rfl rfl (by simp)

theorem next_grows (hn : next grow q k j p = some ⟨q', p', t⟩) :
    (q'.log = q.log ∨ ∃ e, q'.log = q.log ++ [e]) ∧ ∀ i, q.accepted i <+: q'.accepted i := by
  cases p with
  | idle | outOfRange => simp [next] at hn
  | addLock i gts | swapLock i n d | listLock i =>
    simp only [next] at hn
    split at hn
    · cases hn
    · cases hn
      exact ⟨.inl rfl, fun _ => List.prefix_rfl⟩
  | addAppend i b gts =>
    cases hn
    refine ⟨.inl rfl, fun l => ?_⟩
    rcases eq_or_ne l i with rfl | hli
    · simp
    · simp [hli]
  | deal i gts l n d =>
    simp only [next] at hn
    split at hn
    · cases hn
      exact ⟨.inr ⟨_, rfl⟩, fun _ => List.prefix_rfl⟩
    · cases hn
      exact ⟨.inl rfl, fun _ => List.prefix_rfl⟩
  | flush =>
    cases hn
    exact ⟨.inr ⟨_, rfl⟩, fun _ => List.prefix_rfl⟩
  | closed =>
    cases hn
    split <;> exact ⟨.inl rfl, fun _ => List.prefix_rfl⟩
  | closeCas =>
    simp only [next] at hn
    split at hn <;> cases hn <;> exact ⟨.inl rfl, fun _ => List.prefix_rfl⟩
  | _ =>
    cases hn
    exact ⟨.inl rfl, fun _ => List.prefix_rfl⟩

end Next

structure Closer (s : System G) : Prop where
  unique : s.Unique Pc.closes
  inactive : ∀ k, (s.pc k).closes = true → s.shared.state ≠ .active

namespace Closer

variable {s s' : System G} {k : Nat} {q : Queue G} {p : Pc G}

theorem keep (hc : Closer s) (hstate : q.state = .active → s.shared.state = .active)
    (hp : p.closes = true → (s.pc k).closes = true) : Closer (s.enter q k p) := by
  refine ⟨hc.unique.enter hp, fun i hi ha => ?_⟩
  rcases eq_or_ne i k with rfl | hik
  · exact hc.inactive i (hp (by simpa using hi)) (hstate ha)
  · exact hc.inactive i (by simpa [hik] using hi) (hstate ha)

theorem move (hc : Closer s) (hm : CloseMove s.shared (s.pc k) q p) : Closer (s.enter q k p) := by
  cases hm with
  | keep hs hp => exact hc.keep (fun h => hs ▸ h) (by simp [hp])
  | closing hp ha =>
    have hnone : ∀ i, (s.pc i).closes = false := by
      intro i
      by_contra hi
      exact hc.inactive i (by simpa using hi) ha
    exact ⟨.enter_first hnone, fun _ _ => nofun⟩
  | look hp => exact hc.keep id fun _ => by rw [hp]; rfl
  | check hp => exact hc.keep id fun _ => by rw [hp]; rfl
  | store hp => exact hc.keep nofun (by simp [Pc.closes])
  | help hp => exact hc.keep nofun (by simp [Pc.closes])

theorem step [DecidableEq G] {grow : Nat → Nat → Nat} {a : Label G} (hc : Closer s)
    (ha : Announced s) (hs : step grow s a = some s') : Closer s' := by
  cases a with
  | add i gts | close i =>
    obtain ⟨-, hs⟩ := Option.ite_none_right_eq_some.mp hs
    cases hs
    exact hc.keep id (by simp [Pc.closes])
  | run i j =>
    rcases State.run_cases hs with ⟨c, p, hn, rfl⟩ | ⟨c, p, t, hn, -, -, -, rfl⟩
    · exact hc.move (next_close hn)
    · obtain rfl := ha.task_load hn
      exact (hc.move (next_close hn)).keep id (by simp [Pc.closes])

end Closer

def Label.declares (s : System G) : Label G → Bool
  | .run k _ => match s.pc k with
    | .closeTrigger => s.shared.trigger == 0
    | .closed => s.shared.state == .closing
    | _ => false
  | _ => false

/-- The queue is declared closed only while `trigger` is zero and tells of all there is:
no `Add` has a shard still to count and no task has getters still to flush. -/
def Label.Settled (s : System G) (a : Label G) : Prop :=
  a.declares s = true → s.shared.trigger = 0 ∧ ∀ i, (s.pc i).inFlight = false

def Decided (s : System G) (k : Nat) : Prop :=
  s.pc k = .closeStore ∨ s.pc k = .closeReturned true ∨
    (s.pc k).closes = true ∧ s.shared.state = .closed

structure Draining (base : Nat → List G) (k : Nat) (s : System G) : Prop where
  delivering : Delivering s
  closer : Closer s
  kept : ∀ i, base i <+: s.shared.accepted i
  drained : Decided s k → Drained base s.shared

namespace Draining

variable {base : Nat → List G} {k i j : Nat} {s s' : System G} {q : Queue G} {p : Pc G}

theorem drained_of_settled (hd : Draining base k s) (ht : s.shared.trigger = 0)
    (hq : ∀ i, (s.pc i).inFlight = false) : Drained base s.shared := by
  obtain ⟨hinv, hf⟩ := hd.delivering.settled ht hq
  intro i
  have hcalled : called s.shared.log i = s.shared.accepted i := hinv i
  rw [hf.sent_eq, hcalled]
  exact hd.kept i

theorem decided_move (hd : Draining base k s) (hset : (Label.run i j : Label G).Settled s)
    (hm : CloseMove s.shared (s.pc i) q p) (h : Decided (s.enter q i p) k) :
    Drained base s.shared := by
  rcases eq_or_ne k i with rfl | hki
  · simp only [Decided, State.enter_pc_self, State.enter_shared] at h
    cases hm with
    | keep _ hc hr =>
      have hstore : p ≠ .closeStore := fun he => by simp [he, Pc.closes] at hc
      simp [hc, hr, hstore] at h
    | closing => simp at h
    | look hp =>
      refine hd.drained (.inr (.inr ⟨by rw [hp]; rfl, ?_⟩))
      by_contra hs
      simp [hs] at h
    | check hp =>
      by_cases ht : s.shared.trigger = 0
      · obtain ⟨ht, hq⟩ := hset (by simp [Label.declares, hp, ht])
        exact hd.drained_of_settled ht hq
      · refine hd.drained (.inr (.inr ⟨by rw [hp]; rfl, ?_⟩))
        simpa [ht, Pc.closes] using h
    | store hp => exact hd.drained (.inl hp)
    | help => simp [Pc.closes] at h
  · simp only [Decided, State.enter_pc_of_ne _ _ _ hki, State.enter_shared] at h
    cases hm with
    | keep hs => exact hd.drained (by simpa only [Decided, hs] using h)
    | closing => exact hd.drained (by simpa [Decided] using h.imp_right Or.inl)
    | look => exact hd.drained h
    | check => exact hd.drained h
    | store hp =>
      have hno : (s.pc k).closes = false := by
        by_contra hk
        exact hki (hd.closer.unique k i (by simpa using hk) (by rw [hp]; rfl))
      have hstore : s.pc k ≠ .closeStore := fun he => by simp [he, Pc.closes] at hno
      exact hd.drained (.inr (.inl (by simpa [hno, hstore] using h)))
    | help hp hs =>
      obtain ⟨ht, hq⟩ := hset (by simp [Label.declares, hp, hs])
      exact hd.drained_of_settled ht hq

theorem step [DecidableEq G] {grow : Nat → Nat → Nat} {a : Label G} (hd : Draining base k s)
    (hg : a.admitted s = true) (hset : a.Settled s) (hs : step grow s a = some s') :
    Draining base k s' := by
  have hd' := hd.delivering.step hg hs
  have hc' := hd.closer.step hd.delivering.announced hs
  have enter {s : System G} {q : Queue G} {i : Nat} {p : Pc G} (hp : p.closes = false)
      (hr : p ≠ .closeReturned true) (hq : q.state = s.shared.state)
      (h : Decided (s.enter q i p) k) : Decided s k := by
    rcases eq_or_ne k i with rfl | hki
    · have hstore : p ≠ .closeStore := fun he => by simp [he, Pc.closes] at hp
      simp [Decided, hp, hr, hstore] at h
    · simpa [Decided, hki, hq] using h
  cases a with
  | add i gts | close i =>
    obtain ⟨hi, hs⟩ := Option.ite_none_right_eq_some.mp hs
    cases hs
    exact ⟨hd', hc', hd.kept, fun h => hd.drained (enter rfl (by simp) rfl h)⟩
  | run i j =>
    have moved {c : Queue G} {p : Pc G} {t : Option (Pc G)}
        (hn : next grow s.shared i j (s.pc i) = some ⟨c, p, t⟩) (h : Decided (s.enter c i p) k) :
        Drained base c := by
      have hb := hd.decided_move hset (next_close hn) h
      rcases (next_grows hn).1 with hl | ⟨e, hl⟩
      · intro x
        rw [hl]
        exact hb x
      · exact hb.concat hl
    rcases State.run_cases hs with ⟨c, p, hn, rfl⟩ | ⟨c, p, t, hn, -, hji, hj, rfl⟩
    · exact ⟨hd', hc', fun x => (hd.kept x).trans ((next_grows hn).2 x),
        moved hn⟩
    · obtain rfl := hd.delivering.announced.task_load hn
      exact ⟨hd', hc', fun x => (hd.kept x).trans ((next_grows hn).2 x),
        fun h => moved hn (enter rfl (by simp) rfl h)⟩

end Draining

/-- Whenever a `Close` returns nil, all getters that had been appended before it was
called have been called and flushed, if the queue is only declared closed while no
getters are in flight. -/
theorem close_drains [DecidableEq G] {grow : Nat → Nat → Nat} {size : Nat} (hsize : 1 ≤ size)
    {s₁ s₂ s₃ : System G} {k : Nat}
    (hbefore : Reach (step grow) (fun s a => a.admitted s) (init size) s₁)
    (hcall : step grow s₁ (.close k) = some s₂)
    (hafter : Reach (step grow) (fun s a => a.admitted s ∧ a.Settled s) s₂ s₃)
    (hret : s₃.pc k = .closeReturned true) (shard : Nat) :
    s₁.shared.accepted shard <+: called (sent s₃.shared.log) shard := by
  obtain ⟨hd, hc⟩ : Delivering s₁ ∧ Closer s₁ :=
    hbefore.invariant (I := fun s => Delivering s ∧ Closer s) ⟨.init hsize, nofun, nofun⟩
      fun _ _ _ h hg hs =>
      ⟨h.1.step hg hs, h.2.step h.1.announced hs⟩
  have hd₂ := hd.step rfl hcall
  have hc₂ := hc.step hd.announced hcall
  obtain ⟨-, hs⟩ := Option.ite_none_right_eq_some.mp hcall
  have hstart : Draining s₁.shared.accepted k s₂ := by
    cases hs
    exact ⟨hd₂, hc₂, fun _ => List.prefix_rfl, fun h => by simp [Decided, Pc.closes] at h⟩
  have hend := hafter.invariant hstart fun _ _ _ h hg hs => h.step hg.1 hg.2 hs
  exact hend.drained (.inr (.inl hret)) shard

def oneTask : List (Label Nat) := List.flatten
  [[.add 0 [5]], List.replicate 10 (.run 0 0), [.run 0 1, .run 1 0]]

def closeWaits : List (Label Nat) := List.flatten
  [[.run 2 0, .run 2 0, .run 2 0], List.replicate 10 (.run 1 0)]

theorem close_drains_one :
    ∃ s₁ s₂ s₃ : System Nat, Reach (step fun _ n => n) (fun s a => a.admitted s) (init 1) s₁ ∧
      step (fun _ n => n) s₁ (.close 2) = some s₂ ∧
      Reach (step fun _ n => n) (fun s a => a.admitted s ∧ a.Settled s) s₂ s₃ ∧
      s₃.pc 2 = .closeReturned true ∧ s₁.shared.accepted 0 = [5] ∧
      [5] <+: called (sent s₃.shared.log) 0 := by
  have hone : ∃ s₁ s₂ s₃ s₄ s₅, runs (guarded (step fun _ n => n) fun s a => a.admitted s)
      (init 1 : System Nat) oneTask = some s₁ ∧ step (fun _ n => n) s₁ (.close 2) = some s₂ ∧
      runs (guarded (step fun _ n => n) fun s a => a.admitted s && !a.declares s) s₂ closeWaits =
      some s₃ ∧ step (fun _ n => n) s₃ (.run 1 0) = some s₄ ∧
      step (fun _ n => n) s₄ (.run 2 0) = some s₅ ∧ s₅.pc 2 = .closeReturned true ∧
      s₁.shared.accepted 0 = [5] ∧ s₃.shared.trigger = 0 ∧ (∀ i, (s₃.pc i).inFlight = false) ∧
        s₄.pc 2 = .closeLoop := by
    refine ⟨_, _, _, _, _, rfl, rfl, rfl, rfl, rfl, rfl, rfl, rfl, fun i => ?_, rfl⟩
    match i with
    | 0 | 1 | 2 => rfl
    | i + 3 => rfl
  obtain ⟨s₁, s₂, s₃, s₄, s₅, h₁, h₂, h₃, h₄, h₅, hret, hacc, ht, hq, hloop⟩ := hone
  have hbefore := Reach.of_runs h₁
  have hwait : Reach (step fun _ n => n) (fun s a => a.admitted s ∧ a.Settled s) s₂ s₃ :=
    (Reach.of_runs h₃).mono fun s a _ hp => by
      obtain ⟨hg, hno⟩ := Bool.and_eq_true_iff.mp hp
      exact ⟨hg, fun hdecl => by simp [hdecl] at hno⟩
  have hafter := (hwait.tail ⟨rfl, fun _ => ⟨ht, hq⟩⟩ h₄).tail
    ⟨rfl, fun hdecl => by simp [Label.declares, hloop] at hdecl⟩ h₅
  exact ⟨s₁, s₂, s₅, hbefore, h₂, hafter, hret, hacc,
    hacc ▸ close_drains (le_refl 1) hbefore h₂ hafter hret 0⟩

def unflushedTask : List (Label Nat) := List.flatten [oneTask, List.replicate 7 (.run 1 0)]

def unannouncedAdd : List (Label Nat) := List.flatten
  [[.add 0 [5]], List.replicate 6 (.run 0 0), [.add 1 [6]], List.replicate 6 (.run 1 0)]

def closeAtOnce : List (Label Nat) := List.replicate 4 (.run 2 0)

/-- `Close` returns nil although the getter of an `Add` that had returned has not been
flushed, or has not even been called. -/
theorem close_leaves_getters :
    (∃ s₁ s₂ s₃ : System Nat, Reach (step fun _ n => n) (fun s a => a.admitted s) (init 1) s₁ ∧
      s₁.pc 0 = .idle ∧ s₁.shared.accepted 0 = [5] ∧ step (fun _ n => n) s₁ (.close 2) = some s₂ ∧
      Reach (step fun _ n => n) (fun s a => a.admitted s) s₂ s₃ ∧ s₃.pc 2 = .closeReturned true ∧
      s₃.shared.log = [.invoke 0 5]) ∧
    ∃ s₁ s₂ s₃ : System Nat, Reach (step fun _ n => n) (fun s a => a.admitted s) (init 1) s₁ ∧
      s₁.pc 1 = .idle ∧ s₁.shared.accepted 0 = [5, 6] ∧ step (fun _ n => n) s₁
        (.close 2) = some s₂ ∧
      Reach (step fun _ n => n) (fun s a => a.admitted s) s₂ s₃ ∧ s₃.pc 2 = .closeReturned true ∧
      s₃.shared.log = [] := by
  have hflush : ∃ s₁ s₂ s₃, runs (guarded (step fun _ n => n) fun s a => a.admitted s)
      (init 1 : System Nat) unflushedTask = some s₁ ∧ s₁.pc 0 = .idle ∧ s₁.shared.accepted 0 = [5] ∧
      step (fun _ n => n) s₁ (.close 2) = some s₂ ∧
      runs (guarded (step fun _ n => n) fun s a => a.admitted s) s₂ closeAtOnce = some s₃ ∧
      s₃.pc 2 = .closeReturned true ∧ s₃.shared.log = [.invoke 0 5] :=
    ⟨_, _, _, rfl, rfl, rfl, rfl, rfl, rfl, rfl⟩
  have hadd : ∃ s₁ s₂ s₃, runs (guarded (step fun _ n => n) fun s a => a.admitted s)
      (init 1 : System Nat) unannouncedAdd = some s₁ ∧ s₁.pc 1 = .idle ∧
      s₁.shared.accepted 0 = [5, 6] ∧ step (fun _ n => n) s₁ (.close 2) = some s₂ ∧
      runs (guarded (step fun _ n => n) fun s a => a.admitted s) s₂ closeAtOnce = some s₃ ∧
      s₃.pc 2 = .closeReturned true ∧ s₃.shared.log = [] :=
    ⟨_, _, _, rfl, rfl, rfl, rfl, rfl, rfl, rfl⟩
  obtain ⟨s₁, s₂, s₃, h₁, hi, ha, h₂, h₃, hret, hlog⟩ := hflush
  obtain ⟨t₁, t₂, t₃, g₁, gi, ga, g₂, g₃, gret, glog⟩ := hadd
  exact ⟨⟨s₁, s₂, s₃, .of_runs h₁, hi, ha, h₂, .of_runs h₃, hret, hlog⟩,
    t₁, t₂, t₃, .of_runs g₁, gi, ga, g₂, .of_runs g₃, gret, glog⟩

end Netpoll.Mux
