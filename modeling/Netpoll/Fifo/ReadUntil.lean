import Netpoll.Connection.Until
import Netpoll.Fifo.ReadWake

namespace Netpoll.ReadFifo

open Netpoll.Lib Netpoll.Lib.Threads Netpoll.Lib.Transition Netpoll.Input

def Pc.byUser : Pc → Bool
  | .closeBy | .closeTrigger | .force | .panicUnlock | .register _ false => true
  | _ => false

/-- Nobody but the poller closes: registration succeeds and the callback does not panic. -/
def Label.undisturbed : Label → Bool
  | .close _ | .detach _ | .panic _ => false
  | .attach _ ok => ok
  | _ => true

structure HangMove (f : Fifo) (p : Pc) (m : Move Fifo Pc) : Prop where
  byUser : m.pc.byUser = false
  hup : m.pc ≠ .hupClose
  polls : m.pc.polls → p.polls ∧ p ≠ .done
  hung : m.shared.hung = f.hung ∨ p = .appendHup ∧ m.pc = .done ∧ m.shared.hung
  length : p ≠ .finBuffer → m.shared.inbox.length = f.inbox.length ∨
    ∃ n, p = .inputAck n ∧ m.shared.inbox.length = f.inbox.length + n
  closing : m.shared.inbox.closing = f.inbox.closing ∨
    p = .hupClose ∧ m.shared.inbox.closing ≠ .none ∧ f.inbox.closing = .none
  slot : ∀ e, m.shared.inbox.readTrigger = some (some e) →
    f.inbox.readTrigger = some (some e) ∨ p = .hupTrigger ∧ f.inbox.readTrigger = none

theorem next_hang {f : Fifo} {k j : Nat} {p : Pc} {m : Move Fifo Pc} (hn : next f k j p = some m)
    (hu : p.byUser = false) : HangMove f p m := by
  cases p
  case wait w r =>
    obtain ⟨⟨b, o⟩, hw, rfl⟩ := Option.map_eq_some_iff.mp hn
    refine ⟨?_, ?_, ?_, .inl rfl, fun _ => .inl (waitRead_length hw), .inl (waitRead_closing hw),
      fun e he => ?_⟩
    · cases o <;> cases r <;> rfl
    · cases o <;> cases r <;> simp [Site.after, Site.pc]
    · cases o <;> cases r <;> simp [Site.after, Site.pc, Pc.polls]
    · rcases waitRead_slot hw with h0 | h0
      · exact .inl (h0.symm.trans he)
      · cases h0.symm.trans he
  case closeBy | closeTrigger | force | panicUnlock => cases hu
  case register caller ok =>
    cases ok with
    | false => cases hu
    | true => cases caller <;> cases hn <;> constructor <;> simp [Attach.pc, Pc.byUser, Pc.polls]
  case hupClose =>
    simp only [next] at hn
    split_ifs at hn with h0 <;> cases hn
    · exact ⟨rfl, by simp, by simp [Pc.polls], .inl rfl, fun _ => .inl rfl, .inr ⟨rfl, by simp, h0⟩,
        fun e he => .inl he⟩
    · exact ⟨rfl, by simp, by simp [Pc.polls], .inl rfl, fun _ => .inl rfl, .inl rfl,
        fun e he => .inl he⟩
  case hupTrigger =>
    cases hn
    refine ⟨rfl, by simp, by simp [Pc.polls], .inl rfl, fun _ => .inl rfl, .inl rfl, fun e he => ?_⟩
    simp only [Fifo.trigger, triggerRead] at he
    split_ifs at he with hs
    · exact .inl he
    · exact .inr ⟨rfl, by simpa using hs⟩
  case ackTrigger =>
    cases hn
    refine ⟨rfl, by simp, by simp [Pc.polls], .inl rfl, fun _ => .inl rfl, .inl rfl,
      fun e he => .inl ?_⟩
    simp only [Fifo.trigger, triggerRead] at he
    split_ifs at he
    · exact he
    · cases he
  all_goals
    simp only [next] at hn
    (try split_ifs at hn) <;> cases hn
  all_goals
    constructor <;> simp [Pc.byUser, Pc.polls]

structure HungUp (s : System) : Prop where
  byUser : ∀ i, (s.pc i).byUser = false
  polls : ∀ i, (s.pc i).polls → i = 0 ∧ (s.shared.hung → s.pc i = .done)
  hup : ∀ i, s.pc i = .hupClose → s.shared.hung
  closing : s.shared.inbox.closing ≠ .none → s.shared.hung
  slot : ∀ e, s.shared.inbox.readTrigger = some (some e) → s.shared.inbox.closing ≠ .none

namespace HungUp

variable {s s' : System} {a : Label} {f : Fifo} {k : Nat} {p : Pc}

theorem enter (hh : HungUp s) (hu : p.byUser = false) (hhup : p = .hupClose → s.shared.hung)
    (hpolls : p.polls → k = 0 ∧ (f.hung → p = .done))
    (hhung : f.hung = s.shared.hung ∨ k = 0 ∧ f.hung)
    (hclosing : f.inbox.closing ≠ .none → f.hung)
    (hslot : ∀ e, f.inbox.readTrigger = some (some e) → f.inbox.closing ≠ .none) :
    HungUp (s.enter f k p) := by
  have later (h0 : s.shared.hung) : f.hung := hhung.elim (fun he => he ▸ h0) And.right
  refine ⟨fun i => ?_, fun i hi => ?_, fun i hi => later ?_, hclosing, hslot⟩
  · rcases eq_or_ne i k with rfl | hik
    · simpa using hu
    · simpa [hik] using hh.byUser i
  · rcases eq_or_ne i k with rfl | hik
    · simpa using hpolls (by simpa using hi)
    · obtain ⟨rfl, hdone⟩ := hh.polls i (by simpa [hik] using hi)
      refine ⟨rfl, fun hf => ?_⟩
      rcases hhung with he | ⟨rfl, -⟩
      · simpa [hik] using hdone (he ▸ hf)
      · exact absurd rfl hik
  · rcases eq_or_ne i k with rfl | hik
    · exact hhup (by simpa using hi)
    · exact hh.hup i (by simpa [hik] using hi)

theorem step (hh : HungUp s) (hc : Closed s) (ha : a.undisturbed) (hs : step s a = some s') :
    HungUp s' := by
  cases a with
  | attach caller ok =>
    obtain rfl : ok = true := ha
    simp only [ReadFifo.step] at hs
    split at hs <;> cases hs
    exact hh.enter rfl (by rintro ⟨⟩) (by rintro ⟨⟩) (.inl rfl) hh.closing hh.slot
  | readable n | hup =>
    simp only [ReadFifo.step, poll] at hs
    split at hs <;> cases hs
    rename_i hg
    refine hh.enter rfl (by rintro ⟨⟩) (fun _ => ⟨rfl, fun hf => ?_⟩) (.inl rfl) hh.closing hh.slot
    exact absurd hf (by simp [hg.2.2.1])
  | onhups =>
    simp only [ReadFifo.step] at hs
    split at hs <;> cases hs
    rename_i hg
    exact hh.enter rfl (fun _ => hg.1) (by rintro ⟨⟩) (.inl rfl) hh.closing hh.slot
  | close k | detach k | panic k => cases ha
  | waitRead k n =>
    obtain ⟨r, -, rfl⟩ := Option.map_eq_some_iff.mp hs
    exact hh.enter rfl (by rintro ⟨⟩) (by rintro ⟨⟩) (.inl rfl) hh.closing hh.slot
  | consume k m =>
    simp only [ReadFifo.step] at hs
    split at hs <;> cases hs
    exact ⟨hh.byUser, hh.polls, hh.hup, hh.closing, hh.slot⟩
  | run k j =>
    have access {m : Move Fifo Pc} (hn : next s.shared k j (s.pc k) = some m) :
        HungUp (s.enter m.shared k m.pc) := by
      have hm := next_hang hn (hh.byUser k)
      have later (h0 : s.shared.hung) : m.shared.hung :=
        hm.hung.elim (fun he => he ▸ h0) fun hp => hp.2.2
      refine hh.enter hm.byUser (fun hp => absurd hp hm.hup) (fun hp => ?_) ?_ (fun hcl => later ?_)
        fun e he => ?_
      · obtain ⟨hp, hnd⟩ := hm.polls hp
        obtain ⟨rfl, hdone⟩ := hh.polls k hp
        refine ⟨rfl, fun hf => ?_⟩
        rcases hm.hung with he | ⟨-, he, -⟩
        · exact absurd (hdone (he ▸ hf)) hnd
        · exact he
      · refine hm.hung.imp id ?_
        rintro ⟨hp, -, hf⟩
        exact ⟨(hh.polls k (by rw [hp]; rfl)).1, hf⟩
      · rcases hm.closing with he | ⟨hp, -⟩
        · exact hh.closing (he ▸ hcl)
        · exact hh.hup k hp
      · have hold : s.shared.inbox.closing ≠ .none := by
          rcases hm.slot e he with he | ⟨hp, -⟩
          · exact hh.slot e he
          · exact hc k (by rw [hp]; rfl)
        rcases hm.closing with he | ⟨-, he, -⟩
        · rw [he]
          exact hold
        · exact he
    rcases State.run_cases hs with ⟨c, p, hn, rfl⟩ | ⟨c, p, t, hn, -, -, -, rfl⟩
    · exact access hn
    · obtain ⟨rfl, -, -, rfl⟩ := next_spawn hn
      exact (access hn).enter rfl (by rintro ⟨⟩) (by rintro ⟨⟩) (.inl rfl) hh.closing hh.slot

theorem init (onFifoRead : Bool) : HungUp (init onFifoRead) := by
  constructor <;> simp [ReadFifo.init, Pc.byUser, Pc.polls]

end HungUp

def source (k : Nat) : Until.Source System Label where
  step := step
  inbox s := s.shared.inbox
  reader s := match s.pc k with
    | .wait w _ => some w
    | _ => none
  call n := .waitRead k n
  read := .run k 0
  consume m := .consume k m
  other
    | .waitRead .. | .consume .. => false
    | .run i _ | .panic i => i != k
    | _ => true
  acks s
    | .run 0 _ => match s.pc 0 with
      | .inputAck n => n
      | _ => 0
    | _ => 0

def overtaken (k : Nat) (s : System) : Bool :=
  match s.pc k with
  | .wait (.status n) _ => n ≤ s.shared.inbox.length
  | _ => false

/-- The poller does not mark the FIFO closing while goroutine `k` is overtaken. -/
def Label.fair (k : Nat) (s : System) : Label → Bool
  | .run i _ => s.pc i != .hupClose || !overtaken k s
  | _ => true

def Short (f : Fifo) : Pc → Prop
  | .wait (.status n) _ => f.inbox.closing ≠ .none → f.inbox.length < n
  | .wait (.recv n) _ => ∀ e, f.inbox.readTrigger = some (some e) → f.inbox.length < n
  | .wait (.clear n (some _)) _ => f.inbox.closing ≠ .none ∧ f.inbox.length < n
  | _ => True

structure Readable (onFifoRead : Bool) (k : Nat) (s : System) : Prop where
  reach : Reach step (fun _ a => a.inside ∧ a.undisturbed) (init onFifoRead) s
  inside : k ≠ 3
  reading : (s.pc k).reading
  short : Short s.shared (s.pc k)

section

variable {onFifoRead : Bool} {k : Nat} {s s' : System} {a : Label}

theorem hungUp_of_reach
    (hr : Reach step (fun _ a => a.inside ∧ a.undisturbed) (init onFifoRead) s) :
    (Locked s ∧ Closed s ∧ Awake s) ∧ HungUp s := by
  refine ⟨awake_of_reach (hr.mono fun _ _ _ h => h.1), ?_⟩
  induction hr with
  | refl => exact .init _
  | tail hr hg hs ih => exact ih.step (awake_of_reach (hr.mono fun _ _ _ h => h.1)).2.1 hg.2 hs

theorem Readable.traversals (hr : Readable onFifoRead k s) : s.shared.traversals = 0 := by
  obtain ⟨h1, h2⟩ := Pc.holds_of_reading hr.reading
  exact (hungUp_of_reach hr.reach).1.1.before k h1 h2

theorem Readable.unfinished (hr : Readable onFifoRead k s) (i : Nat) :
    s.pc i ≠ .finBuffer := fun hi => by
  have := (hungUp_of_reach hr.reach).1.1.during i (by rw [hi]; rfl)
  have := hr.traversals
  omega

theorem Pc.not_idle_of_reading {p : Pc} (hp : p.reading) : p ≠ .idle := by
  rintro rfl
  cases hp

theorem pc_stays (hs : step s a = some s') (hk : (s.pc k).reading) (ho : (source k).other a) :
    s'.pc k = s.pc k := by
  have hidle := Pc.not_idle_of_reading hk
  cases step_cases hs with
  | @begins i _ _ hb =>
    have hki : k ≠ i := by
      rintro rfl
      exact hidle hb.idle
    simp [hki]
  | waits ha | consume ha =>
    subst ha
    cases ho
  | @panic i ha =>
    subst ha
    have hki : k ≠ i := by
      rintro rfl
      simp [source] at ho
    simp [hki]
  | @move i j _ _ ha =>
    subst ha
    have hki : k ≠ i := by
      rintro rfl
      simp [source] at ho
    simp [hki]
  | @spawn i j _ _ _ ha _ _ _ hj =>
    subst ha
    have hki : k ≠ i := by
      rintro rfl
      simp [source] at ho
    have hkj : k ≠ j := by
      rintro rfl
      exact hidle hj
    simp [hki, hkj]

theorem run_shared {i j : Nat} (hs : step s (.run i j) = some s') :
    ∃ m, next s.shared i j (s.pc i) = some m ∧ s'.shared = m.shared := by
  rcases State.run_cases hs with ⟨c, p, hn, rfl⟩ | ⟨c, p, t, hn, -, -, -, rfl⟩
  · exact ⟨_, hn, rfl⟩
  · exact ⟨_, hn, rfl⟩

theorem inbox_of_not_run (hs : step s a = some s') (ho : (source k).other a)
    (ha : ∀ i j, a ≠ .run i j) :
    s'.shared.inbox = s.shared.inbox := by
  cases step_cases hs with
  | begins hb => exact hb.inbox
  | waits ha | consume ha =>
    subst ha
    cases ho
  | panic => rfl
  | move h | spawn h => exact absurd h (ha _ _)

theorem Short.other {f : Fifo} {p q : Pc} {m : Move Fifo Pc} (h : Short f q) (hm : HangMove f p m)
    (hfin : p ≠ .finBuffer)
    (hack : f.inbox.closing ≠ .none → ∀ n, p ≠ .inputAck n)
    (hslot : ∀ e, f.inbox.readTrigger = some (some e) → f.inbox.closing ≠ .none)
    (hfair : p = .hupClose → ∀ n r, q = .wait (.status n) r → f.inbox.length < n)
    (hsend : p = .hupTrigger → f.inbox.readTrigger = none → f.inbox.closing ≠ .none ∧
      ∀ n r, q = .wait (.recv n) r → f.inbox.length < n) : Short m.shared q := by
  have hlen (hc : f.inbox.closing ≠ .none) : m.shared.inbox.length = f.inbox.length :=
    (hm.length hfin).resolve_right fun ⟨n, hp, _⟩ => hack hc n hp
  have hhup (hp : p = .hupClose) : m.shared.inbox.length = f.inbox.length :=
    (hm.length hfin).resolve_right fun ⟨n, hp', _⟩ => by simp [hp] at hp'
  unfold Short at h ⊢
  split
  · rename_i n r
    intro hc
    rcases hm.closing with he | ⟨hp, -, -⟩
    · rw [hlen (he ▸ hc)]
      exact h (he ▸ hc)
    · rw [hhup hp]
      exact hfair hp n r rfl
  · rename_i n r
    intro e he
    rcases hm.slot e he with he | ⟨hp, hnone⟩
    · rw [hlen (hslot e he)]
      exact h e he
    · obtain ⟨hc, hlt⟩ := hsend hp hnone
      rw [hlen hc]
      exact hlt n r rfl
  · obtain ⟨hc, hlt⟩ := h
    refine ⟨?_, by rw [hlen hc]; exact hlt⟩
    rcases hm.closing with he | ⟨-, he, -⟩
    · rw [he]
      exact hc
    · exact he
  · trivial

theorem HungUp.no_ack (hh : HungUp s) (hc : s.shared.inbox.closing ≠ .none) {i : Nat}
    (hp : (s.pc i).polls) : s.pc i = .done :=
  (hh.polls i hp).2 (hh.closing hc)

theorem Readable.other (hr : Readable onFifoRead k s) (hg : a.inside ∧ a.undisturbed)
    (hf : a.fair k s) (ho : (source k).other a) (hs : step s a = some s') :
    Readable onFifoRead k s' := by
  have hpc := pc_stays hs hr.reading ho
  refine ⟨.tail hr.reach hg hs, hr.inside, by rw [hpc]; exact hr.reading, ?_⟩
  rw [hpc]
  by_cases ha : ∃ i j, a = .run i j
  · obtain ⟨i, j, rfl⟩ := ha
    obtain ⟨⟨hl, hc, haw⟩, hh⟩ := hungUp_of_reach hr.reach
    obtain ⟨m, hn, hsh⟩ := run_shared hs
    rw [hsh]
    refine hr.short.other (next_hang hn (hh.byUser i)) (hr.unfinished i) (fun hcl n hp => ?_)
      hh.slot (fun hp n r hq => ?_) fun hp hslot => ?_
    · have hd := hh.no_ack hcl (i := i) (by rw [hp]; rfl)
      simp [hp] at hd
    · simpa [Label.fair, hp, overtaken, hq] using hf
    · have hcl : s.shared.inbox.closing ≠ .none := hc i (by rw [hp]; rfl)
      refine ⟨hcl, fun n r hq => ?_⟩
      by_contra hlt
      rcases (haw k _ r hq).2.data rfl (Nat.le_of_not_lt hlt) with ht | ⟨q, hq⟩
      · simp [hslot] at ht
      · have hd := hh.no_ack hcl (i := q) (by cases hpq : s.pc q <;> simp_all [Pc.tells, Pc.polls])
        simp [hd, Pc.tells] at hq
  · simp only [not_exists] at ha
    have hin := inbox_of_not_run hs ho ha
    have hshort := hr.short
    unfold Short at hshort ⊢
    rw [hin]
    exact hshort

theorem length_acks (hr : Readable onFifoRead k s) (ho : (source k).other a)
    (hs : step s a = some s') :
    s'.shared.inbox.length = s.shared.inbox.length + (source k).acks s a := by
  have hh := (hungUp_of_reach hr.reach).2
  by_cases ha : ∃ i j, a = .run i j
  · obtain ⟨i, j, rfl⟩ := ha
    obtain ⟨m, hn, hsh⟩ := run_shared hs
    rw [hsh]
    rcases (next_hang hn (hh.byUser i)).length (hr.unfinished i) with hl | ⟨n, hp, hl⟩
    · rw [hl]
      cases i with
      | succ i => rfl
      | zero =>
        cases hp : s.pc 0 <;> simp only [source, hp, Nat.add_zero]
        case inputAck n =>
          simp only [hp, next, Option.some.injEq] at hn
          rw [← hn] at hl
          dsimp only at hl
          omega
    · obtain ⟨rfl, -⟩ := hh.polls i (by rw [hp]; rfl)
      simp only [source, hp]
      exact hl
  · simp only [not_exists] at ha
    rw [inbox_of_not_run hs ho ha]
    cases a with
    | run i j => exact absurd rfl (ha i j)
    | _ => rfl

theorem Short.waitRead {f : Fifo} {w : WaitPc} {r : Site} {b : Inbox} {o : Option WaitPc}
    (h : Short f (.wait w r)) (hw : Input.waitRead f.inbox w = some (b, o))
    (hslot : ∀ e, f.inbox.readTrigger = some (some e) → f.inbox.closing ≠ .none) :
    Short { f with inbox := b } (r.after o) := by
  cases waitRead_cases hw with
  | enough | clear => cases r <;> trivial
  | begin | store | full | retry => trivial
  | short hlt => exact fun _ => hlt
  | closed hc => exact ⟨hc, h hc⟩
  | wait hc => exact fun e he => absurd hc (hslot e he)
  | failed he => exact ⟨hslot _ he, h _ he⟩

theorem lawful (onFifoRead : Bool) (k : Nat) :
    Until.Lawful (source k) (Readable onFifoRead k)
      fun s a => (a.inside ∧ a.undisturbed) ∧ a.fair k s where
  other hr hg ho hs :=
    ⟨hr.other hg.1 hg.2 ho hs, by simp only [source, pc_stays hs hr.reading ho],
      length_acks hr ho hs⟩
  call {s n s'} hr hs := by
    have hg : step s (.waitRead k n) = some s' := hs
    obtain ⟨r, hsite, rfl⟩ := Option.map_eq_some_iff.mp hs
    obtain ⟨hpc, hout⟩ := site_pc hsite
    have hr' : r ≠ .outside := fun h => hr.inside (hout h)
    refine ⟨⟨.tail hr.reach ⟨by simpa [Label.inside] using hr.inside, rfl⟩ hg, hr.inside, ?_, ?_⟩,
      ?_, rfl⟩
    · cases r <;> simp_all [Pc.reading]
    · simp [Short]
    · simp [source]
  read {s s' w} hr hw hs := by
    have hg : step s (.run k 0) = some s' := hs
    cases hp : s.pc k <;> simp only [source, hp] at hw <;> cases hw
    rename_i r
    have hreading := hr.reading
    have hshort := hr.short
    rw [hp] at hreading hshort
    obtain ⟨⟨b, o⟩, hb, rfl⟩ : ∃ q, Input.waitRead s.shared.inbox w = some q ∧
        s' = s.enter { s.shared with inbox := q.1 } k (r.after q.2) := by
      rcases State.run_cases hs with ⟨c, p, hn, rfl⟩ | ⟨c, p, t, hn, -⟩
      · rw [hp] at hn
        obtain ⟨q, hq, he⟩ := Option.map_eq_some_iff.mp hn
        cases he
        exact ⟨q, hq, rfl⟩
      · rw [hp] at hn
        obtain ⟨q, -, he⟩ := Option.map_eq_some_iff.mp hn
        cases he
    refine ⟨⟨.tail hr.reach ⟨rfl, rfl⟩ hg, hr.inside, ?_, ?_⟩, ⟨b, ?_⟩, waitRead_length hb⟩
    · cases r <;> cases o <;> simp_all [Pc.reading, Site.after, Site.pc]
    · rw [State.enter_pc_self]
      exact hshort.waitRead hb (hungUp_of_reach hr.reach).2.slot
    · cases o <;> cases r <;> simpa [source, Site.after, Site.pc] using hb
  consume {s m s'} hr hs := by
    have hg : step s (.consume k m) = some s' := hs
    simp only [source, step] at hs
    split at hs <;> cases hs
    rename_i hm
    refine ⟨⟨.tail hr.reach ⟨rfl, rfl⟩ hg, hr.inside, hr.reading, ?_⟩, rfl⟩
    obtain ⟨r, hsite⟩ := Option.isSome_iff_exists.mp hm.1
    rw [show s.pc k = r.pc from (site_pc hsite).1]
    cases r <;> trivial
  closed {s a s'} hr hc hs := by
    have hcl := (hungUp_of_reach hr.reach).1.2.1
    have access {i j : Nat} {m : Move Fifo Pc} (hn : next s.shared i j (s.pc i) = some m) :
        m.shared.inbox.closing ≠ .none := by
      rcases (next_closing hn (hcl i)).1 with he | ⟨he, -⟩
      · rw [he]
        exact hc
      · exact he
    cases step_cases hs with
    | begins hb =>
      simp only [source, State.enter_shared, hb.inbox]
      exact hc
    | waits | consume | panic => exact hc
    | move _ hn | spawn _ hn => exact access hn
  short {s n err} hr hw := by
    have hs := hr.short
    cases hp : s.pc k <;> simp only [source, hp] at hw <;> cases hw
    rw [hp] at hs
    exact hs
  last {s a} hr hc := by
    have hh := (hungUp_of_reach hr.reach).2
    simp only [source]
    split
    · split
      · rename_i hp
        have hd := hh.no_ack hc (i := 0) (by rw [hp]; rfl)
        simp [hp] at hd
      · rfl
    · rfl

theorem readable_of_reach
    (hr : Reach step (fun _ a => a.inside ∧ a.undisturbed) (init onFifoRead) s) (hk : k ≠ 3)
    (hp : s.pc k = .first ∨ s.pc k = .more) : Readable onFifoRead k s := by
  refine ⟨hr, hk, ?_, ?_⟩ <;> rcases hp with hp | hp <;> rw [hp] <;> trivial

end

end Netpoll.ReadFifo

namespace Netpoll.Input.Until

open Netpoll.Lib.Transition
open Netpoll.Connection (Handlers)

/-- `connection.Until` and `readFifo.Until` answer for the stream as a whole, however
it is cut into chunks, when the close does not overtake the reader between its test
of the length and its test of `closing`. -/
theorem until_answers {α : Type*} [DecidableEq α] (delim : α) (input : List α) :
    (∀ (h : Handlers) (onRequest : Bool) (p : WaitRead.Place) (s₀ : WaitRead.System)
      (s : State WaitRead.System α) (line : List α) (err : Option ReadErr),
      Reach (WaitRead.step h) (fun _ a => a.calm) (WaitRead.init onRequest) s₀ →
      s₀.reader = none → s₀.mayRead p → (p = .outside → h.onConnect = false) →
      input.length = s₀.conn.shared.length →
      Reach (step (WaitRead.source h p) delim) (fun s a => a.Meets (fun s a => a.calm ∧ a.fair s) s)
        (start s₀ input) s →
      s.pc = .returned line err →
      Answers delim s.stream s.input line err ∧ s.source.conn.shared.traversals = 0) ∧
    ∀ (onFifoRead : Bool) (k : Nat) (s₀ : ReadFifo.System) (s : State ReadFifo.System α)
      (line : List α) (err : Option ReadErr),
      Reach ReadFifo.step (fun _ a => a.inside ∧ a.undisturbed) (ReadFifo.init onFifoRead) s₀ →
      k ≠ 3 → s₀.pc k = .first ∨ s₀.pc k = .more → input.length = s₀.shared.inbox.length →
      Reach (step (ReadFifo.source k) delim)
        (fun s a => a.Meets (fun s a => (a.inside ∧ a.undisturbed) ∧ a.fair k s) s)
        (start s₀ input) s →
      s.pc = .returned line err →
      Answers delim s.stream s.input line err ∧ s.source.shared.traversals = 0 := by
  refine ⟨fun h onRequest p s₀ s line err h₀ hidle hm hc hlen hr hret => ?_,
    fun onFifoRead k s₀ s line err h₀ hk hp hlen hr hret => ?_⟩
  · have hrun := running_of_reach (WaitRead.lawful h onRequest p)
      (WaitRead.readable_of_reach h₀ hidle hm hc) hlen hr
    have hat := hrun.stands
    rw [hret] at hat
    exact ⟨hat.1, hrun.inv.traversals⟩
  · have hrun := running_of_reach (ReadFifo.lawful onFifoRead k)
      (ReadFifo.readable_of_reach h₀ hk hp) hlen hr
    have hat := hrun.stands
    rw [hret] at hat
    exact ⟨hat.1, hrun.inv.traversals⟩

def chunk (bytes : List Nat) (first : Bool) : List (Label WaitRead.Label Nat) :=
  List.flatten [[.other (.conn (.readable bytes.length)) [], .other (.conn (.run 0 0)) [],
      .other (.conn (.run 0 0)) bytes],
    if first then [.other (.conn (.run 0 0)) []] else [],
    [.other .ack [], .other .ack [], .other (.conn (.run 0 0)) []]]

def twoChunks : List (Label WaitRead.Label Nat) := List.flatten
  [List.replicate 5 .run, chunk [97] true, List.replicate 10 .run, chunk [10, 98] false,
   List.replicate 8 .run]

theorem until_answers_two :
    ∃ s line err, Reach (step (WaitRead.source ⟨false, false⟩ .outside) 10)
        (fun s a => a.Meets (fun s a => a.calm ∧ a.fair s) s) (start (WaitRead.init false) []) s ∧
      s.pc = .returned line err ∧ line = [97, 10] ∧ s.stream = [97, 10, 98] ∧
      Answers 10 s.stream s.input line err := by
  obtain ⟨s, hs, hret, hstream⟩ : ∃ s,
    runs (guarded (step (WaitRead.source ⟨false, false⟩ .outside) 10)
      fun s a => match a with
        | .other a _ => a.calm && a.fair s.source
        | .run => true) (start (WaitRead.init false) []) twoChunks = some s ∧
      s.pc = .returned [97, 10] none ∧ s.stream = [97, 10, 98] := ⟨_, rfl, rfl, rfl⟩
  have hr : Reach (step (WaitRead.source ⟨false, false⟩ .outside) 10)
      (fun s a => a.Meets (fun s a => a.calm ∧ a.fair s) s) (start (WaitRead.init false) []) s := by
    refine (Reach.of_runs hs).mono fun s a _ ha => ?_
    cases a with
    | other a c => simpa [Label.Meets] using ha
    | run => trivial
  have hans := (until_answers 10 []).1 ⟨false, false⟩ false .outside (WaitRead.init false) s
    [97, 10] none
    .refl rfl rfl (fun _ => rfl) rfl hr hret
  exact ⟨s, _, _, hr, hret, rfl, hstream, hans.1⟩

def overtakenLine : List (Label WaitRead.Label Nat) := List.flatten
  [List.replicate 4 .run, chunk [97, 10] true,
   [.other (.conn .hup) [], .other (.conn (.run 0 0)) [], .other (.conn (.run 0 0)) [],
    .other (.conn .onhups) [], .other (.conn (.run 2 0)) []], List.replicate 4 .run]

/-- The line comes with an error, although it ends in the delimiter. -/
theorem until_overtaken :
    ∃ s, Reach (step (WaitRead.source ⟨false, false⟩ .outside) 10)
        (fun s a => a.Meets (fun _ a => a.calm) s) (start (WaitRead.init false) []) s ∧
      s.pc = .returned [97, 10] (some (.eof "wait read")) ∧ s.stream = [97, 10] ∧
      ¬ Answers 10 s.stream s.input [97, 10] (some (.eof "wait read")) := by
  obtain ⟨s, hs, hret, hstream⟩ : ∃ s,
    runs (guarded (step (WaitRead.source ⟨false, false⟩ .outside) 10)
      fun s a => match a with
        | .other a _ => a.calm
        | .run => true) (start (WaitRead.init false) []) overtakenLine = some s ∧
      s.pc = .returned [97, 10] (some (.eof "wait read")) ∧ s.stream = [97, 10] :=
        ⟨_, rfl, rfl, rfl⟩
  refine ⟨s, (Reach.of_runs hs).mono fun s a _ ha => ?_, hret, hstream, fun ha => ?_⟩
  · cases a with
    | other a c => exact ha
    | run => trivial
  · rw [hstream] at ha
    exact nomatch (ha.found (by decide)).1

end Netpoll.Input.Until
