import Netpoll.Input.Until
import Netpoll.Connection.Wakeup

namespace Netpoll.Connection

open Netpoll.Lib.Threads Netpoll.Lib.Transition

variable {h : Handlers} {s s' : System} {a : Label}

def Pc.handled : Pc → Bool
  | .idle | .inputs _ | .inputAck _ | .outputs | .outputAck | .appendHup | .done | .reqLoad _
  | .setLen
  | .acceptActive | .connLoad | .connNone | .hupClose | .discLoad | .discSet | .discRunFree
  | .discState | .discLock | .discCas | .discRun | .discUnlock | .hupCallback
  | .flushActive | .flushLock | .flushRun | .flushUnlock => false
  | _ => true

theorem next_unhandled {c : Conn} {k j : Nat} {p : Pc} {m : Move Conn Pc}
    (hn : next h c k j p = some m) (hc : h.onConnect = false) (hr : c.onRequest = false)
    (hp : p.handled = false) :
    m.shared.traversals = c.traversals ∧ m.pc.handled = false ∧ m.task = none := by
  cases p <;> simp only [Pc.handled, Bool.true_eq_false] at hp
  all_goals
    simp only [next, Pc.return] at hn
    (try split_ifs at hn) <;> cases hn
  all_goals simp_all [Pc.handled]

structure Unhandled (h : Handlers) (s : System) : Prop where
  onConnect : h.onConnect = false
  onRequest : s.shared.onRequest = false
  pc : ∀ i, (s.pc i).handled = false
  traversals : s.shared.traversals = 0

theorem Unhandled.step (hu : Unhandled h s) (ha : a.undisturbed) (hs : step h s a = some s') :
    Unhandled h s' := by
  have hreq := step_onRequest (Label.installed_of_undisturbed ha) hs
  have enters {c : Conn} {k : Nat} {p : Pc} (hp : p.handled = false) (i : Nat) :
      ((s.enter c k p).pc i).handled = false := by
    rcases eq_or_ne i k with rfl | hik
    · simpa using hp
    · simpa [hik] using hu.pc i
  cases step_cases hs with
  | @begins k p c hb =>
    refine ⟨hu.onConnect, hreq.trans hu.onRequest, enters ?_, hb.traversals.trans hu.traversals⟩
    have he := hb.entry
    cases p <;> simp only [Pc.entry, Bool.false_eq_true] at he <;> try rfl
    rcases hb.close rfl with rfl | rfl <;> cases ha
  | consume => exact ⟨hu.onConnect, hu.onRequest, hu.pc, hu.traversals⟩
  | panic hk =>
    subst hk
    cases ha
  | move _ hn =>
    obtain ⟨h1, h2, -⟩ := next_unhandled hn hu.onConnect hu.onRequest (hu.pc _)
    exact ⟨hu.onConnect, hreq.trans hu.onRequest, enters h2, h1.trans hu.traversals⟩
  | spawn _ hn => cases (next_unhandled hn hu.onConnect hu.onRequest (hu.pc _)).2.2

end Netpoll.Connection

namespace Netpoll.WaitRead

open Netpoll.Lib.Transition Netpoll.Input
open Netpoll.Connection (Handlers Orderly Unhandled)

/-- The connection, as a reader at `p` sees it. -/
def source (h : Handlers) (p : Place) : Until.Source System Label where
  step := step h
  inbox := System.inbox
  reader s := s.reader.map (·.2)
  call n := .waitRead p n
  read := .read
  consume m := .conn (.consume m)
  -- the goroutine of the handler is inside `Until`
  other
    | .waitRead .. | .read | .conn (.consume _) => false
    | .conn (.run k _) | .conn (.panic k) => p != .handler k
    | _ => true
  acks s
    | .conn (.run 0 _) => match s.conn.pc 0 with
      | .inputAck n => n
      | _ => 0
    | _ => 0

def Attached (h : Handlers) (s : System) : Place → Prop
  | .handler k => (s.conn.pc k).handling
  | .outside => Unhandled h s.conn

structure Readable (h : Handlers) (onRequest : Bool) (p : Place) (s : System) : Prop where
  reach : Reach (step h) (fun _ a => a.calm) (init onRequest) s
  kept : Kept s
  attached : Attached h s p

section

variable {h : Handlers} {onRequest : Bool} {p : Place} {s s' : System} {a : Label}

theorem Readable.orderly (hr : Readable h onRequest p s) : Orderly h s.conn :=
  conn_of_reach (fun _ _ => id) hr.reach

theorem Readable.locked (hr : Readable h onRequest p s) : Connection.Locked s.conn :=
  Connection.locked_of_installed (installed_reach (fun _ _ => id) hr.reach)

theorem Readable.traversals (hr : Readable h onRequest p s) : s.conn.shared.traversals = 0 := by
  have hatt := hr.attached
  cases p with
  | outside => exact hatt.traversals
  | handler k =>
    obtain ⟨h1, h2⟩ := Connection.Pc.holds_of_handling hatt
    exact hr.locked.before k h1 h2

theorem readable_of_reach (hr : Reach (step h) (fun _ a => a.calm) (init onRequest) s)
    (hidle : s.reader = none) (hm : s.mayRead p) (hc : p = .outside → h.onConnect = false) :
    Readable h onRequest p s := by
  have hmark : Marked s :=
    hr.invariant (I := Marked) (by constructor <;> simp [init]) fun _ _ _ hk _ hs => hk.step hs
  refine ⟨hr, ⟨hmark.slot, hmark.closer, by simp [hidle], by simp [hidle], by simp [hidle]⟩, ?_⟩
  cases p with
  | handler k => exact hm
  | outside =>
    have hreq : onRequest = false := by
      rw [← (Connection.dueMet_of_installed (installed_reach (fun _ _ => id) hr)).2]
      simpa [System.mayRead] using hm
    have hI : Unhandled h s.conn := by
      refine (conn_reach (fun _ _ => id) hr).invariant (I := Unhandled h) ?_
        fun _ _ _ hu ha hs => hu.step ha hs
      subst hreq
      exact ⟨hc rfl, rfl, fun _ => rfl, rfl⟩
    exact hI

theorem Readable.kept_step (hr : Readable h onRequest p s) (hc : a.calm) (hf : a.fair s)
    (hs : step h s a = some s') : Kept s' :=
  hr.kept.step (woken_of_reach (fun _ _ => id) hr.reach) hr.orderly hc hf hs

theorem Readable.other (hr : Readable h onRequest p s) (hg : a.calm ∧ a.fair s)
    (ho : (source h p).other a) (hs : step h s a = some s') : Readable h onRequest p s' := by
  refine ⟨.tail hr.reach hg.1 hs, hr.kept_step hg.1 hg.2 hs, ?_⟩
  have hatt := hr.attached
  rcases step_conn hs with he | ⟨b, rfl, hb⟩
  · rw [Attached.eq_def] at hatt ⊢
    rw [he]
    exact hatt
  · cases p with
    | outside => exact Unhandled.step hatt hg.1 hb
    | handler k =>
      have hpc : s'.conn.pc k = s.conn.pc k := by
        refine Connection.pc_stays hb ?_ ?_ ?_
        · exact Connection.Pc.not_idle_of_holds (Connection.Pc.holds_of_handling hatt).1
        · rintro j rfl
          simp [source] at ho
        · rintro rfl
          simp [source] at ho
      simp only [Attached, hpc]
      exact hatt

theorem Readable.own (hr : Readable h onRequest p s) (hg : a.calm ∧ a.fair s)
    (hs : step h s a = some s') (hpc : s'.conn.pc = s.conn.pc)
    (hconn : a.calm → Unhandled h s.conn → Unhandled h s'.conn) : Readable h onRequest p s' := by
  refine ⟨.tail hr.reach hg.1 hs, hr.kept_step hg.1 hg.2 hs, ?_⟩
  have hatt := hr.attached
  cases p with
  | outside => exact hconn hg.1 hatt
  | handler k =>
    simp only [Attached, hpc]
    exact hatt

theorem Readable.unfinished (hr : Readable h onRequest p s) (k : Nat) :
    s.conn.pc k ≠ .finBuffer := fun hk => by
  have := hr.locked.during k (by simp [hk, Connection.Pc.traversing])
  have := hr.traversals
  omega

theorem length_acks {b : Connection.Label} (hr : Readable h onRequest p s) (ha : b.undisturbed)
    (hother : (source h p).other (.conn b)) {t : Connection.System}
    (hb : Connection.step h s.conn b = some t) :
    t.shared.length = s.conn.shared.length + (source h p).acks s (.conn b) := by
  by_cases h0 : ∃ j, b = .run 0 j
  · obtain ⟨j, rfl⟩ := h0
    obtain ⟨m, hn, hsh, -⟩ := Connection.run_pc hb
    rw [hsh]
    cases hp : s.conn.pc 0 <;> simp only [source, hp]
    case inputAck n =>
      simp only [hp, Connection.next, Option.some.injEq] at hn
      rw [← hn]
    case finBuffer => exact absurd hp (hr.unfinished 0)
    all_goals
      refine (Connection.next_length hn).resolve_right ?_
      simp [hp]
  · simp only [not_exists] at h0
    have hle := (Connection.poller_stays hr.orderly.fenced ha hb h0).1
    have hge : s.conn.shared.length ≤ t.shared.length := by
      refine (Connection.length_of_unread hb ?_).resolve_right ?_
      · rintro m rfl
        cases hother
      · rintro ⟨k, hk, -⟩
        exact hr.unfinished k hk
    have hacks : (source h p).acks s (.conn b) = 0 := by
      cases b with
      | run k j => cases k with
        | zero => exact absurd rfl (h0 j)
        | succ k => rfl
      | _ => rfl
    omega

theorem other_step (hr : Readable h onRequest p s) (ha : a.calm) (hother : (source h p).other a)
    (hs : step h s a = some s') : s'.reader = s.reader ∧
      s'.conn.shared.length = s.conn.shared.length + (source h p).acks s a := by
  cases a with
  | conn b =>
    simp only [step] at hs
    split at hs
    · obtain ⟨t, ht, rfl⟩ := Option.map_eq_some_iff.mp hs
      exact ⟨rfl, length_acks hr ha hother ht⟩
    · cases hs
  | ack =>
    simp only [step] at hs
    split at hs <;> cases hs <;> exact ⟨rfl, rfl⟩
  | send k =>
    obtain ⟨e, -, rfl⟩ := Option.map_eq_some_iff.mp hs
    exact ⟨rfl, rfl⟩
  | waitRead | read => cases hother

theorem lawful (h : Handlers) (onRequest : Bool) (p : Place) :
    Until.Lawful (source h p) (Readable h onRequest p) fun s a => a.calm ∧ a.fair s where
  other hr hg ho hs := by
    obtain ⟨hreader, hlen⟩ := other_step hr hg.1 ho hs
    exact ⟨hr.other hg ho hs, by simp only [source, hreader], hlen⟩
  call {s n s'} hr hs := by
    have hg : step h s (.waitRead p n) = some s' := hs
    simp only [source, step] at hs
    split at hs <;> cases hs
    exact ⟨hr.own ⟨rfl, rfl⟩ hg rfl fun _ hu => hu, rfl, rfl⟩
  read {s s' w} hr hw hs := by
    have hg : step h s .read = some s' := hs
    obtain ⟨⟨q, w'⟩, hq, rfl⟩ := Option.map_eq_some_iff.mp hw
    simp only [source, step, hq] at hs
    obtain ⟨⟨b, o⟩, hb, rfl⟩ := Option.map_eq_some_iff.mp hs
    refine ⟨hr.own ⟨rfl, rfl⟩ hg rfl fun _ hu => hu, ⟨b, ?_⟩, rfl⟩
    simpa [source, Function.comp_def] using hb
  consume {s m s'} hr hs := by
    have hg : step h s (.conn (.consume m)) = some s' := hs
    simp only [source, step] at hs
    split at hs
    · obtain ⟨t, ht, rfl⟩ := Option.map_eq_some_iff.mp hs
      have ht' := ht
      simp only [Connection.step] at ht
      split at ht <;> cases ht
      exact ⟨hr.own ⟨rfl, rfl⟩ hg rfl fun ha hu => hu.step ha ht', rfl⟩
    · cases hs
  closed _ hc hs := by
    rcases step_conn hs with he | ⟨b, -, hb⟩
    · simpa [source, System.inbox, he] using hc
    · exact (Connection.step_later hb).closing hc
  short hr hw := by
    obtain ⟨⟨q, w'⟩, hq, rfl⟩ := Option.map_eq_some_iff.mp hw
    exact hr.kept.clear q _ _ hq
  last {s a} hr hc := by
    have hpoll := hr.orderly.hungUp.poller (hr.orderly.hungUp.closing hc)
    simp only [source]
    split
    · split
      · rename_i hp
        simp [hp, Connection.Pc.polls] at hpoll
      · rfl
    · rfl

end

end Netpoll.WaitRead
