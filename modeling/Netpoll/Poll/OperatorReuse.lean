import Mathlib.Tactic.Common
import Netpoll.Lib.Chain
import Netpoll.Lib.Transition
import Netpoll.Poll.OperatorCache

namespace Netpoll.Poll

open Netpoll.Lib.Threads Netpoll.Lib.Transition Netpoll.Lib.Chain

variable {opSize : Nat} {s s' : System} {a : Label} {c c' : Cache} {k : Nat} {p p' : Pc}

inductive Call (c : Cache) (k : Nat) : Pc → Pc → Prop
  | alloc : k ≠ 0 → Call c k .idle .allocLock
  | register {op} : Call c k (.held op) (.regCtl op)
  | detach {op} : Call c k (.registered op) (.detAdd op)
  | drop {op} : Call c k (.held op) (.freeUnused op)
  | free {op} : Call c k (.detached op) (.freeUnused op)
  | wait {files} : k = 0 → Call c k .wait (.handle (c.events files))
  | hup {e events} : Call c k (.doing e events) (.hupAdd e events)

inductive Turn (opSize : Nat) (c : Cache) (k : Nat) (p : Pc) (c' : Cache) (p' : Pc) : Prop
  | call : c' = c → Call c k p p' → Turn opSize c k p c' p'
  | access : next opSize c k p = some (c', p') → Turn opSize c k p c' p'

theorem step_cases (hs : step opSize s a = some s') :
    ∃ c p, Turn opSize s.shared a.goroutine (s.pc a.goroutine) c p ∧
      s' = s.enter c a.goroutine p := by
  cases a with
  | run k =>
    obtain ⟨⟨c, p⟩, hn, rfl⟩ := Option.map_eq_some_iff.mp hs
    exact ⟨c, p, .access hn, rfl⟩
  | alloc k =>
    simp only [step] at hs
    split at hs <;> cases hs
    rename_i h
    exact ⟨_, _, .call rfl (h.2 ▸ .alloc h.1), rfl⟩
  | wait files =>
    simp only [step] at hs
    split at hs <;> cases hs
    rename_i h
    exact ⟨_, _, .call rfl (h.1 ▸ .wait rfl), rfl⟩
  | register k =>
    simp only [step] at hs
    split at hs <;> cases hs
    rename_i op h
    exact ⟨_, _, .call rfl (h ▸ .register), rfl⟩
  | detach k =>
    simp only [step] at hs
    split at hs <;> cases hs
    rename_i op h
    exact ⟨_, _, .call rfl (h ▸ .detach), rfl⟩
  | free k =>
    simp only [step] at hs
    split at hs <;> cases hs <;> rename_i op h
    · exact ⟨_, _, .call rfl (h ▸ .drop), rfl⟩
    · exact ⟨_, _, .call rfl (h ▸ .free), rfl⟩
  | hup =>
    simp only [step] at hs
    split at hs <;> cases hs
    rename_i e events h
    exact ⟨_, _, .call rfl (h ▸ .hup), rfl⟩

theorem step_idle (hs : step opSize s a = some s') (h : s.pc a.goroutine = .idle) :
    a = .alloc a.goroutine := by
  cases a <;> simp_all [step, Label.goroutine, State.move, next]

theorem step_allocPop (hs : step opSize s a = some s') (h : s.pc a.goroutine = .allocPop) :
    a = .run a.goroutine := by
  cases a <;> simp_all [step, Label.goroutine]

def Pc.polling : Pc → Bool
  | .wait | .handle _ | .doing .. | .hupAdd .. | .hupCtl .. | .hupDel .. | .done ..
  | .pollFreelock | .pollTest | .pollLock | .pollMove _ | .pollClear | .pollUnlock
  | .pollFreeunlock => true
  | _ => false

def Pc.op : Pc → Option Nat
  | .allocUnlock op | .allocPoll op | .setFd op | .held op | .regCtl op | .regInuse _ op
  | .regAdd _ op | .registered op | .detAdd op | .detCtl op | .detDel _ op | .detached op
  | .freeUnused op | .freeReset op | .freeLock op | .freeAppend op => some op
  | _ => none

def Pc.locks : Pc → Bool
  | .allocTest | .allocGrow .. | .allocPop | .allocUnlock _ | .pollMove _ | .pollClear
  | .pollUnlock => true
  | _ => false

def Pc.freelocks : Pc → Bool
  | .freeAppend _ | .freeUnlock | .pollTest | .pollLock | .pollMove _ | .pollClear | .pollUnlock
  | .pollFreeunlock => true
  | _ => false

theorem Turn.polling (ht : Turn opSize c k p c' p') : p'.polling = p.polling := by
  cases ht with
  | call _ hc => cases hc <;> rfl
  | access hn =>
    cases p
    all_goals
      simp only [next] at hn
      (try split at hn) <;> (try split at hn) <;> cases hn
    all_goals rfl

theorem Turn.locks (ht : Turn opSize c k p c' p') :
    State.LockStep Cache.locked Pc.locks c k p c' p' := by
  cases ht with
  | call he hc =>
    subst he
    cases hc <;> exact .keep rfl rfl
  | access hn =>
    cases p
    all_goals
      simp only [next] at hn
      (try split at hn) <;> (try split at hn) <;> cases hn
    all_goals first
      | exact .keep rfl rfl
      | exact .acquire (by simp_all) rfl
      | exact .release rfl rfl

theorem Turn.freelocks (ht : Turn opSize c k p c' p') :
    State.LockStep Cache.freelocked Pc.freelocks c k p c' p' := by
  cases ht with
  | call he hc =>
    subst he
    cases hc <;> exact .keep rfl rfl
  | access hn =>
    cases p
    all_goals
      simp only [next] at hn
      (try split at hn) <;> (try split at hn) <;> cases hn
    all_goals first
      | exact .keep rfl rfl
      | exact .acquire (by simp_all) rfl
      | exact .release rfl rfl

structure Exclusive (s : System) : Prop where
  polling : ∀ k, (s.pc k).polling = true ↔ k = 0
  locked : s.Owned Cache.locked Pc.locks
  freelocked : s.Owned Cache.freelocked Pc.freelocks

theorem Exclusive.step (he : Exclusive s) (ht : Turn opSize s.shared k (s.pc k) c p) :
    Exclusive (s.enter c k p) where
  polling i := by
    rcases eq_or_ne i k with rfl | hik
    · simpa [ht.polling] using he.polling i
    · simpa [hik] using he.polling i
  locked := he.locked.step ht.locks
  freelocked := he.freelocked.step ht.freelocks

def Pc.pending (freelist : List Nat) : Pc → List Nat
  | .pollMove rest => rest
  | .pollClear => []
  | _ => freelist

def pending (s : System) : List Nat := (s.pc 0).pending s.shared.freelist

inductive PlaceMove (c : Cache) : Pc → Cache → Pc → Prop
  | keep {q d q'} : d.cache = c.cache → d.first = c.first →
      (∀ i, (d.ops i).next = (c.ops i).next ∧ (d.ops i).index = (c.ops i).index) →
      q'.pending d.freelist = q.pending c.freelist →
      (q.polling = false → d.freelist = c.freelist) → q'.op = q.op → PlaceMove c q d q'
  | grow {left index op d} : op = c.cache.length → d.cache = c.cache ++ [op] →
      d.first = some op →
      d.ops = Function.update c.ops op ⟨0, false, 0, c.first, .unused, index⟩ →
      d.freelist = c.freelist →
      PlaceMove c (.allocGrow (left + 1) index) d (.allocGrow left (index + 1))
  | pop {op d} : c.first = some op → d.first = (c.ops op).next → d.cache = c.cache →
      d.ops = c.ops → d.freelist = c.freelist → PlaceMove c .allocPop d (.allocUnlock op)
  | give {op d} : d.first = c.first → d.cache = c.cache → d.ops = c.ops →
      d.freelist = c.freelist ++ [(c.ops op).index] → PlaceMove c (.freeAppend op) d .freeUnlock
  | move {idx rest op d} : c.cache[idx]? = some op → d.first = some op → d.cache = c.cache →
      d.ops = Function.update c.ops op { c.ops op with next := c.first } →
      PlaceMove c (.pollMove (idx :: rest)) d (.pollMove rest)

theorem Cache.set_place {op : Nat} {f : FDOperator → FDOperator}
    (hf : ∀ o, (f o).next = o.next ∧ (f o).index = o.index) (i : Nat) :
    ((c.set op f).ops i).next = (c.ops i).next ∧ ((c.set op f).ops i).index = (c.ops i).index := by
  rcases eq_or_ne i op with rfl | hi
  · simp [hf]
  · simp [hi]

theorem Cache.set_same (op : Nat) {f : FDOperator → FDOperator}
    (hf : ∀ o, (f o).state = o.state ∧ (f o).detached = o.detached ∧ (f o).fd = o.fd) (i : Nat) :
    ((c.set op f).ops i).state = (c.ops i).state ∧
      ((c.set op f).ops i).detached = (c.ops i).detached ∧
      ((c.set op f).ops i).fd = (c.ops i).fd := by
  rcases eq_or_ne i op with rfl | hi
  · simp [hf]
  · simp [hi]

theorem Turn.place (ht : Turn opSize c k p c' p') : PlaceMove c p c' p' := by
  cases ht with
  | call he hc =>
    subst he
    cases hc <;> exact .keep rfl rfl (fun _ => ⟨rfl, rfl⟩) rfl (fun _ => rfl) rfl
  | access hn =>
    cases p
    all_goals
      simp only [next] at hn
      (try split at hn) <;> (try split at hn) <;> cases hn
    all_goals first
      | exact .keep rfl rfl (fun _ => ⟨rfl, rfl⟩) rfl (fun _ => rfl) rfl
      | exact .keep rfl rfl (Cache.set_place fun _ => ⟨rfl, rfl⟩) rfl (fun _ => rfl) rfl
      | exact .keep rfl rfl (fun _ => ⟨rfl, rfl⟩) rfl (by simp [Pc.polling]) rfl
      | exact .grow rfl rfl rfl rfl rfl
      | exact .pop ‹_› rfl rfl rfl rfl
      | exact .give rfl rfl rfl rfl
      | exact .move ‹_› rfl rfl rfl

/-- The free list is the chain `F`; every operator created so far is in it, in the
pending part of the freelist or with one owner. -/
structure Placed (s : System) (F : List Nat) : Prop where
  chain : Seg (fun i => (s.shared.ops i).next) s.shared.first F none
  cache : s.shared.cache = List.range s.shared.cache.length
  index : ∀ i < s.shared.cache.length, (s.shared.ops i).index = i
  nodup : (F ++ pending s).Nodup
  listed : ∀ i ∈ F ++ pending s, i < s.shared.cache.length
  held : ∀ k i, (s.pc k).op = some i → i < s.shared.cache.length ∧ i ∉ F ++ pending s
  unique : ∀ k l i, (s.pc k).op = some i → (s.pc l).op = some i → k = l
  cover : ∀ i < s.shared.cache.length, i ∈ F ++ pending s ∨ ∃ k, (s.pc k).op = some i

theorem pending_enter_owner (hk : k ≠ 0) :
    pending (s.enter c k p) = (s.pc 0).pending c.freelist := by
  simp [pending, hk.symm]

theorem pending_enter_poller : pending (s.enter c 0 p) = p.pending c.freelist := by
  simp [pending]

theorem init_op (k : Nat) : (init.pc k).op = none := by
  simp only [init]
  split <;> rfl

namespace Placed

variable {F : List Nat}

theorem keep (hp : Placed s F) (hcache : c.cache = s.shared.cache)
    (hfirst : c.first = s.shared.first)
    (hops : ∀ i, (c.ops i).next = (s.shared.ops i).next ∧
      (c.ops i).index = (s.shared.ops i).index)
    (hpend : pending (s.enter c k p) = pending s) (hop : p.op = (s.pc k).op) :
    Placed (s.enter c k p) F := by
  have hpc : ∀ i, ((s.enter c k p).pc i).op = (s.pc i).op := by
    intro i
    rcases eq_or_ne i k with rfl | hik
    · simpa using hop
    · simp [hik]
  constructor
  · simp only [State.enter_shared, hfirst]
    exact hp.chain.congr fun i _ => (hops i).1
  · simpa [hcache] using hp.cache
  · simpa [hcache, hops] using hp.index
  · simpa [hpend] using hp.nodup
  · simpa [hpend, hcache] using hp.listed
  · simpa [hpend, hcache, hpc] using hp.held
  · simpa [hpc] using hp.unique
  · simpa [hpend, hcache, hpc] using hp.cover

theorem grow (hp : Placed s F) {op index left left' : Nat} (hk : k ≠ 0)
    (hpc : s.pc k = .allocGrow left index) (hindex : index = s.shared.cache.length)
    (hop : op = s.shared.cache.length) (hcache : c.cache = s.shared.cache ++ [op])
    (hfirst : c.first = some op)
    (hops : c.ops = Function.update s.shared.ops op ⟨0, false, 0, s.shared.first, .unused, index⟩)
    (hfree : c.freelist = s.shared.freelist) :
    Placed (s.enter c k (.allocGrow left' (index + 1))) (op :: F) := by
  have hpend : pending (s.enter c k (.allocGrow left' (index + 1))) = pending s := by
    rw [pending_enter_owner hk, hfree, pending]
  have hnot : op ∉ F ++ pending s := fun h => by
    have := hp.listed op h
    omega
  have hpcs : ∀ i, ((s.enter c k (.allocGrow left' (index + 1))).pc i).op = (s.pc i).op := by
    intro i
    rcases eq_or_ne i k with rfl | hik
    · simp [hpc, Pc.op]
    · simp [hik]
  constructor
  · refine ⟨hfirst, ?_⟩
    simp only [State.enter_shared, hops, Function.update_self]
    refine hp.chain.congr fun i hi => ?_
    have hne : i ≠ op := by
      rintro rfl
      exact hnot (by simp [hi])
    simp [hne]
  · simp [hcache, hop, List.range_succ, ← hp.cache]
  · intro i hi
    simp only [State.enter_shared, hcache, List.length_append, List.length_singleton] at hi
    rcases eq_or_ne i op with rfl | hne
    · simp [hops, hindex, hop]
    · simpa [hops, hne] using hp.index i (by omega)
  · simpa [hpend] using ⟨by simpa using hnot, hp.nodup⟩
  · intro i hi
    simp only [hpend, List.cons_append, List.mem_cons] at hi
    simp only [State.enter_shared, hcache, List.length_append, List.length_singleton]
    obtain rfl | hi := hi
    · omega
    · have := hp.listed i hi
      omega
  · intro l i hi
    rw [hpcs] at hi
    obtain ⟨hlt, hno⟩ := hp.held l i hi
    have hne : i ≠ op := by omega
    refine ⟨?_, by simpa [hpend, hne] using hno⟩
    simp only [State.enter_shared, hcache, List.length_append, List.length_singleton]
    omega
  · simpa [hpcs] using hp.unique
  · intro i hi
    simp only [State.enter_shared, hcache, List.length_append, List.length_singleton] at hi
    rcases eq_or_ne i op with rfl | hne
    · simp
    · obtain h | ⟨l, hl⟩ := hp.cover i (by omega)
      · exact .inl (by simpa [hpend, hne] using h)
      · exact .inr ⟨l, by rw [hpcs, hl]⟩

theorem pop (hp : Placed s F) {op : Nat} (hk : k ≠ 0) (hpc : s.pc k = .allocPop)
    (hfirst : s.shared.first = some op) (hfirst' : c.first = (s.shared.ops op).next)
    (hcache : c.cache = s.shared.cache) (hops : c.ops = s.shared.ops)
    (hfree : c.freelist = s.shared.freelist) :
    ∃ G, F = op :: G ∧ Placed (s.enter c k (.allocUnlock op)) G := by
  have hpend : pending (s.enter c k (.allocUnlock op)) = pending s := by
    rw [pending_enter_owner hk, hfree, pending]
  obtain _ | ⟨i, G⟩ := F
  · have := hp.chain
    simp [hfirst] at this
  obtain ⟨h1, h2⟩ := hp.chain
  obtain rfl : op = i := by simpa [hfirst] using h1
  refine ⟨G, rfl, ?_⟩
  have hnd := hp.nodup
  simp only [List.cons_append, List.nodup_cons] at hnd
  have hmine : ∀ l, (s.pc l).op ≠ some op := fun l hl => (hp.held l op hl).2 (by simp)
  constructor
  · simpa [hfirst', hops] using h2
  · simpa [hcache] using hp.cache
  · simpa [hcache, hops] using hp.index
  · simpa [hpend] using hnd.2
  · intro i hi
    simp only [State.enter_shared, hcache]
    exact hp.listed i (by simpa [hpend] using .inr (by simpa [hpend] using hi))
  · intro l i hi
    simp only [State.enter_shared, hcache, hpend]
    rcases eq_or_ne l k with rfl | hlk
    · obtain rfl : op = i := by simpa [Pc.op] using hi
      exact ⟨hp.listed op (by simp), hnd.1⟩
    · obtain ⟨hlt, hno⟩ := hp.held l i (by simpa [hlk] using hi)
      exact ⟨hlt, fun h => hno (by simpa using .inr (by simpa using h))⟩
  · intro l m i hl hm
    rcases eq_or_ne l k with rfl | hlk <;> rcases eq_or_ne m l with rfl | hml
    · rfl
    · obtain rfl : op = i := by simpa [Pc.op] using hl
      exact absurd (by simpa [hml] using hm) (hmine m)
    · rfl
    · rcases eq_or_ne m k with rfl | hmk
      · obtain rfl : op = i := by simpa [Pc.op] using hm
        exact absurd (by simpa [hlk] using hl) (hmine l)
      · exact hp.unique l m i (by simpa [hlk] using hl) (by simpa [hmk] using hm)
  · intro i hi
    rcases eq_or_ne i op with rfl | hne
    · exact .inr ⟨k, by simp [Pc.op]⟩
    obtain h | ⟨l, hl⟩ := hp.cover i (by simpa [hcache] using hi)
    · exact .inl (by simpa [hpend, hne] using h)
    · have hlk : l ≠ k := by
        rintro rfl
        simp [hpc, Pc.op] at hl
      exact .inr ⟨l, by simpa [hlk] using hl⟩

theorem give (hp : Placed s F) (he : Exclusive s) {op : Nat} (hk : k ≠ 0)
    (hpc : s.pc k = .freeAppend op) (hfirst : c.first = s.shared.first)
    (hcache : c.cache = s.shared.cache) (hops : c.ops = s.shared.ops)
    (hfree : c.freelist = s.shared.freelist ++ [(s.shared.ops op).index]) :
    Placed (s.enter c k .freeUnlock) F ∧ pending (s.enter c k .freeUnlock) = pending s ++ [op] := by
  have hop : (s.pc k).op = some op := by simp [hpc, Pc.op]
  obtain ⟨hlt, hno⟩ := hp.held k op hop
  -- the poller is not inside `free`: it would hold the lock of the freelist
  have hout : (s.pc 0).freelocks = false :=
    he.freelocked.other_free (by simp [hpc, Pc.freelocks]) hk.symm
  have hpend : pending (s.enter c k .freeUnlock) = pending s ++ [op] := by
    rw [pending_enter_owner hk, hfree, hp.index op hlt, pending]
    cases hq : s.pc 0 <;> simp_all [Pc.pending, Pc.freelocks]
  have hpcs : ∀ l i, ((s.enter c k .freeUnlock).pc l).op = some i ↔
      (s.pc l).op = some i ∧ i ≠ op := by
    intro l i
    rcases eq_or_ne l k with rfl | hlk
    · simp [hpc, Pc.op, eq_comm]
    · simp only [ne_eq, hlk, not_false_eq_true, State.enter_pc_of_ne]
      refine ⟨fun h => ⟨h, ?_⟩, fun h => h.1⟩
      rintro rfl
      exact hlk (hp.unique l k i h hop)
  refine ⟨?_, hpend⟩
  constructor
  · simpa [hfirst, hops] using hp.chain
  · simpa [hcache] using hp.cache
  · simpa [hcache, hops] using hp.index
  · rw [hpend, ← List.append_assoc]
    exact List.nodup_append.mpr ⟨hp.nodup, by simp, by
      rintro i hi j hj rfl
      obtain rfl := List.mem_singleton.mp hj
      exact hno hi⟩
  · intro i hi
    rw [hpend, ← List.append_assoc, List.mem_append, List.mem_singleton] at hi
    simp only [State.enter_shared, hcache]
    obtain hi | rfl := hi
    · exact hp.listed i hi
    · exact hlt
  · intro l i hi
    obtain ⟨hl, hne⟩ := (hpcs l i).mp hi
    obtain ⟨h1, h2⟩ := hp.held l i hl
    simp only [State.enter_shared, hcache]
    exact ⟨h1, by simpa [hpend, hne] using h2⟩
  · exact fun l m i hl hm => hp.unique l m i ((hpcs l i).mp hl).1 ((hpcs m i).mp hm).1
  · intro i hi
    rcases eq_or_ne i op with rfl | hne
    · exact .inl (by simp [hpend])
    obtain h | ⟨l, hl⟩ := hp.cover i (by simpa [hcache] using hi)
    · exact .inl (by simpa [hpend, hne] using h)
    · exact .inr ⟨l, (hpcs l i).mpr ⟨hl, hne⟩⟩

theorem move (hp : Placed s F) {idx op : Nat} {rest : List Nat}
    (hpc : s.pc 0 = .pollMove (idx :: rest)) (hget : s.shared.cache[idx]? = some op)
    (hfirst : c.first = some op) (hcache : c.cache = s.shared.cache)
    (hops : c.ops = Function.update s.shared.ops op
      { s.shared.ops op with next := s.shared.first }) :
    Placed (s.enter c 0 (.pollMove rest)) (op :: F) ∧
      pending s = op :: pending (s.enter c 0 (.pollMove rest)) := by
  obtain rfl : idx = op := by
    rw [hp.cache] at hget
    obtain ⟨_, hidx⟩ := List.getElem?_eq_some_iff.mp hget
    simpa using hidx
  have hpend : pending (s.enter c 0 (.pollMove rest)) = rest := by
    simp [pending_enter_poller, Pc.pending]
  have hold : pending s = idx :: rest := by simp [pending, hpc, Pc.pending]
  have hperm : (F ++ pending s).Perm (idx :: F ++ rest) := by
    rw [hold]
    exact List.perm_middle
  have hmem : ∀ i, i ∈ idx :: F ++ rest ↔ i ∈ F ++ pending s := fun i => hperm.mem_iff.symm
  have hpcs : ∀ i, ((s.enter c 0 (.pollMove rest)).pc i).op = (s.pc i).op := by
    intro i
    rcases eq_or_ne i 0 with rfl | hi
    · simp [hpc, Pc.op]
    · simp [hi]
  have hnd := hperm.nodup_iff.mp hp.nodup
  refine ⟨?_, by rw [hpend, hold]⟩
  constructor
  · refine ⟨hfirst, ?_⟩
    simp only [State.enter_shared, hops, Function.update_self]
    refine hp.chain.congr fun i hi => ?_
    have hne : i ≠ idx := by
      rintro rfl
      simp [hi] at hnd
    simp [hne]
  · simpa [hcache] using hp.cache
  · intro i hi
    simp only [State.enter_shared, hcache] at hi
    rcases eq_or_ne i idx with rfl | hne
    · simpa [hops] using hp.index i hi
    · simpa [hops, hne] using hp.index i hi
  · rwa [hpend]
  · intro i hi
    simp only [State.enter_shared, hcache]
    exact hp.listed i ((hmem i).mp (hpend ▸ hi))
  · intro l i hi
    rw [hpcs] at hi
    simp only [State.enter_shared, hcache]
    exact ⟨(hp.held l i hi).1, fun h => (hp.held l i hi).2 ((hmem i).mp (hpend ▸ h))⟩
  · simpa [hpcs] using hp.unique
  · intro i hi
    obtain h | ⟨l, hl⟩ := hp.cover i (by simpa [hcache] using hi)
    · exact .inl (hpend ▸ (hmem i).mpr h)
    · exact .inr ⟨l, by rw [hpcs, hl]⟩

theorem init : Placed init [] where
  chain := rfl
  cache := rfl
  index _ h := absurd h (by simp [Poll.init])
  nodup := by simp [pending, Pc.pending, Poll.init]
  listed := by simp [pending, Pc.pending, Poll.init]
  held k i h := by simp [init_op] at h
  unique k l i h := by simp [init_op] at h
  cover _ h := absurd h (by simp [Poll.init])

end Placed

structure Growing (opSize : Nat) (s : System) : Prop where
  index : ∀ k left index, s.pc k = .allocGrow left index → index = s.shared.cache.length
  ready : ∀ k left index, s.pc k = .allocGrow left index → left < growth opSize →
    s.shared.first ≠ none
  pop : ∀ k, s.pc k = .allocPop → s.shared.first ≠ none

theorem growth_pos (opSize : Nat) : 0 < growth opSize := by
  simp only [growth]
  split
  · exact Nat.one_pos
  · exact Nat.pos_of_ne_zero ‹_›

theorem Turn.outside (ht : Turn opSize c k p c' p') (hp : p.locks = false) :
    c'.cache = c.cache ∧ c'.first = c.first := by
  cases ht.place with
  | keep hcache hfirst => exact ⟨hcache, hfirst⟩
  | give hfirst hcache => exact ⟨hcache, hfirst⟩
  | _ => simp [Pc.locks] at hp

theorem Turn.growing (ht : Turn opSize c k p c' p')
    (hindex : ∀ left index, p = .allocGrow left index → index = c.cache.length)
    (hready : ∀ left index, p = .allocGrow left index → left < growth opSize → c.first ≠ none) :
    (∀ left index, p' = .allocGrow left index → index = c'.cache.length) ∧
      (∀ left index, p' = .allocGrow left index → left < growth opSize → c'.first ≠ none) ∧
      (p' = .allocPop → c'.first ≠ none) := by
  cases ht with
  | call he hc => cases hc <;> simp
  | access hn =>
    have hpos := growth_pos opSize
    cases p
    all_goals
      simp only [next] at hn
      (try split at hn) <;> (try split at hn) <;> cases hn
    all_goals simp_all

theorem Growing.step (hg : Growing opSize s) (he : Exclusive s)
    (ht : Turn opSize s.shared k (s.pc k) c p) : Growing opSize (s.enter c k p) := by
  obtain ⟨hindex, hready, hpop⟩ := ht.growing (hg.index k) (hg.ready k)
  have hother : ∀ i, i ≠ k → (s.pc i).locks →
      c.cache = s.shared.cache ∧ c.first = s.shared.first := fun i hik hi =>
    ht.outside (he.locked.other_free hi hik.symm)
  constructor
  · intro i left index hi
    rcases eq_or_ne i k with rfl | hik
    · exact hindex left index (by simpa using hi)
    · rw [State.enter_pc_of_ne _ _ _ hik] at hi
      simpa [(hother i hik (by simp [hi, Pc.locks])).1] using hg.index i left index hi
  · intro i left index hi
    rcases eq_or_ne i k with rfl | hik
    · exact hready left index (by simpa using hi)
    · rw [State.enter_pc_of_ne _ _ _ hik] at hi
      simpa [(hother i hik (by simp [hi, Pc.locks])).2] using hg.ready i left index hi
  · intro i hi
    rcases eq_or_ne i k with rfl | hik
    · exact hpop (by simpa using hi)
    · rw [State.enter_pc_of_ne _ _ _ hik] at hi
      simpa [(hother i hik (by simp [hi, Pc.locks])).2] using hg.pop i hi

inductive Phase
  | fresh
  | adding
  | live
  | deleting
  | cleared
  | unused
  | reset
  | away
  deriving DecidableEq, Repr

def Pc.phase : Pc → Phase
  | .allocUnlock _ | .allocPoll _ | .setFd _ | .held _ | .regCtl _ | .regInuse .. => .fresh
  | .regAdd .. => .adding
  | .registered _ | .detAdd _ => .live
  | .detCtl _ | .detDel .. => .deleting
  | .detached _ | .freeUnused _ => .cleared
  | .freeReset _ => .unused
  | .freeLock _ | .freeAppend _ => .reset
  | _ => .away

def Pc.fd : Pc → Option Nat
  | .regInuse fd _ | .regAdd fd _ | .detDel fd _ => some fd
  | _ => none

def Pc.batch : Pc → List Event
  | .handle events => events
  | .doing e events | .hupAdd e events | .hupCtl e events | .hupDel _ e events
  | .done e events => e :: events
  | _ => []

def Pc.current : Pc → Option Nat
  | .doing e _ | .hupAdd e _ | .hupCtl e _ | .hupDel _ e _ | .done e _ => some e.op
  | _ => none

def Pc.hupping : Pc → Option Nat
  | .hupCtl e _ | .hupDel _ e _ => some e.op
  | _ => none

def Pc.hupFd : Pc → Option (Nat × Nat)
  | .hupDel fd e _ => some (fd, e.op)
  | _ => none

def Phase.exposed : Phase → Bool
  | .live | .deleting | .cleared => true
  | _ => false

def Phase.retired : Phase → Bool
  | .unused | .reset => true
  | _ => false

def Phase.undetached : Phase → Bool
  | .fresh | .adding | .reset => true
  | _ => false

structure Held (c : Cache) (q : Pc) (i : Nat) (ph : Phase) : Prop where
  unused : ph = .fresh ∨ ph.retired → (c.ops i).state = .unused
  undetached : ph.undetached → (c.ops i).detached = 0
  current : q.current = some i → (c.ops i).state = .doing ∧ ph.exposed
  hupFd : ∀ fd, q.hupFd = some (fd, i) → fd = (c.ops i).fd
  interest : ∀ file, c.interest file = some i → ph.exposed ∧ file = (c.ops i).fd ∧
    (ph = .cleared ∨ 0 < (c.ops i).detached → ph = .deleting ∨ q.hupping = some i)
  batch : ∀ e ∈ q.batch, e.op = i → ph.exposed ∧ e.file = (c.ops i).fd ∨ ph.retired

structure Rest (c : Cache) (q : Pc) (pend : List Nat) (i : Nat) : Prop where
  unused : (c.ops i).state = .unused
  undetached : (c.ops i).detached = 0
  current : q.current ≠ some i
  interest : ∀ file, c.interest file ≠ some i
  batch : ∀ e ∈ q.batch, e.op = i → i ∈ pend

theorem Pc.current_of_hupping {q : Pc} {i : Nat} (h : q.hupping = some i) : q.current = some i := by
  cases q <;> first | exact h | cases h

theorem Pc.current_of_hupFd {q : Pc} {fd i : Nat} (h : q.hupFd = some (fd, i)) :
    q.current = some i := by
  cases q <;> simp_all [Pc.hupFd, Pc.current]

namespace Held

variable {q : Pc} {i fd : Nat} {ph : Phase} {f : FDOperator → FDOperator}

theorem congr (hh : Held c q i ph) (hst : (c'.ops i).state = (c.ops i).state)
    (hdet : (c'.ops i).detached = (c.ops i).detached) (hfd : (c'.ops i).fd = (c.ops i).fd)
    (hint : ∀ file, c'.interest file = some i → c.interest file = some i) : Held c' q i ph where
  unused h := hst.trans (hh.unused h)
  undetached h := hdet.trans (hh.undetached h)
  current h := by simpa [hst] using hh.current h
  hupFd fd h := by simpa [hfd] using hh.hupFd fd h
  interest file h := by simpa [hfd, hdet] using hh.interest file (hint file h)
  batch e he hi := by simpa [hfd] using hh.batch e he hi

theorem not_current (hh : Held c q i ph) (hph : ph.exposed = false) : q.current ≠ some i := by
  intro h
  exact Bool.false_ne_true (hph.symm.trans (hh.current h).2)

theorem no_interest (hh : Held c q i ph) (hph : ph.exposed = false) (file : Nat) :
    c.interest file ≠ some i := by
  intro h
  exact Bool.false_ne_true (hph.symm.trans (hh.interest file h).1)

theorem setFd (hh : Held c q i .fresh) (hst : (c'.ops i).state = (c.ops i).state)
    (hdet : (c'.ops i).detached = (c.ops i).detached) (hint : c'.interest = c.interest) :
    Held c' q i .fresh where
  unused h := hst.trans (hh.unused h)
  undetached h := hdet.trans (hh.undetached h)
  current h := absurd h (hh.not_current rfl)
  hupFd _ h := absurd (Pc.current_of_hupFd h) (hh.not_current rfl)
  interest file h := absurd (hint ▸ h) (hh.no_interest rfl file)
  batch e he hi := by simpa [Phase.exposed, Phase.retired] using hh.batch e he hi

theorem inuse (hh : Held c q i .fresh) (hdet : (c'.ops i).detached = (c.ops i).detached)
    (hint : c'.interest = c.interest) : Held c' q i .adding where
  unused := by simp [Phase.retired]
  undetached _ := hdet.trans (hh.undetached rfl)
  current h := absurd h (hh.not_current rfl)
  hupFd _ h := absurd (Pc.current_of_hupFd h) (hh.not_current rfl)
  interest file h := absurd (hint ▸ h) (hh.no_interest rfl file)
  batch e he hi := by simpa [Phase.exposed, Phase.retired] using hh.batch e he hi

theorem add (hh : Held c q i .adding) (hops : c'.ops = c.ops) (hfd : fd = (c.ops i).fd)
    (hint : c'.interest = Function.update c.interest fd (some i)) : Held c' q i .live where
  unused := by simp [Phase.retired]
  undetached := by simp [Phase.undetached]
  current h := absurd h (hh.not_current rfl)
  hupFd _ h := absurd (Pc.current_of_hupFd h) (hh.not_current rfl)
  interest file h := by
    rcases eq_or_ne file fd with rfl | hne
    · simp [hops, hfd, hh.undetached rfl, Phase.exposed]
    · exact absurd (by simpa [hint, hne] using h) (hh.no_interest rfl file)
  batch e he hi := by simpa [Phase.exposed, Phase.retired] using hh.batch e he hi

theorem detach (hh : Held c q i .live) (hst : (c'.ops i).state = (c.ops i).state)
    (hfd : (c'.ops i).fd = (c.ops i).fd) (hint : c'.interest = c.interest) :
    Held c' q i .deleting where
  unused := by simp [Phase.retired]
  undetached := by simp [Phase.undetached]
  current h := by simpa [hst, Phase.exposed] using hh.current h
  hupFd fd h := by simpa [hfd] using hh.hupFd fd h
  interest file h := by
    obtain ⟨-, hf, -⟩ := hh.interest file (hint ▸ h)
    simp [hfd, hf, Phase.exposed]
  batch e he hi := by simpa [hfd, Phase.exposed, Phase.retired] using hh.batch e he hi

theorem detachAgain (hh : Held c q i .live) (hst : (c'.ops i).state = (c.ops i).state)
    (hfd : (c'.ops i).fd = (c.ops i).fd) (hint : c'.interest = c.interest)
    (hpos : 0 < (c.ops i).detached) : Held c' q i .cleared where
  unused := by simp [Phase.retired]
  undetached := by simp [Phase.undetached]
  current h := by simpa [hst, Phase.exposed] using hh.current h
  hupFd fd h := by simpa [hfd] using hh.hupFd fd h
  interest file h := by
    obtain ⟨-, hf, hhup⟩ := hh.interest file (hint ▸ h)
    simpa [hfd, hf, Phase.exposed] using hhup (.inr hpos)
  batch e he hi := by simpa [hfd, Phase.exposed, Phase.retired] using hh.batch e he hi

theorem delete (hh : Held c q i .deleting) (hops : c'.ops = c.ops) (hfd : fd = (c.ops i).fd)
    (hint : c'.interest = Function.update c.interest fd none) : Held c' q i .cleared where
  unused := by simp [Phase.retired]
  undetached := by simp [Phase.undetached]
  current h := by simpa [hops, Phase.exposed] using hh.current h
  hupFd fd h := by simpa [hops] using hh.hupFd fd h
  interest file h := by
    have hne : file ≠ fd := by
      rintro rfl
      simp [hint] at h
    exact absurd ((hh.interest file (by simpa [hint, hne] using h)).2.1.trans hfd.symm) hne
  batch e he hi := by simpa [hops, Phase.exposed, Phase.retired] using hh.batch e he hi

theorem drop (hh : Held c q i .fresh) : Held c q i .cleared where
  unused := by simp [Phase.retired]
  undetached := by simp [Phase.undetached]
  current h := absurd h (hh.not_current rfl)
  hupFd := hh.hupFd
  interest file h := absurd h (hh.no_interest rfl file)
  batch e he hi := by simpa [Phase.exposed, Phase.retired] using hh.batch e he hi

theorem unusedDone (hh : Held c q i .cleared) (hdoing : (c.ops i).state ≠ .doing)
    (hst : (c'.ops i).state = .unused) (hint : c'.interest = c.interest) :
    Held c' q i .unused := by
  have hcur : q.current ≠ some i := fun h => hdoing (hh.current h).1
  constructor
  · exact fun _ => hst
  · simp [Phase.undetached]
  · exact fun h => absurd h hcur
  · exact fun _ h => absurd (Pc.current_of_hupFd h) hcur
  · intro file h
    have hhup := (hh.interest file (hint ▸ h)).2.2 (.inl rfl)
    simp only [reduceCtorEq, false_or] at hhup
    exact absurd (Pc.current_of_hupping hhup) hcur
  · exact fun _ _ _ => .inr rfl

theorem reset (hh : Held c q i .unused) (hst : (c'.ops i).state = (c.ops i).state)
    (hdet : (c'.ops i).detached = 0) (hint : c'.interest = c.interest) : Held c' q i .reset where
  unused _ := hst.trans (hh.unused (.inr rfl))
  undetached _ := hdet
  current h := absurd h (hh.not_current rfl)
  hupFd _ h := absurd (Pc.current_of_hupFd h) (hh.not_current rfl)
  interest file h := absurd (hint ▸ h) (hh.no_interest rfl file)
  batch _ _ _ := .inr rfl

theorem rest {pend : List Nat} (hh : Held c q i .reset) (hops : c'.ops = c.ops)
    (hint : c'.interest = c.interest) (hi : i ∈ pend) : Rest c' q pend i where
  unused := hops ▸ hh.unused (.inr rfl)
  undetached := hops ▸ hh.undetached rfl
  current := hh.not_current rfl
  interest := hint ▸ hh.no_interest rfl
  batch _ _ _ := hi

theorem poll {q' : Pc} (hh : Held c q i ph) (hst : (c'.ops i).state = (c.ops i).state)
    (hdet : (c'.ops i).detached = (c.ops i).detached) (hfd : (c'.ops i).fd = (c.ops i).fd)
    (hint : ∀ file, c'.interest file = some i → c.interest file = some i)
    (hcur : q'.current = some i → q.current = some i)
    (hhupFd : ∀ fd, q'.hupFd = some (fd, i) → q.hupFd = some (fd, i) ∨ fd = (c.ops i).fd)
    (hhup : q.hupping = some i → q'.hupping = some i)
    (hbatch : ∀ e ∈ q'.batch, e.op = i → e ∈ q.batch) : Held c' q' i ph where
  unused h := hst.trans (hh.unused h)
  undetached h := hdet.trans (hh.undetached h)
  current h := by simpa [hst] using hh.current (hcur h)
  hupFd fd h := by simpa [hfd] using (hhupFd fd h).elim (hh.hupFd fd) id
  interest file h := by
    obtain ⟨h1, h2, h3⟩ := hh.interest file (hint file h)
    exact ⟨h1, h2.trans hfd.symm, fun hc => (h3 (hdet ▸ hc)).imp_right hhup⟩
  batch e he hi := by simpa [hfd] using hh.batch e (hbatch e he hi) hi

end Held

theorem Rest.pop {q : Pc} {pend : List Nat} {i : Nat} (hr : Rest c q pend i) (hi : i ∉ pend)
    (hops : c'.ops = c.ops) (hint : c'.interest = c.interest) : Held c' q i .fresh where
  unused _ := hops ▸ hr.unused
  undetached _ := hops ▸ hr.undetached
  current h := absurd h hr.current
  hupFd _ h := absurd (Pc.current_of_hupFd h) hr.current
  interest file h := absurd (hint ▸ h) (hr.interest file)
  batch e he h := absurd (hr.batch e he h) hi

theorem Cache.mem_events {files : List Nat} {e : Event} (he : e ∈ c.events files) :
    c.interest e.file = some e.op := by
  obtain ⟨file, -, hmap⟩ := List.mem_filterMap.mp he
  obtain ⟨op, hop, rfl⟩ := Option.map_eq_some_iff.mp hmap
  exact hop

section Poller

variable {q q' : Pc} {e : Event} {events : List Event} {i : Nat} {ph : Phase}

theorem Held.doEvent (hh : Held c (.handle (e :: events)) i ph)
    (hin : (c.ops e.op).state = .inuse) :
    Held (c.set e.op fun o => { o with state := .doing }) (.doing e events) i ph := by
  rcases eq_or_ne i e.op with rfl | hne
  · have hph : ph.exposed := by
      obtain ⟨h, -⟩ | h := hh.batch e (by simp [Pc.batch]) rfl
      · exact h
      · simp [hh.unused (.inr h)] at hin
    refine ⟨fun h => ?_, by simpa using hh.undetached, by simp [hph], by simp [Pc.hupFd], ?_, ?_⟩
    · simp [hh.unused h] at hin
    · simpa [Pc.hupping] using hh.interest
    · simpa [Pc.batch] using hh.batch
  · refine hh.poll ?_ ?_ ?_ ?_ ?_ ?_ ?_ ?_ <;>
      simp +contextual [hne, hne.symm, Pc.current, Pc.hupFd, Pc.hupping, Pc.batch]

theorem Held.hupAdd (hh : Held c (.hupAdd e events) i ph) :
    Held (c.set e.op fun o => { o with detached := o.detached + 1 })
      (if 1 < (c.ops e.op).detached + 1 then .done e events else .hupCtl e events) i ph := by
  rcases eq_or_ne i e.op with rfl | hne
  · obtain ⟨hdo, hph⟩ := hh.current rfl
    have hint := hh.interest
    constructor
    · simpa using hh.unused
    · intro h
      cases ph <;> simp [Phase.undetached, Phase.exposed] at h hph
    · split <;> simp [hdo, hph]
    · split <;> simp [Pc.hupFd]
    · intro file hf
      obtain ⟨h1, h2, h3⟩ := hint file (by simpa using hf)
      refine ⟨h1, by simpa using h2, fun _ => ?_⟩
      split
      · simpa [Pc.hupping] using h3 (.inr (by omega))
      · exact .inr rfl
    · split <;> simpa [Pc.batch] using hh.batch
  · refine hh.poll ?_ ?_ ?_ ?_ ?_ ?_ ?_ ?_ <;> (try split) <;>
      simp +contextual [hne, hne.symm, Pc.current, Pc.hupFd, Pc.hupping, Pc.batch]

theorem Held.hupDel {fd : Nat} (hh : Held c (.hupDel fd e events) i ph) :
    Held { c with interest := Function.update c.interest fd none } (.done e events) i ph := by
  have hint : ∀ file, Function.update c.interest fd none file = some i →
      c.interest file = some i ∧ file ≠ fd := by
    intro file h
    have hne : file ≠ fd := by
      rintro rfl
      simp at h
    exact ⟨by simpa [hne] using h, hne⟩
  rcases eq_or_ne i e.op with rfl | hne
  · have hfd := hh.hupFd fd rfl
    refine ⟨hh.unused, hh.undetached, hh.current, by simp [Pc.hupFd], ?_, hh.batch⟩
    intro file h
    obtain ⟨h1, h2⟩ := hint file h
    exact absurd ((hh.interest file h1).2.1.trans hfd.symm) h2
  · refine hh.poll rfl rfl rfl (fun file h => (hint file h).1) ?_ ?_ ?_ ?_ <;>
      simp +contextual [hne.symm, Pc.current, Pc.hupFd, Pc.hupping, Pc.batch]

theorem Held.doneEvent (hh : Held c (.done e events) i ph) :
    Held (c.set e.op fun o => { o with state := .inuse }) (.handle events) i ph := by
  rcases eq_or_ne i e.op with rfl | hne
  · obtain ⟨hdo, hph⟩ := hh.current rfl
    refine ⟨fun h => ?_, by simpa using hh.undetached, by simp [Pc.current], by simp [Pc.hupFd],
      ?_, ?_⟩
    · simp [hh.unused h] at hdo
    · simpa [Pc.hupping] using hh.interest
    · intro e' he' hi
      simpa using hh.batch e' (by simp [Pc.batch, show e' ∈ events from he']) hi
  · refine hh.poll ?_ ?_ ?_ ?_ ?_ ?_ ?_ ?_ <;>
      simp +contextual [hne, Pc.current, Pc.hupFd, Pc.hupping, Pc.batch]

theorem Held.poller (hh : Held c q i ph) (ht : Turn opSize c k q c' q') (hq : q.polling) :
    Held c' q' i ph := by
  cases ht with
  | call he hc =>
    subst he
    cases hc
    case wait =>
      refine ⟨hh.unused, hh.undetached, by simp [Pc.current], by simp [Pc.hupFd], ?_, ?_⟩
      · intro file h
        simpa [Pc.hupping] using hh.interest file h
      · intro e he hi
        have hint := Cache.mem_events he
        rw [hi] at hint
        obtain ⟨h1, h2, -⟩ := hh.interest e.file hint
        exact .inl ⟨h1, h2⟩
    case hup =>
      refine hh.poll rfl rfl rfl ?_ ?_ ?_ ?_ ?_ <;>
        simp +contextual [Pc.current, Pc.hupFd, Pc.hupping, Pc.batch]
    all_goals simp [Pc.polling] at hq
  | access hn =>
    cases q
    case hupAdd e events =>
      cases hn
      exact hh.hupAdd
    case hupDel fd e events =>
      cases hn
      exact hh.hupDel
    case done e events =>
      cases hn
      exact hh.doneEvent
    case handle events =>
      cases events with
      | nil =>
        cases hn
        refine hh.poll rfl rfl rfl ?_ ?_ ?_ ?_ ?_ <;>
          simp [Pc.current, Pc.hupFd, Pc.hupping, Pc.batch]
      | cons e events =>
        simp only [next] at hn
        split at hn <;> cases hn
        · exact hh.doEvent ‹_›
        · refine hh.poll rfl rfl rfl ?_ ?_ ?_ ?_ ?_ <;>
            simp +contextual [Pc.current, Pc.hupFd, Pc.hupping, Pc.batch]
    case pollMove rest =>
      simp only [next] at hn
      split at hn
      · cases hn
        refine hh.poll rfl rfl rfl ?_ ?_ ?_ ?_ ?_ <;>
          simp [Pc.current, Pc.hupFd, Pc.hupping, Pc.batch]
      · split at hn <;> cases hn
        rename_i op _
        have hsame := Cache.set_same (c := c) op (f := fun o => { o with next := c.first })
          (fun _ => ⟨rfl, rfl, rfl⟩) i
        refine hh.poll hsame.1 hsame.2.1 hsame.2.2 ?_ ?_ ?_ ?_ ?_ <;>
          simp [Pc.current, Pc.hupFd, Pc.hupping, Pc.batch]
    all_goals
      simp only [next] at hn
      (try split at hn) <;> cases hn
    all_goals first
      | simp [Pc.polling] at hq; done
      | refine hh.poll rfl rfl rfl ?_ ?_ ?_ ?_ ?_ <;>
          simp +contextual [Pc.current, Pc.hupFd, Pc.hupping, Pc.batch]

end Poller

theorem Held.owner {q : Pc} {i : Nat} (hh : Held c q i p.phase)
    (hfd : ∀ fd, p.fd = some fd → fd = (c.ops i).fd) (ht : Turn opSize c k p c' p')
    (hp : p.op = some i) (hp' : p'.op = some i) :
    Held c' q i p'.phase ∧ ∀ fd, p'.fd = some fd → fd = (c'.ops i).fd := by
  cases ht with
  | call he hc =>
    subst he
    cases hc
    case drop => exact ⟨hh.drop, by simp [Pc.fd]⟩
    all_goals exact ⟨hh, by simp [Pc.fd]⟩
  | access hn =>
    cases p
    case allocUnlock =>
      cases hp
      cases hn
      exact ⟨hh.congr rfl rfl rfl (by simp), by simp [Pc.fd]⟩
    case allocPoll =>
      cases hp
      cases hn
      exact ⟨hh.congr (by simp) (by simp) (by simp) (by simp), by simp [Pc.fd]⟩
    case setFd =>
      cases hp
      cases hn
      exact ⟨hh.setFd (by simp) (by simp) (by simp), by simp [Pc.fd]⟩
    case regCtl =>
      cases hp
      cases hn
      exact ⟨hh, by simp [Pc.fd]⟩
    case regInuse fd _ =>
      cases hp
      have hf := hfd fd rfl
      simp only [next] at hn
      split at hn <;> cases hn
      · exact ⟨hh.inuse (by simp) (by simp), by simp [Pc.fd, hf]⟩
      · exact ⟨hh.inuse rfl rfl, by simp [Pc.fd, hf]⟩
    case regAdd fd _ =>
      cases hp
      cases hn
      exact ⟨hh.add rfl (hfd fd rfl) rfl, by simp [Pc.fd]⟩
    case detAdd =>
      cases hp
      simp only [next] at hn
      cases hn
      split
      · exact ⟨hh.detachAgain (by simp) (by simp) (by simp) (by omega), by simp [Pc.fd]⟩
      · exact ⟨hh.detach (by simp) (by simp) (by simp), by simp [Pc.fd]⟩
    case detCtl =>
      cases hp
      cases hn
      exact ⟨hh, by simp [Pc.fd]⟩
    case detDel fd _ =>
      cases hp
      cases hn
      exact ⟨hh.delete rfl (hfd fd rfl) rfl, by simp [Pc.fd]⟩
    case freeUnused =>
      cases hp
      simp only [next] at hn
      split at hn <;> cases hn
      · exact ⟨hh.unusedDone (by simp [*]) (by simp) (by simp), by simp [Pc.fd]⟩
      · exact ⟨hh.unusedDone (by simp [*]) (by simp [*]) (by simp), by simp [Pc.fd]⟩
    case freeReset =>
      cases hp
      cases hn
      exact ⟨hh.reset (by simp [FDOperator.reset]) (by simp [FDOperator.reset])
        (by simp), by simp [Pc.fd]⟩
    case freeLock =>
      cases hp
      simp only [next] at hn
      split at hn <;> cases hn
      exact ⟨hh.congr rfl rfl rfl (by simp), by simp [Pc.fd]⟩
    all_goals cases hp <;> cases hn <;> cases hp'

theorem Rest.congr {q : Pc} {pend pend' : List Nat} {i : Nat} (hr : Rest c q pend i)
    (hst : (c'.ops i).state = (c.ops i).state)
    (hdet : (c'.ops i).detached = (c.ops i).detached)
    (hint : ∀ file, c'.interest file = some i → c.interest file = some i)
    (hpend : ∀ i ∈ pend, i ∈ pend') : Rest c' q pend' i where
  unused := hst.trans hr.unused
  undetached := hdet.trans hr.undetached
  current := hr.current
  interest file h := hr.interest file (hint file h)
  batch e he h := hpend i (hr.batch e he h)

theorem Rest.poll {q q' : Pc} {pend pend' : List Nat} {i : Nat} (hr : Rest c q pend i)
    (hst : (c'.ops i).state = (c.ops i).state)
    (hdet : (c'.ops i).detached = (c.ops i).detached)
    (hint : ∀ file, c'.interest file = some i → c.interest file = some i)
    (hcur : q'.current = some i → q.current = some i)
    (hbatch : ∀ e ∈ q'.batch, e.op = i → e ∈ q.batch)
    (hpend : q'.batch = [] ∨ ∀ i ∈ pend, i ∈ pend') : Rest c' q' pend' i where
  unused := hst.trans hr.unused
  undetached := hdet.trans hr.undetached
  current h := hr.current (hcur h)
  interest file h := hr.interest file (hint file h)
  batch e he h := by
    obtain h0 | hp := hpend
    · simp [h0] at he
    · exact hp i (hr.batch e (hbatch e he h) h)

theorem Rest.poller {q q' : Pc} {i : Nat} (hr : Rest c q (q.pending c.freelist) i)
    (ht : Turn opSize c k q c' q') (hq : q.polling) : Rest c' q' (q'.pending c'.freelist) i := by
  cases ht with
  | call he hc =>
    subst he
    cases hc
    case wait =>
      refine ⟨hr.unused, hr.undetached, by simp [Pc.current], hr.interest, fun e he h => ?_⟩
      exact absurd (h ▸ Cache.mem_events he) (hr.interest e.file)
    case hup =>
      refine hr.poll rfl rfl ?_ ?_ ?_ (.inr ?_) <;>
        simp +contextual [Pc.current, Pc.batch, Pc.pending]
    all_goals simp [Pc.polling] at hq
  | access hn =>
    cases q
    case handle events =>
      cases events with
      | nil =>
        cases hn
        exact hr.poll rfl rfl (by simp) (by simp [Pc.current]) (by simp [Pc.batch]) (.inl rfl)
      | cons e events =>
        simp only [next] at hn
        split at hn <;> cases hn
        · have hne : i ≠ e.op := by
            rintro rfl
            simp_all [hr.unused]
          refine hr.poll ?_ ?_ ?_ ?_ ?_ (.inr ?_) <;>
            simp +contextual [hne, hne.symm, Pc.current, Pc.batch, Pc.pending, Cache.set]
        · refine hr.poll rfl rfl ?_ ?_ ?_ (.inr ?_) <;>
            simp +contextual [Pc.current, Pc.batch, Pc.pending]
    case hupAdd e events =>
      cases hn
      have hne : i ≠ e.op := by
        rintro rfl
        exact hr.current rfl
      refine hr.poll ?_ ?_ ?_ ?_ ?_ (.inr ?_) <;> (try split) <;>
        simp +contextual [hne, hne.symm, Pc.current, Pc.batch, Pc.pending, Cache.set]
    case done e events =>
      cases hn
      have hne : i ≠ e.op := by
        rintro rfl
        exact hr.current rfl
      refine hr.poll ?_ ?_ ?_ ?_ ?_ (.inr ?_) <;>
        simp +contextual [hne, hne.symm, Pc.current, Pc.batch, Pc.pending, Cache.set]
    case hupDel fd e events =>
      cases hn
      refine hr.poll rfl rfl (fun file h => ?_) ?_ ?_ (.inr ?_)
      · rcases eq_or_ne file fd with rfl | hne
        · simp at h
        · simpa [hne] using h
      all_goals simp +contextual [Pc.current, Pc.batch, Pc.pending]
    case pollMove rest =>
      simp only [next] at hn
      split at hn
      · cases hn
        exact hr.poll rfl rfl (by simp) (by simp [Pc.current]) (by simp [Pc.batch]) (.inl rfl)
      · split at hn <;> cases hn
        rename_i op _
        have hsame := Cache.set_same (c := c) op (f := fun o => { o with next := c.first })
          (fun _ => ⟨rfl, rfl, rfl⟩) i
        exact hr.poll hsame.1 hsame.2.1 (by simp) (by simp [Pc.current]) (by simp [Pc.batch])
          (.inl rfl)
    all_goals
      simp only [next] at hn
      (try split at hn) <;> cases hn
    all_goals first
      | simp [Pc.polling] at hq; done
      | refine hr.poll rfl rfl ?_ ?_ ?_ (.inr ?_) <;>
          simp +contextual [Pc.current, Pc.batch, Pc.pending]

theorem Turn.frame (ht : Turn opSize c k p c' p') (hp : p.polling = false) {i : Nat}
    (hi : i < c.cache.length) (hop : p.op ≠ some i) (hop' : p'.op ≠ some i) :
    c'.ops i = c.ops i ∧ ∀ file, c'.interest file = some i → c.interest file = some i := by
  cases ht with
  | call he hc =>
    subst he
    exact ⟨rfl, fun _ h => h⟩
  | access hn =>
    cases p
    case regAdd fd op =>
      cases hn
      refine ⟨rfl, fun file h => ?_⟩
      rcases eq_or_ne file fd with rfl | hne
      · exact absurd (by simpa [Pc.op] using h) hop
      · simpa [hne] using h
    case detDel fd op =>
      cases hn
      refine ⟨rfl, fun file h => ?_⟩
      rcases eq_or_ne file fd with rfl | hne
      · simp at h
      · simpa [hne] using h
    case allocGrow left index =>
      simp only [next] at hn
      split at hn <;> cases hn
      · exact ⟨rfl, fun _ h => h⟩
      · exact ⟨Function.update_of_ne (by omega) _ _, fun _ h => h⟩
    all_goals
      simp only [next] at hn
      (try split at hn) <;> (try split at hn) <;> cases hn
    all_goals first
      | simp [Pc.polling] at hp; done
      | exact ⟨rfl, fun _ h => h⟩
      | exact ⟨Cache.set_ops_of_ne _ _ (fun h => hop (by simp [Pc.op, h])), fun _ h => h⟩

structure Sound (s : System) : Prop where
  held : ∀ k i, (s.pc k).op = some i → Held s.shared (s.pc 0) i (s.pc k).phase
  fd : ∀ k i fd, (s.pc k).op = some i → (s.pc k).fd = some fd → fd = (s.shared.ops i).fd
  rest : ∀ i < s.shared.cache.length, (∀ k, (s.pc k).op ≠ some i) →
    Rest s.shared (s.pc 0) (pending s) i
  events : ∀ e ∈ (s.pc 0).batch, e.op < s.shared.cache.length
  interest : ∀ file i, s.shared.interest file = some i → i < s.shared.cache.length

theorem Turn.interest_lt (ht : Turn opSize c k p c' p')
    (hp : ∀ i, p.op = some i → i < c.cache.length)
    (hint : ∀ file i, c.interest file = some i → i < c.cache.length) :
    c.cache.length ≤ c'.cache.length ∧
      ∀ file i, c'.interest file = some i → i < c'.cache.length := by
  cases ht with
  | call he =>
    subst he
    exact ⟨Nat.le_refl _, hint⟩
  | access hn =>
    cases p
    case regAdd fd op =>
      cases hn
      refine ⟨Nat.le_refl _, fun file i h => ?_⟩
      rcases eq_or_ne file fd with rfl | hne
      · exact hp i (by simpa [Pc.op] using h)
      · exact hint file i (by simpa [hne] using h)
    case detDel fd op =>
      cases hn
      refine ⟨Nat.le_refl _, fun file i h => ?_⟩
      rcases eq_or_ne file fd with rfl | hne
      · simp at h
      · exact hint file i (by simpa [hne] using h)
    case hupDel fd e events =>
      cases hn
      refine ⟨Nat.le_refl _, fun file i h => ?_⟩
      rcases eq_or_ne file fd with rfl | hne
      · simp at h
      · exact hint file i (by simpa [hne] using h)
    case allocGrow left index =>
      simp only [next] at hn
      split at hn <;> cases hn
      · exact ⟨Nat.le_refl _, hint⟩
      · refine ⟨by simp, fun file i h => ?_⟩
        have := hint file i h
        simp only [List.length_append, List.length_singleton]
        omega
    all_goals
      simp only [next] at hn
      (try split at hn) <;> (try split at hn) <;> cases hn
    all_goals exact ⟨Nat.le_refl _, hint⟩

theorem Turn.batch (ht : Turn opSize c k p c' p') (e : Event) (he : e ∈ p'.batch) :
    e ∈ p.batch ∨ c.interest e.file = some e.op := by
  cases ht with
  | call _ hc =>
    cases hc
    case wait => exact .inr (Cache.mem_events he)
    all_goals exact .inl he
  | access hn =>
    cases p
    all_goals
      simp only [next] at hn
      (try split at hn) <;> (try split at hn) <;> cases hn
    all_goals first
      | exact .inl he
      | simp_all [Pc.batch]

section Steps

variable {F G : List Nat}

theorem Sound.pop (hs : Sound s) (hp : Placed s F) {q : Pc} {i : Nat}
    (ht : Turn opSize s.shared k q c p) (hq : q.op ≠ some i) (hi : p.op = some i) :
    Held c (s.pc 0) i p.phase ∧ p.fd = none := by
  have hint : q = .allocPop → c.interest = s.shared.interest := by
    rintro rfl
    cases ht with
    | call _ hc => cases hc
    | access hn =>
      simp only [next] at hn
      split at hn <;> cases hn
      rfl
  cases ht.place with
  | keep _ _ _ _ _ hop => exact absurd (hop ▸ hi) hq
  | @pop op d hfirst _ _ hops =>
    obtain rfl : op = i := by simpa [Pc.op] using hi
    have hmem : op ∈ F := by
      have hch := hp.chain
      obtain _ | ⟨j, F⟩ := F
      · simp [hfirst] at hch
      · obtain rfl : op = j := by simpa [hfirst] using hch.1
        simp
    have hun : ∀ l, (s.pc l).op ≠ some op := fun l hl => (hp.held l op hl).2 (by simp [hmem])
    have hnp : op ∉ pending s := fun h => (List.nodup_append.mp hp.nodup).2.2 op hmem op h rfl
    exact ⟨(hs.rest op (hp.listed op (by simp [hmem])) hun).pop hnp hops (hint rfl), rfl⟩
  | _ => simp [Pc.op] at hi

theorem Sound.give {q : Pc} {i : Nat} {pend : List Nat}
    (hh : q.op = some i → Held s.shared (s.pc 0) i q.phase)
    (ht : Turn opSize s.shared k q c p) (hq : q.op = some i) (hi : p.op ≠ some i)
    (hpend : q = .freeAppend i → i ∈ pend) : Rest c (s.pc 0) pend i := by
  have hint : ∀ op, q = .freeAppend op → c.interest = s.shared.interest := by
    rintro op rfl
    cases ht with
    | call _ hc => cases hc
    | access hn =>
      cases hn
      rfl
  cases ht.place with
  | keep _ _ _ _ _ hop => exact absurd (hop.trans hq) hi
  | give _ _ hops =>
    obtain rfl := Option.some.inj hq
    exact (hh rfl).rest hops (hint _ rfl) (hpend rfl)
  | _ => simp [Pc.op] at hq

theorem Sound.grow (hs : Sound s) {q : Pc} {i : Nat} {pend : List Nat}
    (ht : Turn opSize s.shared k q c p) (hold : ¬ i < s.shared.cache.length)
    (hi : i < c.cache.length) : Rest c (s.pc 0) pend i := by
  have hint : ∀ left index, q = .allocGrow left index → c.interest = s.shared.interest := by
    rintro left index rfl
    cases ht with
    | call _ hc => cases hc
    | access hn =>
      simp only [next] at hn
      split at hn <;> cases hn <;> rfl
  have hcur : ∀ j, (s.pc 0).current = some j → j < s.shared.cache.length := by
    intro j hj
    cases hq : s.pc 0 <;> simp only [hq, Pc.current, Option.some.injEq, reduceCtorEq] at hj <;>
      subst hj <;> exact hs.events _ (by simp [hq, Pc.batch])
  cases ht.place with
  | @grow left index op d hop hcache _ hops =>
    obtain rfl : i = op := by
      simp only [hcache, List.length_append, List.length_singleton] at hi
      omega
    refine ⟨by simp [hops], by simp [hops], fun h => hold (hcur i h), fun file h => ?_,
      fun e he h => ?_⟩
    · rw [hint _ _ rfl] at h
      exact hold (hs.interest file i h)
    · exact absurd (h ▸ hs.events e he) hold
  | keep hcache => exact absurd (hcache ▸ hi) hold
  | pop _ _ hcache => exact absurd (hcache ▸ hi) hold
  | give _ hcache => exact absurd (hcache ▸ hi) hold
  | move _ _ hcache => exact absurd (hcache ▸ hi) hold

theorem Sound.owner (hs : Sound s) (hp : Placed s F) (he : Exclusive s) (hk : k ≠ 0)
    (ht : Turn opSize s.shared k (s.pc k) c p) (hp' : Placed (s.enter c k p) G)
    (hpend : ∀ i ∈ pending s, i ∈ pending (s.enter c k p))
    (hgive : ∀ i, s.pc k = .freeAppend i → i ∈ pending (s.enter c k p)) :
    Sound (s.enter c k p) := by
  have hpoll : (s.pc k).polling = false := by
    by_contra h
    exact hk ((he.polling k).mp (by simpa using h))
  obtain ⟨hlen, hint⟩ := ht.interest_lt (fun i h => (hp.held k i h).1) hs.interest
  have hq : (s.enter c k p).pc 0 = s.pc 0 := by simp [hk.symm]
  have hother : ∀ l i, l ≠ k → (s.pc l).op = some i →
      (s.pc k).op ≠ some i ∧ p.op ≠ some i := by
    intro l i hlk hl
    refine ⟨fun h => hlk (hp.unique l k i hl h), fun h => hlk (hp'.unique l k i ?_ ?_)⟩
    · simpa [hlk] using hl
    · simpa using h
  have hmine : ∀ i, p.op = some i →
      Held c (s.pc 0) i p.phase ∧ ∀ fd, p.fd = some fd → fd = (c.ops i).fd := by
    intro i hi
    by_cases hold : (s.pc k).op = some i
    · exact (hs.held k i hold).owner (fun fd => hs.fd k i fd hold) ht hold hi
    · obtain ⟨hh, hfd⟩ := hs.pop hp ht hold hi
      exact ⟨hh, by simp [hfd]⟩
  constructor
  · intro l i hl
    rw [hq]
    rcases eq_or_ne l k with rfl | hlk
    · simpa using (hmine i (by simpa using hl)).1
    · rw [State.enter_pc_of_ne _ _ _ hlk] at hl ⊢
      obtain ⟨h1, h2⟩ := hother l i hlk hl
      obtain ⟨ho, hi⟩ := ht.frame hpoll (hp.held l i hl).1 h1 h2
      exact (hs.held l i hl).congr (by simp [ho]) (by simp [ho]) (by simp [ho]) hi
  · intro l i fd hl hfd
    rcases eq_or_ne l k with rfl | hlk
    · exact (hmine i (by simpa using hl)).2 fd (by simpa using hfd)
    · rw [State.enter_pc_of_ne _ _ _ hlk] at hl hfd
      obtain ⟨h1, h2⟩ := hother l i hlk hl
      obtain ⟨ho, -⟩ := ht.frame hpoll (hp.held l i hl).1 h1 h2
      simpa [ho] using hs.fd l i fd hl hfd
  · intro i hi hno
    rw [hq]
    have hpi : p.op ≠ some i := by simpa using hno k
    by_cases hlt : i < s.shared.cache.length
    · by_cases hold : (s.pc k).op = some i
      · exact Sound.give (hs.held k i) ht hold hpi (hgive i)
      · obtain ⟨ho, hf⟩ := ht.frame hpoll hlt hold hpi
        refine (hs.rest i hlt fun l hl => ?_).congr (by simp [ho]) (by simp [ho]) hf hpend
        rcases eq_or_ne l k with rfl | hlk
        · exact hold hl
        · exact hno l (by simpa [hlk] using hl)
    · exact hs.grow ht hlt hi
  · rw [hq]
    exact fun e hm => Nat.lt_of_lt_of_le (hs.events e hm) hlen
  · exact hint

theorem Turn.poller_same (ht : Turn opSize c k p c' p') (hp : p.polling) :
    c'.cache = c.cache ∧ ∀ i, (c'.ops i).fd = (c.ops i).fd := by
  cases ht with
  | call he =>
    subst he
    exact ⟨rfl, fun _ => rfl⟩
  | access hn =>
    cases p
    all_goals
      simp only [next] at hn
      (try split at hn) <;> (try split at hn) <;> cases hn
    all_goals first
      | simp [Pc.polling] at hp; done
      | exact ⟨rfl, fun _ => rfl⟩
      | refine ⟨rfl, fun i => ?_⟩
        simp only [Cache.set, Function.update_apply]
        split <;> simp_all

theorem Pc.op_of_polling (hp : p.polling) : p.op = none := by
  cases p <;> first | rfl | cases hp

theorem Sound.poller (hs : Sound s) (he : Exclusive s)
    (ht : Turn opSize s.shared 0 (s.pc 0) c p) : Sound (s.enter c 0 p) := by
  have hq : (s.pc 0).polling := (he.polling 0).mpr rfl
  have hp0 : p.op = none := Pc.op_of_polling (ht.polling.trans hq)
  have hpcs : ∀ l i, ((s.enter c 0 p).pc l).op = some i → l ≠ 0 ∧ (s.pc l).op = some i := by
    intro l i hl
    rcases eq_or_ne l 0 with rfl | hl0
    · simp [hp0] at hl
    · exact ⟨hl0, by simpa [hl0] using hl⟩
  obtain ⟨hcache, hfd⟩ := ht.poller_same hq
  obtain ⟨-, hint⟩ :=
    ht.interest_lt (fun i h => by simp [Pc.op_of_polling hq] at h) hs.interest
  constructor
  · intro l i hl
    obtain ⟨hl0, hl⟩ := hpcs l i hl
    simpa [hl0] using (hs.held l i hl).poller ht hq
  · intro l i fd hl hf
    obtain ⟨hl0, hl⟩ := hpcs l i hl
    simpa [hfd] using hs.fd l i fd hl (by simpa [hl0] using hf)
  · intro i hi hno
    rw [pending_enter_poller, State.enter_pc_self]
    refine (hs.rest i (by simpa [hcache] using hi) fun l hl => ?_).poller ht hq
    rcases eq_or_ne l 0 with rfl | hl0
    · simp [Pc.op_of_polling hq] at hl
    · exact hno l (by simpa [hl0] using hl)
  · intro e hm
    rw [State.enter_pc_self] at hm
    simp only [State.enter_shared, hcache]
    obtain h | h := ht.batch e hm
    · exact hs.events e h
    · exact hs.interest e.file e.op h
  · exact hint

theorem Turn.freeAppend {i : Nat} (ht : Turn opSize c k (.freeAppend i) c' p') :
    p' = .freeUnlock := by
  cases ht with
  | call _ hc => cases hc
  | access hn =>
    cases hn
    rfl

theorem Placed.step (hp : Placed s F) (he : Exclusive s) (hg : Growing opSize s)
    (ht : Turn opSize s.shared k (s.pc k) c p) :
    ∃ G, Placed (s.enter c k p) G ∧ (k ≠ 0 → (∀ i ∈ pending s, i ∈ pending (s.enter c k p)) ∧
      ∀ i, s.pc k = .freeAppend i → i ∈ pending (s.enter c k p)) := by
  have hpoll : ∀ {q}, s.pc k = q → q.polling = false → k ≠ 0 := by
    rintro q rfl hq rfl
    exact Bool.false_ne_true (hq.symm.trans ((he.polling 0).mpr rfl))
  generalize hpk : s.pc k = q at ht
  cases ht.place with
  | keep hcache hfirst hops hpend hfree hop =>
    have hpe : pending (s.enter c k p) = pending s := by
      rcases eq_or_ne k 0 with rfl | hk
      · rw [pending_enter_poller, hpend, pending, hpk]
      · rw [pending_enter_owner hk, hfree, pending]
        by_contra h
        exact hk ((he.polling k).mp (by simpa [hpk] using h))
    refine ⟨F, hp.keep hcache hfirst hops hpe (hpk ▸ hop), fun hk => ⟨?_, ?_⟩⟩
    · simp [hpe]
    · rintro i rfl
      simp [ht.freeAppend, Pc.op] at hop
  | grow hop hcache hfirst hops hfree =>
    have hk := hpoll hpk rfl
    refine ⟨_, hp.grow hk hpk (hg.index k _ _ hpk) hop hcache hfirst hops hfree, fun _ => ⟨?_, ?_⟩⟩
    · rw [pending_enter_owner hk, hfree]
      exact fun i hi => hi
    · simp
  | pop hfirst hfirst' hcache hops hfree =>
    have hk := hpoll hpk rfl
    obtain ⟨G, -, hG⟩ := hp.pop hk hpk hfirst hfirst' hcache hops hfree
    refine ⟨G, hG, fun _ => ⟨?_, ?_⟩⟩
    · rw [pending_enter_owner hk, hfree]
      exact fun i hi => hi
    · simp
  | give hfirst hcache hops hfree =>
    have hk := hpoll hpk rfl
    obtain ⟨hG, hpe⟩ := hp.give he hk hpk hfirst hcache hops hfree
    refine ⟨F, hG, fun _ => ⟨?_, ?_⟩⟩
    · exact fun i hi => by simp [hpe, hi]
    · exact fun i hi => by simp_all
  | move hget hfirst hcache hops =>
    obtain rfl : k = 0 := (he.polling k).mp (by simp [hpk, Pc.polling])
    exact ⟨_, (hp.move hpk hget hfirst hcache hops).1, fun h => absurd rfl h⟩

structure Inv (opSize : Nat) (s : System) (F : List Nat) : Prop where
  exclusive : Exclusive s
  growing : Growing opSize s
  placed : Placed s F
  sound : Sound s

theorem Inv.step (hi : Inv opSize s F) (hs : step opSize s a = some s') :
    ∃ G, Inv opSize s' G := by
  obtain ⟨c, p, ht, rfl⟩ := step_cases hs
  generalize a.goroutine = k at ht ⊢
  obtain ⟨G, hG, hpend⟩ := hi.placed.step hi.exclusive hi.growing ht
  refine ⟨G, hi.exclusive.step ht, hi.growing.step hi.exclusive ht, hG, ?_⟩
  rcases eq_or_ne k 0 with rfl | hk
  · exact hi.sound.poller hi.exclusive ht
  · obtain ⟨hmono, hgive⟩ := hpend hk
    exact hi.sound.owner hi.placed hi.exclusive hk ht hG hmono hgive

theorem inv_init : Inv opSize init [] := by
  have hpc : ∀ k, init.pc k = .wait ∨ init.pc k = .idle := by
    intro k
    simp only [init]
    split <;> simp
  refine ⟨⟨?_, ?_, ?_⟩, ⟨?_, ?_, ?_⟩, Placed.init, ⟨?_, ?_, ?_, ?_, ?_⟩⟩
  · intro k
    simp only [init]
    split <;> simp_all [Pc.polling]
  · intro k hk
    obtain h | h := hpc k <;> simp [h, Pc.locks] at hk
  · intro k hk
    obtain h | h := hpc k <;> simp [h, Pc.freelocks] at hk
  · intro k _ _ hk
    obtain h | h := hpc k <;> simp [h] at hk
  · intro k _ _ hk
    obtain h | h := hpc k <;> simp [h] at hk
  · intro k hk
    obtain h | h := hpc k <;> simp [h] at hk
  · intro k i hk
    simp [init_op] at hk
  · intro k i fd hk
    simp [init_op] at hk
  · intro i hi
    simp [init] at hi
  · simp [init, Pc.batch]
  · simp [init]

theorem inv_of_reach (hr : Reach (step opSize) (fun _ _ => True) init s) :
    ∃ F, Inv opSize s F := by
  refine hr.invariant (I := fun s => ∃ F, Inv opSize s F) ⟨[], inv_init⟩ ?_
  rintro s a s' ⟨F, hi⟩ - hs
  exact hi.step hs

end Steps

/-- Every operator is in the free list, pending in the freelist or with one
owner, and in one of them only.  When `do()` succeeds for an event, the operator
still belongs to the allocation whose file made the event. -/
theorem operator_reuse_safe (opSize : Nat) {s : System}
    (hr : Reach (step opSize) (fun _ _ => True) init s) :
    (∃ F, Seg (fun i => (s.shared.ops i).next) s.shared.first F none ∧
      ∀ i < s.shared.cache.length,
        i ∈ F ∧ (s.shared.ops i).index ∉ pending s ∧ (∀ k, (s.pc k).op ≠ some i) ∨
        i ∉ F ∧ (s.shared.ops i).index ∈ pending s ∧ (∀ k, (s.pc k).op ≠ some i) ∨
        i ∉ F ∧ (s.shared.ops i).index ∉ pending s ∧ ∃! k, (s.pc k).op = some i) ∧
    ∀ e events, s.pc 0 = .handle (e :: events) → (s.shared.ops e.op).state = .inuse →
      (s.shared.ops e.op).fd = e.file ∧ ∃ k, (s.pc k).op = some e.op ∧ (s.pc k).phase.exposed := by
  obtain ⟨F, he, -, hp, hs⟩ := inv_of_reach hr
  refine ⟨⟨F, hp.chain, fun i hi => ?_⟩, fun e events hq hin => ?_⟩
  · rw [hp.index i hi]
    have hdisj := (List.nodup_append.mp hp.nodup).2.2
    have hno : i ∈ F ++ pending s → ∀ k, (s.pc k).op ≠ some i :=
      fun h k hk => (hp.held k i hk).2 h
    obtain h | ⟨k, hk⟩ := hp.cover i hi
    · obtain hF | hP := List.mem_append.mp h
      · exact .inl ⟨hF, fun hP => hdisj i hF i hP rfl, hno h⟩
      · exact .inr (.inl ⟨fun hF => hdisj i hF i hP rfl, hP, hno h⟩)
    · obtain ⟨-, hn⟩ := hp.held k i hk
      simp only [List.mem_append, not_or] at hn
      exact .inr (.inr ⟨hn.1, hn.2, k, hk, fun l hl => hp.unique l k i hl hk⟩)
  · have hmem : e ∈ (s.pc 0).batch := by simp [hq, Pc.batch]
    by_cases hheld : ∃ k, (s.pc k).op = some e.op
    · obtain ⟨k, hk⟩ := hheld
      have hh := hs.held k e.op hk
      obtain ⟨hex, hfile⟩ | hret := hh.batch e hmem rfl
      · exact ⟨hfile.symm, k, hk, hex⟩
      · simp [hh.unused (.inr hret)] at hin
    · have hrest := hs.rest e.op (hs.events e hmem) (fun k hk => hheld ⟨k, hk⟩)
      simp [hrest.unused] at hin

theorem operator_reuse_safe_twice :
    ∃ s, Reach (step 4096) (fun _ _ => True) init s ∧ s.pc 0 = .handle [⟨0, 2⟩] ∧
      (s.shared.ops 0).state = .inuse ∧ (s.shared.ops 0).fd = 2 := by
  have hrun : ∃ s, runs (guarded (step 4096) fun _ _ => true) init
      (List.flatten [[.alloc 1], List.replicate 8 (.run 1), [.register 1],
        List.replicate 3 (.run 1), [.wait [1], .detach 1], List.replicate 3 (.run 1),
        [.free 1], List.replicate 5 (.run 1), List.replicate 10 (.run 0), [.alloc 2],
        List.replicate 6 (.run 2), [.register 2], List.replicate 3 (.run 2),
        [.wait [2]]]) = some s ∧
      s.pc 0 = .handle [⟨0, 2⟩] ∧ (s.shared.ops 0).state = .inuse :=
    ⟨_, rfl, rfl, rfl⟩
  obtain ⟨s, hs, hq, hin⟩ := hrun
  have hr := (Reach.of_runs hs).mono (Q := fun _ _ => True) fun _ _ _ _ => trivial
  exact ⟨s, hr, hq, hin, ((operator_reuse_safe _ hr).2 _ _ hq hin).1⟩

end Netpoll.Poll
