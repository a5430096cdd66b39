import Netpoll.Mux.Ring

namespace Netpoll.Mux

open Netpoll.Lib.Threads Netpoll.Lib.Slices Netpoll.Lib.Transition Netpoll.Lib.RingBuffer

variable {G : Type*}

structure Ledger (G : Type*) where
  sys : System G
  unread : List Nat

namespace Ledger

def step [DecidableEq G] (grow : Nat → Nat → Nat) (l : Ledger G) (a : Label G) :
    Option (Ledger G) :=
  (Mux.step grow l.sys a).map fun s => ⟨s, a.entries l.sys l.unread⟩

def init (size : Nat) : Ledger G := ⟨Mux.init size, []⟩

end Ledger

/-- The queue with its entries. -/
structure Listed (size : Nat) (l : Ledger G) : Prop where
  announced : Announced l.sys
  ring : ∃ claim, Ring l.sys l.unread claim
  size : l.sys.shared.size = size

namespace Listed

variable {size : Nat} {l l' : Ledger G}

theorem step [DecidableEq G] {grow : Nat → Nat → Nat} {a : Label G} (hl : Listed size l)
    (hg : a.admitted l.sys = true) (hstep : l.step grow a = some l') : Listed size l' := by
  obtain ⟨s, hs, rfl⟩ := Option.map_eq_some_iff.mp hstep
  obtain ⟨claim, hr⟩ := hl.ring
  refine ⟨hl.announced.step hg hs, hl.announced.ring_step hr hs, ?_⟩
  rw [← hl.size]
  cases a with
  | add k gts | close k =>
    obtain ⟨-, hs⟩ := Option.ite_none_right_eq_some.mp hs
    cases hs
    rfl
  | run k j =>
    have hb := hl.announced.counters.bounded k
    have hf := hl.announced.counters.fits k
    rcases State.run_cases hs with ⟨c, p, hn, rfl⟩ | ⟨c, p, t, hn, -, -, -, rfl⟩ <;>
      exact next_size hn hb hf

theorem init (hsize : 1 ≤ size) : Listed size (Ledger.init size : Ledger G) :=
  ⟨.init hsize, ⟨_, .init hsize⟩, rfl⟩

end Listed

/-- In every interleaving of calls of `Add`, each with getters and fewer than 2^31
of them, there are at most `size` unread entries, every one of them still stands in
`list`, and a shard that has getters has an unread entry, an `Add` about to write
one or a worker about to take the getters. -/
theorem entries_never_overwritten [DecidableEq G] {grow : Nat → Nat → Nat} {size : Nat}
    (hsize : 1 ≤ size) {l : Ledger G}
    (hr : Reach (Ledger.step grow) (fun l a => a.admitted l.sys) (Ledger.init size) l) :
    l.unread.length ≤ size ∧
      (∀ t i, l.unread[t]? = some i → l.sys.shared.list ((l.sys.shared.r + 1 + t) % size) = i) ∧
      ∀ i < size, (l.sys.shared.getters i).len ≠ 0 → i ∈ l.unread ∨ ∃ k,
      (l.sys.pc k).token = some i := by
  have hl : Listed size l := hr.invariant (.init hsize) fun _ _ _ hl hg hs => hl.step hg hs
  obtain ⟨claim, hring⟩ := hl.ring
  have hlt := hring.lt
  have hfull := hring.full
  have hholds := hring.holds
  rw [hl.size] at hlt hfull hholds
  refine ⟨?_, hholds.entry, fun i hi hlen => ?_⟩
  · have hsub : l.unread ⊆ List.range size := fun x hx => List.mem_range.mpr (hlt x hx)
    simpa using (List.subperm_of_subset hring.nodup hsub).length_le
  · cases hc : claim i with
    | free => exact absurd ((hfull i hi).mp hc) hlen
    | listed => exact .inl ((hring.listed i).mp hc)
    | held k => exact .inr ⟨k, (hring.claims i k).mp hc⟩

def oneAdd : List (Label Nat) :=
  .add 0 [7] :: List.replicate 9 (.run 0 0)

theorem entries_never_overwritten_one :
    ∃ l : Ledger Nat, Reach (Ledger.step fun _ n => n) (fun l a => a.admitted l.sys) (Ledger.init 2)
      l ∧ (l.sys.shared.getters 1).len ≠ 0 ∧ l.unread = [1] ∧ l.unread.length ≤ 2 ∧
      l.sys.shared.list 1 = 1 := by
  have hrun : ∃ l, runs (guarded (Ledger.step fun _ n => n) fun l a => a.admitted l.sys)
      (Ledger.init 2 : Ledger Nat) oneAdd = some l ∧ (l.sys.shared.getters 1).len = 1 ∧
      l.unread = [1] ∧ l.sys.shared.r = 0 := ⟨_, rfl, rfl, rfl, rfl⟩
  obtain ⟨l, hl, hlen, hun, hr0⟩ := hrun
  have hr := Reach.of_runs hl
  obtain ⟨hle, hentry, -⟩ := entries_never_overwritten (by decide) hr
  have hone := hentry 0 1 (by simp [hun])
  rw [hr0] at hone
  exact ⟨l, hr, by omega, hun, hle, hone⟩

def emptyAdds : List (Label Nat) := List.flatten
  [[.add 0 [7]], List.replicate 9 (.run 0 0),
   [.add 1 []], List.replicate 9 (.run 1 0),
   [.add 2 []], List.replicate 6 (.run 2 0),
   [.add 3 []], List.replicate 9 (.run 3 0)]

def emptyAddsServed : List (Label Nat) := List.flatten
  [emptyAdds, [.run 0 0, .run 1 0, .run 3 0, .run 0 4], List.replicate 21 (.run 4 0)]

theorem empty_add_overwrites :
    (∃ l : Ledger Nat, Reach (Ledger.step fun _ n => n) (fun _ _ => True) (Ledger.init 2) l ∧
      l.unread = [1, 0, 0] ∧ l.sys.shared.list 1 = 0) ∧
    ∃ l : Ledger Nat, Reach (Ledger.step fun _ n => n) (fun _ _ => True) (Ledger.init 2) l ∧
      (∀ k, l.sys.pc k = .idle) ∧ l.unread = [] ∧ (l.sys.shared.getters 1).len = 1 ∧
      l.sys.shared.invoked 1 = [] := by
  have hfull : ∃ l, runs (guarded (Ledger.step fun _ n => n) fun _ _ => true)
      (Ledger.init 2 : Ledger Nat) emptyAdds = some l ∧ l.unread = [1, 0, 0] ∧
      l.sys.shared.list 1 = 0 := ⟨_, rfl, rfl, rfl⟩
  have hend : ∃ l, runs (guarded (Ledger.step fun _ n => n) fun _ _ => true)
      (Ledger.init 2 : Ledger Nat) emptyAddsServed = some l ∧ (∀ k, l.sys.pc k = .idle) ∧
      l.unread = [] ∧ (l.sys.shared.getters 1).len = 1 ∧ l.sys.shared.invoked 1 = [] := by
    refine ⟨_, rfl, fun k => ?_, rfl, rfl, rfl⟩
    match k with
    | 0 | 1 | 2 | 3 | 4 => rfl
    | k + 5 => rfl
  obtain ⟨l, hl, hun, hlist⟩ := hfull
  obtain ⟨e, he, hidle, hempty, hlen, hinv⟩ := hend
  exact ⟨⟨l, (Reach.of_runs hl).mono fun _ _ _ _ => trivial, hun, hlist⟩,
    e, (Reach.of_runs he).mono fun _ _ _ _ => trivial, hidle, hempty, hlen, hinv⟩

end Netpoll.Mux
