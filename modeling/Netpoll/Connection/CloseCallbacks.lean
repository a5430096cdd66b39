import Netpoll.Lib.Transition
import Netpoll.Lib.Threads

namespace Netpoll.CloseCallbacks

open Netpoll.Lib.Threads Netpoll.Lib.Transition

variable {F : Type*}

inductive Callback (F : Type*)
  | finalizer
  | user (f : F)
  deriving DecidableEq, Repr

/-- A `callbackNode` and those before it.  The nodes do not change once they are stored,
so that a pointer to one is the list of the callbacks from there on. -/
abbrev Nodes (F : Type*) := List (Callback F)

structure Connection (F : Type*) where
  closeCallbacks : Nodes F
  /-- the goroutine that holds the processing lock, for the proofs: the code stores 1 -/
  processing : Option Nat
  added : List (Nat × F)
  called : List (Callback F)

inductive Pc (F : Type*)
  | idle
  -- AddCloseCallback
  | addLoad (f : F) | addStore (f : F) (pre : Nodes F)
  -- closeCallback
  | lock | latest | visit (callback : Nodes F)
  deriving DecidableEq, Repr

abbrev System (F : Type*) := State (Connection F) (Pc F)

inductive Label (F : Type*)
  | addCloseCallback (k : Nat) (f : Option F)
  | closeCallback (k : Nat)
  | run (k : Nat)
  deriving DecidableEq, Repr

def next (c : Connection F) (k : Nat) : Pc F → Option (Connection F × Pc F)
  | .idle => none
  | .addLoad f => some (c, .addStore f c.closeCallbacks)
  | .addStore f pre =>
    some ({ c with closeCallbacks := .user f :: pre, added := c.added ++ [(k, f)] }, .idle)
  | .lock =>
    if c.processing.isSome then some (c, .idle) else some ({ c with processing := some k }, .latest)
  | .latest => some (c, .visit c.closeCallbacks)
  | .visit [] => some (c, .idle)
  | .visit (f :: pre) => some ({ c with called := c.called ++ [f] }, .visit pre)

def step [DecidableEq F] (s : System F) : Label F → Option (System F)
  | .addCloseCallback k f =>
    if s.pc k = .idle then
      match f with
      | none => some s
      | some f => some (s.enter s.shared k (.addLoad f))
    else none
  | .closeCallback k => if s.pc k = .idle then some (s.enter s.shared k .lock) else none
  | .run k => s.move next k

def init : System F :=
  ⟨{ closeCallbacks := [.finalizer], processing := none, added := [], called := [] },
    fun _ => .idle⟩

/-- The list that the calls give when none of them is lost. -/
def chain (added : List (Nat × F)) : Nodes F :=
  (added.map fun a => Callback.user a.2).reverse ++ [.finalizer]

@[simp] theorem chain_concat (added : List (Nat × F)) (k : Nat) (f : F) :
    chain (added ++ [(k, f)]) = .user f :: chain added := by
  simp [chain]

def Pc.traverses : Pc F → Bool
  | latest | visit _ => true
  | _ => false

def Pc.Fresh (c : Connection F) : Pc F → Prop
  | latest => c.called = []
  | _ => True

/-- No other call has stored between the load of the one that stores and its store. -/
def Label.unraced [DecidableEq F] (s : System F) : Label F → Bool
  | .run k => match s.pc k with
    | .addStore _ pre => pre == s.shared.closeCallbacks
    | _ => true
  | _ => true

structure Once (s : System F) : Prop where
  owned : s.Owned (·.processing) Pc.traverses
  fresh : s.Facts Pc.Fresh
  unlocked : s.shared.processing = none → s.shared.called = []

namespace Once

variable {s s' : System F} {k : Nat} {c : Connection F} {p : Pc F}

theorem keep (hs : Once s) (hl : c.processing = s.shared.processing)
    (hc : c.called = s.shared.called) (hp : p.traverses = false) : Once (s.enter c k p) where
  owned := hs.owned.keep hl (by simp [hp])
  fresh := by
    have same : ∀ p : Pc F, p.Fresh s.shared → p.Fresh c := by
      intro p h
      cases p <;> simp_all [Pc.Fresh]
    refine hs.fresh.enter (fun _ _ h => same _ h) ?_
    cases p <;> simp_all [Pc.Fresh, Pc.traverses]
  unlocked := fun h => hc.trans (hs.unlocked (hl ▸ h))

theorem walk (hs : Once s) {pre : Nodes F} (hk : (s.pc k).traverses = true)
    (hl : c.processing = s.shared.processing) : Once (s.enter c k (.visit pre)) where
  owned := hs.owned.keep hl fun _ => hk
  fresh := by
    refine hs.fresh.enter (fun i hik h => ?_) trivial
    have hno := hs.owned.other_free hk hik
    cases hi : s.pc i <;> simp_all [Pc.Fresh, Pc.traverses]
  unlocked := by
    intro h
    have := hs.owned k hk
    simp only [State.enter_shared, hl] at h
    simp [h] at this

theorem step [DecidableEq F] {a : Label F} (hs : Once s) (h : step s a = some s') : Once s' := by
  cases a with
  | addCloseCallback k f =>
    obtain ⟨-, h⟩ := Option.ite_none_right_eq_some.mp h
    cases f with
    | none =>
      cases h
      exact hs
    | some f =>
      cases h
      exact hs.keep rfl rfl rfl
  | closeCallback k =>
    obtain ⟨-, h⟩ := Option.ite_none_right_eq_some.mp h
    cases h
    exact hs.keep rfl rfl rfl
  | run k =>
    obtain ⟨⟨c, p⟩, hn, rfl⟩ := Option.map_eq_some_iff.mp h
    cases hpc : s.pc k with
    | idle =>
      rw [hpc] at hn
      cases hn
    | addLoad f | addStore f pre =>
      rw [hpc] at hn
      cases hn
      exact hs.keep rfl rfl rfl
    | lock =>
      rw [hpc] at hn
      simp only [next] at hn
      split at hn
      · cases hn
        exact hs.keep rfl rfl rfl
      · rename_i hfree
        cases hn
        have hnone : s.shared.processing = none := by simpa using hfree
        exact ⟨.first (hs.owned.all_free hnone) rfl,
          hs.fresh.enter (fun _ _ h => h) (hs.unlocked hnone), nofun⟩
    | latest =>
      rw [hpc] at hn
      cases hn
      exact hs.walk (by rw [hpc]; rfl) rfl
    | visit pre =>
      rw [hpc] at hn
      cases pre with
      | nil =>
        cases hn
        exact hs.keep rfl rfl rfl
      | cons f pre =>
        cases hn
        exact hs.walk (by rw [hpc]; rfl) rfl

theorem init : Once (init : System F) := ⟨nofun, fun _ => trivial, fun _ => rfl⟩

end Once

theorem chain_step [DecidableEq F] {s s' : System F} {a : Label F}
    (hs : s.shared.closeCallbacks = chain s.shared.added) (ha : a.unraced s = true)
    (h : step s a = some s') : s'.shared.closeCallbacks = chain s'.shared.added := by
  cases a with
  | addCloseCallback k f =>
    obtain ⟨-, h⟩ := Option.ite_none_right_eq_some.mp h
    cases f <;> cases h <;> exact hs
  | closeCallback k =>
    obtain ⟨-, h⟩ := Option.ite_none_right_eq_some.mp h
    cases h
    exact hs
  | run k =>
    obtain ⟨⟨c, p⟩, hn, rfl⟩ := Option.map_eq_some_iff.mp h
    cases hpc : s.pc k with
    | idle =>
      rw [hpc] at hn
      cases hn
    | addStore f pre =>
      have hpre : pre = s.shared.closeCallbacks := by simpa [Label.unraced, hpc] using ha
      rw [hpc] at hn
      cases hn
      simp [hpre, hs]
    | lock =>
      rw [hpc] at hn
      simp only [next] at hn
      split at hn <;> cases hn <;> exact hs
    | visit pre =>
      rw [hpc] at hn
      cases pre <;> cases hn <;> exact hs
    | addLoad | latest =>
      rw [hpc] at hn
      cases hn
      exact hs

structure Walking (k : Nat) (nodes : Nodes F) (s : System F) : Prop where
  once : Once s
  locked : s.shared.processing = some k
  split : ∀ rest, s.pc k = .visit rest → s.shared.called ++ rest = nodes
  past : s.pc k ≠ .latest

theorem Walking.step [DecidableEq F] {k : Nat} {nodes : Nodes F} {s s' : System F} {a : Label F}
    (hw : Walking k nodes s) (h : step s a = some s') : Walking k nodes s' := by
  have honce := hw.once.step h
  have keep {c : Connection F} {i : Nat} {p : Pc F} (hl : c.processing = s.shared.processing)
      (hc : c.called = s.shared.called) (hp : p.traverses = false)
      (honce : Once (s.enter c i p)) : Walking k nodes (s.enter c i p) := by
    refine ⟨honce, hl.trans hw.locked, fun rest hr => ?_, ?_⟩
    · rcases eq_or_ne k i with rfl | hki
      · simp only [State.enter_pc_self] at hr
        simp [hr, Pc.traverses] at hp
      · simpa [hc] using hw.split rest (by simpa [hki] using hr)
    · rcases eq_or_ne k i with rfl | hki
      · rintro hr
        simp only [State.enter_pc_self] at hr
        simp [hr, Pc.traverses] at hp
      · simpa [hki] using hw.past
  cases a with
  | addCloseCallback i f =>
    obtain ⟨-, h⟩ := Option.ite_none_right_eq_some.mp h
    cases f with
    | none =>
      cases h
      exact hw
    | some f =>
      cases h
      exact keep rfl rfl rfl honce
  | closeCallback i =>
    obtain ⟨-, h⟩ := Option.ite_none_right_eq_some.mp h
    cases h
    exact keep rfl rfl rfl honce
  | run i =>
    obtain ⟨⟨c, p⟩, hn, rfl⟩ := Option.map_eq_some_iff.mp h
    have holder (ht : (s.pc i).traverses = true) : i = k :=
      Option.some.inj ((hw.once.owned i ht).symm.trans hw.locked)
    cases hpc : s.pc i with
    | idle =>
      rw [hpc] at hn
      cases hn
    | addLoad f | addStore f pre =>
      rw [hpc] at hn
      cases hn
      exact keep rfl rfl rfl honce
    | lock =>
      rw [hpc] at hn
      simp only [next, hw.locked] at hn
      cases hn
      exact keep rfl rfl rfl honce
    | latest =>
      obtain rfl := holder (by rw [hpc]; rfl)
      exact absurd hpc hw.past
    | visit pre =>
      obtain rfl := holder (by rw [hpc]; rfl)
      have hsplit := hw.split pre hpc
      rw [hpc] at hn
      cases pre with
      | nil =>
        cases hn
        exact keep rfl rfl rfl honce
      | cons f pre =>
        cases hn
        refine ⟨honce, hw.locked, fun rest hr => ?_, by simp⟩
        obtain rfl : pre = rest := by simpa using hr
        simpa using hsplit

/-- When no call of `AddCloseCallback` is raced, a traversal that has come to its end has
called every callback added before it began once, the latest first, and the finaliser
last. -/
theorem callbacks_complete [DecidableEq F] {s₁ s₂ s₃ : System F} {k : Nat}
    (hbefore : Reach step (fun s a => a.unraced s) init s₁) (hlatest : s₁.pc k = .latest)
    (hload : step s₁ (.run k) = some s₂) (hafter : Reach step (fun _ _ => True) s₂ s₃)
    (hend : s₃.pc k = .visit []) :
    s₃.shared.called = (s₁.shared.added.map fun a => Callback.user a.2).reverse ++
    [.finalizer] := by
  obtain ⟨honce, hchain⟩ : Once s₁ ∧ s₁.shared.closeCallbacks = chain s₁.shared.added :=
    hbefore.invariant (I := fun s => Once s ∧ s.shared.closeCallbacks = chain s.shared.added)
      ⟨.init, rfl⟩ fun _ _ _ h ha hs => ⟨h.1.step hs, chain_step h.2 ha hs⟩
  have hlock := honce.owned k (by rw [hlatest]; rfl)
  have hfresh : (s₁.pc k).Fresh s₁.shared := honce.fresh k
  rw [hlatest] at hfresh
  have hstart : Walking k (chain s₁.shared.added) s₂ := by
    have honce₂ := honce.step hload
    obtain ⟨⟨c, p⟩, hn, rfl⟩ := Option.map_eq_some_iff.mp hload
    rw [hlatest] at hn
    cases hn
    refine ⟨honce₂, hlock, fun rest hr => ?_, by simp⟩
    obtain rfl : s₁.shared.closeCallbacks = rest := by simpa using hr
    simpa [show s₁.shared.called = [] from hfresh] using hchain
  have hwalk := hafter.invariant hstart fun _ _ _ h _ hs => h.step hs
  simpa [chain] using hwalk.split [] hend

def twoAdders : List (Label Nat) :=
  [.addCloseCallback 0 (some 5), .run 0, .run 0, .addCloseCallback 1 (some 6), .run 1, .run 1,
    .addCloseCallback 0 (some 7), .run 0, .run 0, .addCloseCallback 1 none, .closeCallback 2,
    .run 2]

theorem callbacks_complete_two :
    ∃ s₁ s₂ s₃ : System Nat, Reach step (fun s a => a.unraced s) init s₁ ∧ s₁.pc 2 = .latest ∧
      step s₁ (.run 2) = some s₂ ∧ Reach step (fun _ _ => True) s₂ s₃ ∧ s₃.pc 2 = .visit [] ∧
      s₃.shared.called = [.user 7, .user 6, .user 5, .finalizer] := by
  have hrun : ∃ s₁ s₂ s₃, runs (guarded step fun s a => a.unraced s) (init : System Nat) twoAdders =
    some s₁ ∧
      s₁.pc 2 = .latest ∧ s₁.shared.added = [(0, 5), (1, 6), (0, 7)] ∧ step s₁ (.run 2) = some s₂ ∧
      runs (guarded step fun _ _ => true) s₂ (List.replicate 4 (.run 2)) = some s₃ ∧
      s₃.pc 2 = .visit [] := ⟨_, _, _, rfl, rfl, rfl, rfl, rfl, rfl⟩
  obtain ⟨s₁, s₂, s₃, h₁, hl, hadd, h₂, h₃, hend⟩ := hrun
  have hbefore := Reach.of_runs h₁
  have hafter : Reach step (fun _ _ => True) s₂ s₃ := (Reach.of_runs h₃).mono fun _ _ _ _ => trivial
  refine ⟨s₁, s₂, s₃, hbefore, hl, h₂, hafter, hend, ?_⟩
  rw [callbacks_complete hbefore hl h₂ hafter hend, hadd]
  rfl

def racingAdders : List (Label Nat) :=
  [.addCloseCallback 0 (some 5), .addCloseCallback 1 (some 6), .run 0, .run 1, .run 0, .run 1,
    .closeCallback 2, .run 2]

/-- Both calls have returned, and the traversal leaves out the callback of the first. -/
theorem callback_lost :
    ∃ s₁ s₂ s₃ : System Nat, Reach step (fun _ _ => True) init s₁ ∧ s₁.pc 0 = .idle ∧
    s₁.pc 1 = .idle ∧
      s₁.shared.added = [(0, 5), (1, 6)] ∧ s₁.pc 2 = .latest ∧ step s₁ (.run 2) = some s₂ ∧
      Reach step (fun _ _ => True) s₂ s₃ ∧ s₃.pc 2 = .visit [] ∧
      s₃.shared.called = [.user 6, .finalizer] := by
  have hrun : ∃ s₁ s₂ s₃, runs (guarded step fun _ _ => true) (init : System Nat) racingAdders =
    some s₁ ∧
      s₁.pc 0 = .idle ∧ s₁.pc 1 = .idle ∧ s₁.shared.added = [(0, 5), (1, 6)] ∧ s₁.pc 2 = .latest ∧
      step s₁ (.run 2) = some s₂ ∧
      runs (guarded step fun _ _ => true) s₂ (List.replicate 2 (.run 2)) = some s₃ ∧
      s₃.pc 2 = .visit [] ∧ s₃.shared.called = [.user 6, .finalizer] :=
    ⟨_, _, _, rfl, rfl, rfl, rfl, rfl, rfl, rfl, rfl, rfl⟩
  obtain ⟨s₁, s₂, s₃, h₁, h0, h1, hadd, hl, h₂, h₃, hend, hcalled⟩ := hrun
  exact ⟨s₁, s₂, s₃, (Reach.of_runs h₁).mono fun _ _ _ _ => trivial, h0, h1, hadd, hl, h₂,
    (Reach.of_runs h₃).mono fun _ _ _ _ => trivial, hend, hcalled⟩

end Netpoll.CloseCallbacks
