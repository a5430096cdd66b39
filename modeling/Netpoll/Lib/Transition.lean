import Mathlib.Data.Option.Basic
import Mathlib.Logic.Relation

/-! Runs of a partial, labelled step function.  A label fixes every choice of
the environment, so a schedule is a list of labels and a run is computable. -/

namespace Netpoll.Lib.Transition

variable {σ ι : Type*}

def runs (step : σ → ι → Option σ) : σ → List ι → Option σ
  | s, [] => some s
  | s, a :: as => (step s a).bind (runs step · as)

def guarded (step : σ → ι → Option σ) (p : σ → ι → Bool) (s : σ) (a : ι) : Option σ :=
  if p s a then step s a else none

/-- The states reached from `s₀` by runs all of whose steps meet `P` in the
state before the step. -/
inductive Reach (step : σ → ι → Option σ) (P : σ → ι → Prop) (s₀ : σ) : σ → Prop
  | refl : Reach step P s₀ s₀
  | tail {s a s'} : Reach step P s₀ s → P s a → step s a = some s' → Reach step P s₀ s'

variable {step : σ → ι → Option σ} {P Q : σ → ι → Prop} {s₀ s : σ}

theorem Reach.invariant {I : σ → Prop} (h : Reach step P s₀ s) (init : I s₀)
    (next : ∀ s a s', I s → P s a → step s a = some s' → I s') : I s := by
  induction h with
  | refl => exact init
  | tail _ hp hs ih => exact next _ _ _ ih hp hs

theorem Reach.mono (h : Reach step P s₀ s)
    (hPQ : ∀ s a, Reach step P s₀ s → P s a → Q s a) : Reach step Q s₀ s := by
  induction h with
  | refl => exact .refl
  | tail hr hp hs ih => exact .tail ih (hPQ _ _ hr hp) hs

theorem Reach.trans {s' : σ} (h : Reach step P s₀ s) (h' : Reach step P s s') :
    Reach step P s₀ s' := by
  induction h' with
  | refl => exact h
  | tail _ hp hs ih => exact .tail ih hp hs

theorem Reach.simulates {τ κ : Type*} {step' : τ → κ → Option τ} {R : τ → κ → Prop} (f : σ → τ)
    (h : Reach step P s₀ s)
    (sim : ∀ s a s', P s a → step s a = some s' →
      f s' = f s ∨ ∃ b, R (f s) b ∧ step' (f s) b = some (f s')) : Reach step' R (f s₀) (f s) := by
  induction h with
  | refl => exact .refl
  | tail _ hp hs ih =>
    rcases sim _ _ _ hp hs with he | ⟨b, hb, hb'⟩
    · exact he ▸ ih
    · exact .tail ih hb hb'

theorem Reach.follows {τ : Type*} {R : τ → τ → Prop} {x y : τ} (V : σ → τ → Prop)
    (h : Relation.ReflTransGen R x y) (init : V s₀ x)
    (sim : ∀ s x y, V s x → R x y → ∃ a s', P s a ∧ step s a = some s' ∧ V s' y) :
    ∃ s, Reach step P s₀ s ∧ V s y := by
  induction h with
  | refl => exact ⟨s₀, .refl, init⟩
  | tail _ hR ih =>
    obtain ⟨s, hs, hV⟩ := ih
    obtain ⟨a, s', ha, hs', hV'⟩ := sim _ _ _ hV hR
    exact ⟨s', .tail hs ha hs', hV'⟩

theorem Reach.of_runs {p : σ → ι → Bool} {as : List ι}
    (h : runs (guarded step p) s₀ as = some s) : Reach step (fun s a => p s a) s₀ s := by
  induction as generalizing s₀ with
  | nil =>
    cases h
    exact .refl
  | cons a as ih =>
    obtain ⟨t, ht, hr⟩ := Option.bind_eq_some_iff.mp h
    obtain ⟨hpa, ht⟩ := Option.ite_none_right_eq_some.mp ht
    have hd : Reach step (fun s a => p s a) s₀ t := .tail .refl hpa ht
    exact hd.trans (ih hr)

theorem runs_rank {p : σ → ι → Bool} {I : σ → Prop} (rank : σ → Nat)
    (next : ∀ s a s', I s → p s a → step s a = some s' → I s' ∧ rank s' < rank s) {as : List ι}
    (init : I s₀) (h : runs (guarded step p) s₀ as = some s) :
    I s ∧ as.length + rank s ≤ rank s₀ := by
  induction as generalizing s₀ with
  | nil =>
    cases h
    exact ⟨init, by simp⟩
  | cons a as ih =>
    obtain ⟨t, ht, hr⟩ := Option.bind_eq_some_iff.mp h
    obtain ⟨hpa, ht⟩ := Option.ite_none_right_eq_some.mp ht
    obtain ⟨hI, hlt⟩ := next _ _ _ init hpa ht
    obtain ⟨hI', hle⟩ := ih hI hr
    refine ⟨hI', ?_⟩
    rw [List.length_cons]
    omega

theorem Reach.of_decide [∀ s a, Decidable (P s a)] {as : List ι}
    (h : runs (guarded step fun s a => decide (P s a)) s₀ as = some s) : Reach step P s₀ s :=
  (Reach.of_runs h).mono fun _ _ _ ha => of_decide_eq_true ha

end Netpoll.Lib.Transition
