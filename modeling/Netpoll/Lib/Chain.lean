import Mathlib.Logic.Function.Basic
import Mathlib.Data.List.Nodup

namespace Netpoll.Lib.Chain

variable {α : Type*} {next next' : α → Option α} {a b c : Option α} {l l' : List α} {x : α}

/-- Following `next` from `a` visits the list and arrives at `b`. -/
def Seg (next : α → Option α) : Option α → List α → Option α → Prop
  | a, [], b => a = b
  | a, x :: l, b => a = some x ∧ Seg next (next x) l b

@[simp] theorem seg_nil : Seg next a [] b ↔ a = b := Iff.rfl

@[simp] theorem seg_cons : Seg next a (x :: l) b ↔ a = some x ∧ Seg next (next x) l b := Iff.rfl

theorem Seg.congr (h : Seg next a l b) (hl : ∀ x ∈ l, next' x = next x) : Seg next' a l b := by
  induction l generalizing a with
  | nil => exact h
  | cons x l ih =>
    refine ⟨h.1, ?_⟩
    rw [hl x (by simp)]
    exact ih h.2 fun y hy => hl y (by simp [hy])

theorem Seg.update [DecidableEq α] {v : Option α} (h : Seg next a l b) (hx : x ∉ l) :
    Seg (Function.update next x v) a l b := by
  refine h.congr fun y hy => ?_
  have hyx : y ≠ x := by
    rintro rfl
    exact hx hy
  simp [hyx]

theorem seg_append : Seg next a (l ++ l') b ↔ ∃ c, Seg next a l c ∧ Seg next c l' b := by
  induction l generalizing a with
  | nil => simp
  | cons x l ih => simp [ih, and_assoc]

theorem Seg.head (h : Seg next a l none) : a = l.head? := by
  cases l with
  | nil => exact h
  | cons x l => exact h.1

theorem Seg.next_eq (h : Seg next a (l ++ x :: l') none) : next x = l'.head? := by
  obtain ⟨c, _, hx⟩ := seg_append.mp h
  exact hx.2.head

theorem steps_of_length_lt {fuel : Nat} (h : (x :: l).length < fuel) :
    ∃ f, fuel = f + 1 ∧ l.length < f := by
  simp only [List.length_cons] at h
  exact ⟨fuel - 1, by omega, by omega⟩

theorem Seg.set_next [DecidableEq α] (h : Seg next a (l ++ [x]) b) (hx : x ∉ l)
    (h' : Seg next c l' none) (hx' : x ∉ l') :
    Seg (Function.update next x c) a (l ++ [x] ++ l') none := by
  obtain ⟨d, hl, hd, -⟩ := seg_append.mp h
  refine seg_append.mpr ⟨c, seg_append.mpr ⟨d, hl.update hx, hd, ?_⟩, h'.update hx'⟩
  simp

section Walk

variable [DecidableEq α] {fuel : Nat}

def walk (next : α → Option α) (stop : Option α) : Nat → Option α → List α
  | 0, _ => []
  | _ + 1, none => []
  | fuel + 1, some x => x :: if some x = stop then [] else walk next stop fuel (next x)

theorem walk_none : walk next c fuel none = [] := by cases fuel <;> rfl

theorem Seg.walk_eq (h : Seg next a (l ++ [x]) b) (hx : x ∉ l) (hf : l.length < fuel) :
    walk next (some x) fuel a = l ++ [x] := by
  induction l generalizing a fuel with
  | nil =>
    obtain ⟨f, rfl⟩ := Nat.exists_eq_add_of_lt hf
    obtain rfl : a = some x := h.1
    simp [walk]
  | cons y l ih =>
    obtain ⟨f, rfl, hf'⟩ := steps_of_length_lt hf
    obtain rfl : a = some y := h.1
    have hy : y ≠ x := fun he => hx (by simp [he])
    simp [walk, hy, ih h.2 (fun hm => hx (by simp [hm])) hf']

theorem Seg.walk_all (h : Seg next a l none) (hf : l.length < fuel) :
    walk next none fuel a = l := by
  induction l generalizing a fuel with
  | nil =>
    obtain rfl : a = none := h
    exact walk_none
  | cons y l ih =>
    obtain ⟨f, rfl, hf'⟩ := steps_of_length_lt hf
    obtain rfl : a = some y := h.1
    simp [walk, ih h.2 hf']

end Walk

end Netpoll.Lib.Chain
