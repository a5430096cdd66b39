import Mathlib.Logic.Function.Basic
import Mathlib.Data.List.Basic

namespace Netpoll.Lib.Slices

variable {α : Type*}

structure Slice where
  array : Nat
  len : Nat
  deriving DecidableEq, Repr

structure Heap (α : Type*) where
  cells : Nat → List α
  cap : Nat → Nat
  next : Nat

def Slice.reset (s : Slice) : Slice := { s with len := 0 }

@[simp] theorem Slice.reset_array (s : Slice) : s.reset.array = s.array := rfl

namespace Heap

def view (h : Heap α) (s : Slice) : List α := (h.cells s.array).take s.len

/-- `append(s, xs...)`, with `grow` the capacity that the runtime proposes for a
new array. -/
def append (grow : Nat → Nat → Nat) (h : Heap α) (s : Slice) (xs : List α) : Heap α × Slice :=
  let len := s.len + xs.length
  if len ≤ h.cap s.array then
    ({ h with
        cells := Function.update h.cells s.array (h.view s ++ xs ++ (h.cells s.array).drop len) },
      { s with len })
  else
    ({ cells := Function.update h.cells h.next (h.view s ++ xs)
       cap := Function.update h.cap h.next (max len (grow (h.cap s.array) len))
       next := h.next + 1 },
      ⟨h.next, len⟩)

structure Valid (h : Heap α) (s : Slice) : Prop where
  array : s.array < h.next
  len : s.len ≤ (h.cells s.array).length

variable {grow : Nat → Nat → Nat} {h : Heap α} {s t : Slice} {xs : List α}

@[simp] theorem view_reset : h.view s.reset = [] := by simp [view, Slice.reset]

theorem Valid.reset (hs : h.Valid s) : h.Valid s.reset := ⟨hs.array, Nat.zero_le _⟩

theorem Valid.length_view (hs : h.Valid s) : (h.view s).length = s.len := by
  simp [view, hs.len]

@[simp] theorem append_len : (h.append grow s xs).2.len = s.len + xs.length := by
  unfold append
  dsimp only
  split <;> rfl

theorem Valid.append_view (hs : h.Valid s) :
    (h.append grow s xs).1.view (h.append grow s xs).2 = h.view s ++ xs := by
  have hl := hs.length_view
  unfold append
  dsimp only
  split
  · simp only [view, Function.update_self] at hl ⊢
    rw [List.take_append_of_le_length (by simp [hl]), List.take_of_length_le (by simp [hl])]
  · simp only [view, Function.update_self] at hl ⊢
    exact List.take_of_length_le (by simp [hl])

theorem Valid.append (hs : h.Valid s) : (h.append grow s xs).1.Valid (h.append grow s xs).2 := by
  have hl := hs.length_view
  have ha := hs.array
  unfold Heap.append
  dsimp only
  split
  · exact ⟨ha, by simp [hl]⟩
  · exact ⟨Nat.lt_succ_self _, by simp [hl]⟩

theorem append_array :
    (h.append grow s xs).2.array = s.array ∨ (h.append grow s xs).2.array = h.next := by
  unfold append
  dsimp only
  split
  · exact .inl rfl
  · exact .inr rfl

theorem Valid.append_array_ne (ht : h.Valid t) (hts : t.array ≠ s.array) :
    t.array ≠ (h.append grow s xs).2.array := by
  have ha := ht.array
  have hn : (h.append grow s xs).2.array = s.array ∨ (h.append grow s xs).2.array = h.next :=
    append_array
  rcases hn with he | he <;> rw [he]
  · exact hts
  · omega

theorem Valid.append_cells (ht : h.Valid t) (hts : t.array ≠ s.array) :
    (h.append grow s xs).1.cells t.array = h.cells t.array := by
  have ha := ht.array
  unfold Heap.append
  dsimp only
  split
  · exact Function.update_of_ne hts _ _
  · exact Function.update_of_ne (by omega) _ _

theorem Valid.append_other (ht : h.Valid t) (hts : t.array ≠ s.array) :
    (h.append grow s xs).1.view t = h.view t ∧ (h.append grow s xs).1.Valid t := by
  have hc : (h.append grow s xs).1.cells t.array = h.cells t.array := ht.append_cells hts
  have hn : h.next ≤ (h.append grow s xs).1.next := by
    unfold Heap.append
    dsimp only
    split
    · exact Nat.le_refl _
    · exact Nat.le_succ _
  exact ⟨by simp only [view, hc], Nat.lt_of_lt_of_le ht.array hn, hc ▸ ht.len⟩

end Heap

end Netpoll.Lib.Slices
