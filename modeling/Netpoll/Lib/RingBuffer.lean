import Mathlib.Data.Nat.ModEq
import Mathlib.Logic.Function.Basic

namespace Netpoll.Lib.RingBuffer

variable {α : Type*}

/-- The unread entries of the ring, oldest first. -/
structure Holds (size : Nat) (list : Nat → α) (r w : Nat) (ring : List α) : Prop where
  write : w = (r + ring.length) % size
  entry : ∀ t a, ring[t]? = some a → list ((r + 1 + t) % size) = a

variable {size r w : Nat} {list : Nat → α} {ring : List α} {a : α}

theorem mod_ne_mod {n t : Nat} (x : Nat) (htn : t < n) (hn : n < size) :
    (x + t) % size ≠ (x + n) % size := by
  intro he
  have hmod : t ≡ n [MOD size] := Nat.ModEq.add_left_cancel' x he
  have := Nat.ModEq.eq_of_lt_of_lt hmod (htn.trans hn) hn
  omega

theorem Holds.push (hh : Holds size list r w ring) (hlt : ring.length < size) (a : α) :
    Holds size (Function.update list ((w + 1) % size) a) r ((w + 1) % size) (ring ++ [a]) := by
  have hw : (w + 1) % size = (r + 1 + ring.length) % size := by
    rw [hh.write, Nat.mod_add_mod, Nat.add_right_comm]
  refine ⟨by rw [hw, List.length_append, List.length_singleton]; congr 1; omega, fun t b hb => ?_⟩
  rcases Nat.lt_or_ge t ring.length with ht | ht
  · rw [List.getElem?_append_left ht] at hb
    rw [hw, Function.update_of_ne (mod_ne_mod (r + 1) ht hlt)]
    exact hh.entry t b hb
  · rw [List.getElem?_append_right ht] at hb
    obtain ⟨h0, rfl⟩ : t - ring.length = 0 ∧ a = b := by
      cases hd : t - ring.length with
      | zero => simpa [hd] using hb
      | succ d => simp [hd] at hb
    obtain rfl : t = ring.length := by omega
    rw [hw, Function.update_self]

theorem Holds.pop (hh : Holds size list r w (a :: ring)) :
    list ((r + 1) % size) = a ∧ Holds size list ((r + 1) % size) w ring := by
  refine ⟨hh.entry 0 a rfl, ?_, fun t b hb => ?_⟩
  · rw [hh.write, Nat.mod_add_mod, List.length_cons]
    congr 1
    omega
  · have he := hh.entry (t + 1) b (by simpa using hb)
    rw [Nat.add_assoc ((r + 1) % size), Nat.mod_add_mod,
      show r + 1 + (1 + t) = r + 1 + (t + 1) by omega]
    exact he

end Netpoll.Lib.RingBuffer
