import Mathlib.Data.List.Basic
import Mathlib.Data.List.Range
import Mathlib.Data.List.Nodup

namespace Netpoll.Lib.Memory

variable {β α : Type*} {m : β → Nat → α} {k k' : β} {i j n n' : Nat} {l l' : List α}

def load (m : β → Nat → α) (k : β) (i n : Nat) : List α :=
  (List.range n).map fun j => m k (i + j)

@[simp] theorem length_load : (load m k i n).length = n := by simp [load]

@[simp] theorem load_zero : load m k i 0 = [] := rfl

theorem load_add : load m k i (n + n') = load m k i n ++ load m k (i + n) n' := by
  simp [load, List.range_add, Function.comp_def, Nat.add_assoc]

theorem take_load (h : j ≤ n) : (load m k i n).take j = load m k i j := by
  obtain ⟨d, rfl⟩ := Nat.exists_eq_add_of_le h
  rw [load_add, List.take_left']
  simp

theorem load_congr {m' : β → Nat → α} (h : ∀ c, i ≤ c → c < i + n → m' k c = m k c) :
    load m' k i n = load m k i n := by
  apply List.map_congr_left
  intro j hj
  have hj := List.mem_range.mp hj
  exact h _ (by omega) (by omega)

def cells (k : β) (i n : Nat) : List (β × Nat) := (List.range n).map fun j => (k, i + j)

def look {α : Type*} (m : β → Nat → α) (l : List (β × Nat)) : List α := l.map fun a => m a.1 a.2

@[simp] theorem length_cells : (cells k i n).length = n := by simp [cells]

@[simp] theorem cells_zero : cells k i 0 = [] := rfl

theorem cells_add : cells k i (n + n') = cells k i n ++ cells k (i + n) n' := by
  simp [cells, List.range_add, Function.comp_def, Nat.add_assoc]

theorem take_cells (h : j ≤ n) : (cells k i n).take j = cells k i j := by
  obtain ⟨d, rfl⟩ := Nat.exists_eq_add_of_le h
  rw [cells_add, List.take_left']
  simp

theorem drop_cells (h : j ≤ n) : (cells k i n).drop j = cells k (i + j) (n - j) := by
  obtain ⟨d, rfl⟩ := Nat.exists_eq_add_of_le h
  rw [cells_add, List.drop_left' (by simp), Nat.add_sub_cancel_left]

theorem mem_cells {a : β × Nat} : a ∈ cells k i n ↔ a.1 = k ∧ i ≤ a.2 ∧ a.2 < i + n := by
  obtain ⟨b, c⟩ := a
  simp only [cells, List.mem_map, List.mem_range, Prod.mk.injEq]
  constructor
  · rintro ⟨j, hj, rfl, rfl⟩
    exact ⟨rfl, by omega, by omega⟩
  · rintro ⟨rfl, h₁, h₂⟩
    exact ⟨c - i, by omega, rfl, by omega⟩

theorem cells_eq_nil : cells k i n = [] ↔ n = 0 := by simp [cells]

theorem nodup_cells : (cells k i n).Nodup :=
  List.Nodup.map (fun a b hab => by simpa using hab) List.nodup_range

theorem load_eq : load m k i n = look m (cells k i n) := by simp [load, look, cells]

@[simp] theorem length_look {l : List (β × Nat)} : (look m l).length = l.length := by simp [look]

@[simp] theorem look_nil : look m [] = [] := rfl

@[simp] theorem look_append {l l' : List (β × Nat)} :
    look m (l ++ l') = look m l ++ look m l' := List.map_append

theorem look_take {l : List (β × Nat)} : look m (l.take n) = (look m l).take n := List.map_take

theorem look_drop {l : List (β × Nat)} : look m (l.drop n) = (look m l).drop n := List.map_drop

theorem look_congr {m' : β → Nat → α} {l : List (β × Nat)}
    (h : ∀ a ∈ l, m' a.1 a.2 = m a.1 a.2) : look m' l = look m l :=
  List.map_congr_left h

/-- `m'` differs from `m` at most at the addresses `Q`. -/
def Writes (Q : β × Nat → Prop) (m m' : β → Nat → α) : Prop := ∀ a, ¬ Q a → m' a.1 a.2 = m a.1 a.2

theorem Writes.refl {Q : β × Nat → Prop} : Writes Q m m := fun _ _ => rfl

theorem Writes.mono {Q Q' : β × Nat → Prop} {m' : β → Nat → α} (h : Writes Q m m')
    (hQ : ∀ a, Q a → Q' a) : Writes Q' m m' := fun a ha => h a fun hq => ha (hQ a hq)

theorem Writes.trans {Q : β × Nat → Prop} {m' m'' : β → Nat → α} (h : Writes Q m m')
    (h' : Writes Q m' m'') : Writes Q m m'' := fun a ha => (h' a ha).trans (h a ha)

theorem Writes.look {Q : β × Nat → Prop} {m' : β → Nat → α} {l : List (β × Nat)}
    (h : Writes Q m m') (hl : ∀ a ∈ l, ¬ Q a) : look m' l = look m l :=
  look_congr fun a ha => h a (hl a ha)

variable [DecidableEq β]

def store (m : β → Nat → α) (k : β) (i : Nat) (l : List α) : β → Nat → α :=
  fun k' j => if k' = k ∧ i ≤ j then (l[j - i]?).getD (m k' j) else m k' j

theorem load_store_of_disjoint (h : j + n ≤ i ∨ i + l.length ≤ j) :
    load (store m k i l) k' j n = load m k' j n := by
  apply load_congr
  intro c hc hc'
  by_cases hi : k' = k ∧ i ≤ c
  · have hlen : l.length ≤ c - i := by omega
    simp [store, hi, hlen]
  · simp [store, hi]

@[simp] theorem load_store_self : load (store m k i l) k i l.length = l := by
  apply List.ext_getElem (by simp)
  intro j _ hj
  simp [load, store, hj]

theorem store_store_append :
    store (store m k i l) k (i + l.length) l' = store m k i (l ++ l') := by
  funext k' j
  by_cases hk : k' = k
  · subst hk
    by_cases hj : i + l.length ≤ j
    · have hi : i ≤ j := by omega
      have hlen : l.length ≤ j - i := by omega
      simp [store, hj, hi, hlen, List.getElem?_append_right, Nat.sub_sub]
    · by_cases hi : i ≤ j
      · have hlen : j - i < l.length := by omega
        simp [store, hj, hi, hlen, List.getElem?_append_left]
      · simp [store, hj, hi]
  · simp [store, hk]

theorem idxOf_cells (hj : j < n) : (cells k i n).idxOf (k, i + j) = j := by
  have hlen : j < (cells k i n).length := by rwa [length_cells]
  have hget : (cells k i n)[j] = (k, i + j) := by simp [cells]
  rw [← hget]
  exact List.Nodup.idxOf_getElem nodup_cells j _

theorem store_of_notMem {a : β × Nat} (h : a ∉ cells k i l.length) :
    store m k i l a.1 a.2 = m a.1 a.2 := by
  rw [mem_cells] at h
  by_cases hi : a.1 = k ∧ i ≤ a.2
  · have hlen : l.length ≤ a.2 - i := by
      have : ¬ a.2 < i + l.length := fun hlt => h ⟨hi.1, hi.2, hlt⟩
      omega
    simp [store, hi, hlen]
  · simp [store, hi]

theorem writes_store : Writes (· ∈ cells k i l.length) m (store m k i l) :=
  fun _ ha => store_of_notMem ha

@[simp] theorem store_nil : store m k i [] = m := by
  funext k' j
  simp [store]

@[simp] theorem store_self {a : β × Nat} {v : α} : store m a.1 a.2 [v] a.1 a.2 = v := by
  simp [store]

theorem look_store_of_notMem {a : β × Nat} {v : α} {l : List (β × Nat)} (h : a ∉ l) :
    look (store m a.1 a.2 [v]) l = look m l :=
  writes_store.look fun b hb he => h <| by
    obtain rfl : b = a := by simpa [cells] using he
    exact hb

theorem look_store {a : β × Nat} {v : α} {l : List (β × Nat)} (hl : l[n]? = some a)
    (hc : l.count a ≤ 1) : look (store m a.1 a.2 [v]) l = (look m l).set n v := by
  induction l generalizing n with
  | nil => simp at hl
  | cons b l ih =>
    rw [List.count_cons] at hc
    cases n with
    | zero =>
      obtain rfl : b = a := by simpa using hl
      have hb : b ∉ l := List.count_eq_zero.mp (by simpa using hc)
      have := look_store_of_notMem (m := m) (v := v) hb
      simp only [look, List.map_cons, store_self, List.set_cons_zero] at this ⊢
      rw [this]
    | succ n =>
      have hl : l[n]? = some a := by simpa using hl
      have hpos := List.count_pos_iff.mpr (List.mem_of_getElem? hl)
      have hne : b ≠ a := by
        rintro rfl
        simp only [beq_self_eq_true, if_true] at hc
        omega
      have hb := look_store_of_notMem (m := m) (v := v) (a := a) (l := [b])
        (by simpa using hne.symm)
      have := ih hl (by omega)
      simp only [look, List.map_cons, List.set_cons_succ, List.map_nil, List.cons.injEq, and_true]
        at this hb ⊢
      exact ⟨hb, this⟩

end Netpoll.Lib.Memory
