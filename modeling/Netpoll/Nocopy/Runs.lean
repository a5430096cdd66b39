import Netpoll.Nocopy.Invariant

namespace Netpoll.Nocopy

open Netpoll.Lib Netpoll.Lib.Memory Netpoll.Lib.Transition

variable {w w' : World} {l l' : Layout} {P : Nat → Prop} {h h' : Heap} {b : LinkBuffer} {p : Parts}
  {U : List Nat} {K : List Slice} {i n : Nat} {cfg : Config} {a : Act} {o : Out} {op : Op}
  {mem : Nat → Nat → UInt8} {picks : Nat → Nat}

def Config.small : Config where
  linkBufferCap := 8
  alwaysNoCopyRead := true

namespace World

def CutsOwn (w : World) : Op → Prop
  | .act i a => ∀ b ∈ w.bufs[i]?, b.CutsOwn w.heap a.remain
  | _ => True

instance (w : World) : DecidablePred w.CutsOwn
  | .act i a => inferInstanceAs (Decidable (∀ b ∈ w.bufs[i]?, b.CutsOwn w.heap a.remain))
  | .new _ | .lend _ | .slice _ _ | .append _ _ => inferInstanceAs (Decidable True)

def blank : World := start (fun _ _ => 0) fun _ => 0

def after (ok : World → Op → Prop) [∀ w op, Decidable (ok w op)] (ops : List Op) : Option World :=
  runs (guarded (step .small) fun w op => decide (ok w op)) blank ops

theorem reach_of_after {ok : World → Op → Prop} [∀ w op, Decidable (ok w op)] {ops : List Op}
    {w : World} (hw : after ok ops = some w) : Reach (step .small) ok blank w := .of_decide hw

/-- A call of any function but `WriteBuffer` and `MallocAck`, with `WriteDirect` cutting only nodes
whose block can be written. -/
def Simple (w : World) (op : Op) : Prop :=
  w.legal op ∧ op.acks = false ∧ op.appends = false ∧ w.CutsOwn op

instance (w : World) (op : Op) : Decidable (w.Simple op) := inferInstanceAs (Decidable (_ ∧ _))

theorem cutsFree_false (w : World) (op : Op) : w.CutsFree (fun _ => False) op := by
  cases op with
  | act i a => exact fun _ _ _ _ _ => id
  | _ => trivial

end World

theorem exec_of_step (hs : w.step cfg op = some w') : ∃ o, w.exec cfg op = some (o, w') := by
  obtain ⟨⟨o, w'⟩, hx, rfl⟩ := Option.map_eq_some_iff.mp hs
  exact ⟨o, hx⟩

theorem run_inv {ok : World → Op → Prop} {I : World → Layout → Prop}
    (hw : Reach (World.step cfg) ok (World.start mem picks) w) (h0 : I (World.start mem picks) [])
    (hok : ∀ {w l op}, Inv w l (fun _ => False) → I w l → ok w op → w.legal op ∧ w.Careful op)
    (hI : ∀ {w w' l l' op}, I w l → ok w op → Moved w.heap w'.heap l l' (fun _ => False) op →
      I w' l') :
    ∃ l, Inv w l (fun _ => False) ∧ I w l := by
  refine hw.invariant (I := fun w => ∃ l, Inv w l (fun _ => False) ∧ I w l)
    ⟨[], .start mem picks, h0⟩ fun w op w' ⟨l, hinv, hi⟩ hop hs => ?_
  obtain ⟨o, hx⟩ := exec_of_step hs
  obtain ⟨hl, hc⟩ := hok hinv hi hop
  obtain ⟨l', P', hinv', -, hM⟩ := step_inv hinv hl hc (w.cutsFree_false op) hx
  exact ⟨l', hinv'.unpin fun _ => False.elim, hI hi hop hM⟩

theorem Buffer.modest {m : Int} (hb : Buffer h b p) (hs : Safe h (p.all ++ U) K P)
    (hf : h.content p.back.tail = []) : b.Modest h m := by
  intro hm
  rwa [hb.length, Parts.content_live, hf, List.append_nil, ← hb.readable_eq hs] at hm

theorem Inv.modest {m : Int} (hI : Inv w l P) (hf : l.Flushed w.heap) (hi : w.bufs[i]? = some b) :
    b.Modest w.heap m := by
  obtain ⟨p, rest, hF⟩ := hI.focus hi
  exact hF.buffer.modest hF.safe (hf (b, p) (List.mem_of_getElem? hF.get))

theorem Act.acked_of_acks (ha : a.acks = false) : a.acked = none := by
  cases a <;> first | rfl | simp [Act.acks] at ha

theorem World.Simple.careful (hI : Inv w l P) (hf : l.Flushed w.heap) (hop : w.Simple op) :
    w.Careful op := by
  obtain ⟨-, hack, -, hcut⟩ := hop
  cases op with
  | act i a =>
    intro b hi
    exact ⟨hI.modest hf hi, hcut b hi, by simp [Act.acked_of_acks hack]⟩
  | slice i m => exact fun b hi => hI.modest hf hi
  | new _ | lend _ | append _ _ => trivial

theorem simple_step (hI : Inv w l P) (hf : l.Flushed w.heap) (hop : w.Simple op)
    (hP : w.CutsFree P op) (hx : w.exec cfg op = some (o, w')) :
    ∃ l' P', Inv w' l' P' ∧ l'.Flushed w'.heap ∧ (∀ x, P x → P' x) ∧
      Moved w.heap w'.heap l l' P op := by
  obtain ⟨l', P', hI', hP', hM⟩ := step_inv hI hop.1 (hop.careful hI hf) hP hx
  exact ⟨l', P', hI', hM.flushed hop.2.2.1 hf, hP', hM⟩

theorem simple_run (hw : Reach (World.step cfg) World.Simple (World.start mem picks) w) :
    ∃ l, Inv w l (fun _ => False) ∧ l.Flushed w.heap :=
  run_inv (I := fun w l => l.Flushed w.heap) hw (by simp [Layout.Flushed])
    (fun hI hf hop => ⟨hop.1, hop.careful hI hf⟩) fun hf hop hM => hM.flushed hop.2.2.1 hf

theorem Inv.spares (hI : Inv w l P) (hf : l.Flushed w.heap) (hi : w.bufs[i]? = some b) (n : Nat) :
    b.Spares w.heap n := by
  obtain ⟨p, rest, hF⟩ := hI.focus hi
  have hp := hf (b, p) (List.mem_of_getElem? hF.get)
  rw [LinkBuffer.Spares, hF.buffer.back_eq hF.safe]
  simp only [Heap.content, List.flatMap_eq_nil_iff] at hp ⊢
  exact fun k hk => hp k (ackSplit_rest _ _ _ k hk)

theorem Inv.origin (hI : Inv w l P) (hw : l.Writers) {k : Nat} (hk : k ∈ l.nodes) :
    (w.heap.nodes k).origin = none := by
  obtain ⟨x, hx, hk⟩ := List.mem_flatMap.mp hk
  rcases hw x hx with hb | h0
  · exact (hI.buffer x hx).plain hb k hk
  · rw [h0] at hk
    cases hk

theorem Inv.unsliced (hI : Inv w l P) (hw : l.Writers) (b : LinkBuffer) (n : Nat) :
    b.Unsliced w.heap w.nodes n := by
  intro j _ k hk
  rw [hI.nodes_eq] at hk
  simp [hI.origin hw hk]

end Netpoll.Nocopy
