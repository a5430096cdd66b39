import Netpoll.Nocopy.Queue

/-! All buffers together as queues of bytes, along whole runs. -/

namespace Netpoll.Nocopy

open Netpoll.Lib Netpoll.Lib.Memory Netpoll.Lib.Transition Netpoll.Lib.Staged

variable {w w' : World} {l l' rest : Layout} {P P' : Nat → Prop} {h h' : Heap} {b b' : LinkBuffer}
  {p p' : Parts} {i j k n : Nat} {m : Int} {cfg : Config} {a : Act} {o : Out} {op : Op}
  {mem : Nat → Nat → UInt8} {picks : Nat → Nat}

namespace World

def queues (w : World) : List (Queue UInt8) := w.bufs.map (·.queue w.heap)

/-- The buffers that a call is for are there, and are no readers if the call writes. -/
def opens (w : World) : Op → Bool
  | .act i a => (w.bufs[i]?).any fun b => !a.writes || b.write.isSome
  | .slice i _ => (w.bufs[i]?).isSome
  | .append i j => (w.bufs[i]?).any fun b => (w.bufs[j]?).any fun buf =>
    decide (buf.length + buf.mallocSize ≤ 0) || b.write.isSome && buf.write.isSome
  | _ => true

/-- `MallocAck` finds no bytes behind the flush node that `WriteBuffer` counts as readable. -/
def settled (w : World) : Op → Bool
  | .act i a => !a.acks || (w.bufs[i]?).all fun b => b.length == (b.readable w.heap).length
  | _ => true

/-- A call of any function but `WriteDirect`, on a buffer that can serve it. -/
def Orderly (w : World) (op : Op) : Prop :=
  w.legal op ∧ w.Careful op ∧ op.splits = false ∧ w.opens op ∧ w.settled op

/-- A call of any function but `WriteDirect` and `WriteBuffer`, on a buffer that can serve it; a
`MallocAck(0)` finds nothing pending in the flush node. -/
def Plain (w : World) (op : Op) : Prop := w.Trimming op ∧ w.opens op

instance (w : World) (op : Op) : Decidable (w.Orderly op) := inferInstanceAs (Decidable (_ ∧ _))

instance (w : World) (op : Op) : Decidable (w.Plain op) := inferInstanceAs (Decidable (_ ∧ _))

end World

/-- What an operation is for the queues. -/
def Op.request (w w' : World) (o : Out) : Op → Option (Request UInt8)
  | .new _ => some .new
  | .lend bs => some (.outside bs)
  | .act i a => (w.bufs[i]?).bind fun b => (a.call b w.heap w'.heap o).map (.call i)
  | .slice i n => some (.split i n)
  | .append i j => some (.append i j)

def Op.uses (i : Nat) : Op → Bool
  | .act j _ | .slice j _ => j == i
  | .append j k => j == i || k == i
  | _ => false

def Op.readsFrom (i : Nat) : Op → Bool
  | .act j a => j == i && a.reads
  | .slice j _ => j == i
  | _ => false

/-- A call that takes its nodes from the buffer `i`. -/
def Op.shuts (i : Nat) : Op → Bool
  | .act j .close => j == i
  | .append _ j => j == i
  | _ => false

/-- What `Next` has returned from the buffer `i` can still be used after the call. -/
def World.retains (w : World) (i : Nat) (o : Out) : Op → Bool
  | .act j a => j != i || a.retains
  | .slice j m => j != i || o != .done || decide (m ≤ 0) ||
    (w.bufs[j]?).any fun b => b.single w.heap m.toNat
  | .append _ j => j != i || (w.bufs[j]?).any fun b => decide (b.length + b.mallocSize ≤ 0)
  | _ => true

def Op.hands (h : Heap) (l : Layout) (P : Nat → Prop) (o : Out) : Op → Prop
  | .act i a => ∃ b p, l[i]? = some (b, p) ∧ a.hands h b p l.nodes l.kept P o
  | _ => True

structure Carried (w w' : World) (l l' : Layout) (P P' : Nat → Prop) (op : Op) (o : Out) :
    Prop where
  pins : ∀ x, P x → P' x
  moved : Moved w.heap w'.heap l l' P op
  retained : ∀ i b p, w.retains i o op → l[i]? = some (b, p) →
    ∃ b' p', l'[i]? = some (b', p') ∧ Retained w.heap w'.heap b b' p p'
  hands : op.hands w'.heap l' P' o

theorem Carried.refl (hop : op.hands w.heap l P o) : Carried w w l l P P op o where
  pins _ := id
  moved := .stay op .refl (fun _ _ => rfl) .refl
  retained _ b p _ hx := ⟨b, p, hx, .refl⟩
  hands := hop

theorem Carried.add {bufs : List LinkBuffer} {x : LinkBuffer × Parts}
    (hM : Moved w.heap h' l (l ++ [x]) P op)
    (hn : ∀ k ∈ l.nodes, (h'.nodes k).bare = (w.heap.nodes k).bare)
    (hop : op.hands h' (l ++ [x]) P o) : Carried w ⟨h', bufs⟩ l (l ++ [x]) P P op o where
  pins _ := id
  moved := hM
  retained i b p _ hx := by
    refine ⟨b, p, by rw [List.getElem?_append_left (List.getElem?_eq_some_iff.mp hx).1, hx], ?_⟩
    exact .of_bare fun k hk => hn k (Layout.mem_nodes (List.mem_of_getElem? hx) hk)
  hands := hop

structure Tidy (w : World) (l : Layout) (P : Nat → Prop) : Prop where
  inv : Inv w l P
  unsplit : Unsplit w.heap l.nodes
  sound : ∀ k ∈ l.nodes, Sound w.heap k
  cached : ∀ x ∈ l, x.2.all ≠ [] → Cached w.heap x.1 x.2

structure Stepped (w w' : World) (l l' : Layout) (P P' : Nat → Prop) (op : Op) (o : Out) :
    Prop where
  tidy : Tidy w' l' P'
  carried : Carried w w' l l' P P' op o
  served : ∃ q r, op.request w w' o = some q ∧ serve w.queues q = some (r, w'.queues) ∧
    o.agrees w'.heap r
  others : ∀ i x, op.uses i = false → l[i]? = some x →
    l'[i]? = some x ∧ ∀ k ∈ x.2.all, (w'.heap.nodes k).bare = (w.heap.nodes k).bare
  untouched : ∀ i b p, op.readsFrom i → l[i]? = some (b, p) →
    ∃ b' p', l'[i]? = some (b', p') ∧ Untouched w.heap w'.heap p p'
  opened : ∀ i x, op.shuts i = false → l[i]? = some x → x.2.back ≠ [] →
    ∃ x', l'[i]? = some x' ∧ x'.2.back ≠ []

theorem Tidy.queued (hT : Tidy w l P) (hF : Focus w l rest i b p P) :
    Queued w.heap b p rest.nodes rest.kept P where
  buffer := hF.buffer
  safe := hF.safe
  viewed := hF.viewed
  fit _ hk := hT.inv.fit ((Layout.nodes_perm hF.perm).mem_iff.mpr (List.mem_append_right _ hk))
  sound k hk := hT.sound k (Layout.mem_nodes (List.mem_of_getElem? hF.get) hk)
  cached := hT.cached _ (List.mem_of_getElem? hF.get)

theorem Inv.queue_eq (hI : Inv w l P) (hx : (b, p) ∈ l) : b.queue w.heap = w.heap.queue p := by
  obtain ⟨i, hi⟩ := List.mem_iff_getElem?.mp hx
  obtain ⟨q, rest, hF⟩ := hI.focus (i := i) (by rw [hI.bufs, List.getElem?_map, hi]; rfl)
  obtain rfl : p = q := by simpa [hi] using hF.get
  rw [LinkBuffer.queue, LinkBuffer.coming, hF.buffer.readable_eq hF.safe, hF.buffer.back_eq hF.safe,
    Heap.queue]

theorem Heap.queue_congr (hn : ∀ k ∈ p.all, (h'.nodes k).bare = (h.nodes k).bare)
    (hm : ∀ k ∈ p.all, ∀ x ∈ h.ready k ++ h.pending k, h'.mem x.1 x.2 = h.mem x.1 x.2) :
    h'.queue p = h.queue p := by
  have hc : h'.content p.early = h.content p.early := Heap.content_bare fun k hk =>
    hn k (Parts.mem_all_of_live (Parts.mem_live_of_early hk))
  have hu : h'.later p.back = h.later p.back :=
    Heap.later_bare fun k hk => hn k (Parts.mem_all_of_back hk)
  have hlook : ∀ x ∈ h.content p.early ++ h.later p.back, h'.mem x.1 x.2 = h.mem x.1 x.2 :=
    fun x hx => by
    obtain ⟨k, hk, hkx⟩ := Queued.mem_all hx
    exact hm k hk x hkx
  rw [Heap.queue, Heap.queue, hc, hu, Heap.look, Heap.look, Heap.look, Heap.look,
    look_congr fun x hx => hlook x (List.mem_append_left _ hx),
    look_congr fun x hx => hlook x (List.mem_append_right _ hx)]

structure Spared (h h' : Heap) (b : LinkBuffer) (p : Parts) : Prop where
  queue : h'.queue p = h.queue p
  cached : Cached h b p → Cached h' b p
  sound : ∀ k ∈ p.all, Sound h k → Sound h' k

theorem Spared.of_writes (hn : ∀ k ∈ p.all, (h'.nodes k).bare = (h.nodes k).bare)
    (hm : ∀ k ∈ p.all, ∀ x ∈ h.ready k ++ h.pending k, h'.mem x.1 x.2 = h.mem x.1 x.2)
    (hq : ∀ q, b.cachePeek = some q → ∀ x : Addr, x.1 = q.blk → h'.mem x.1 x.2 = h.mem x.1 x.2)
    (hs : ∀ k ∈ p.all, Sound h k → Sound h' k) : Spared h h' b p := by
  have hqueue := Heap.queue_congr hn hm
  refine ⟨hqueue, fun hc => ?_, hs⟩
  refine hc.grow rfl (fun q hcp => ?_) ?_
  · rw [Heap.bytes_eq, Heap.bytes_eq]
    exact look_congr fun x hx => hq q hcp x (mem_cells.mp hx).1
  · have := congrArg Queue.ready hqueue
    simp only [Heap.queue] at this
    rw [this]

theorem Acted.spared (hT : Tidy w l P) (hF : Focus w l rest i b p P)
    (hA : Acted w.heap h' b b' p p' a rest.nodes rest.kept P P') (hsp : a.splits = false)
    {c : LinkBuffer} {q : Parts} (hx : (c, q) ∈ rest) : Spared w.heap h' c q := by
  have hl : (c, q) ∈ l := hF.perm.mem_iff.mpr (by simp [hx])
  have hfit : ∀ k ∈ p.all, (w.heap.nodes k).Fit := fun k hk => hF.buffer.rep.fit k hk
  refine .of_writes (fun k hk => hA.node k (Layout.mem_nodes hx hk)) (fun k hk x hkx => ?_)
    (fun s hs x hxs => ?_)
    fun k hk => (hA.keeps hsp).sound k (Layout.mem_nodes hx hk)
  · exact hA.writes x
      (hF.safe.not_written (Layout.mem_nodes hx hk) (hT.sound k (Layout.mem_nodes hl hk))
        ((hT.inv.buffer _ hl).rep.fit k hk) hkx hfit)
  · refine hA.writes x (hF.safe.kept_not_written (q := { s with len := 0 }) ?_ hxs hfit)
    exact List.mem_flatMap.mpr ⟨_, hx, by simp [LinkBuffer.kept, hs]⟩

theorem Inv.queues_eq (hI : Inv w l P) : w.queues = l.map fun x => w.heap.queue x.2 := by
  rw [World.queues, hI.bufs, List.map_map]
  exact List.map_congr_left fun x hx => hI.queue_eq hx

theorem set_self {α : Type*} {l : List α} {x : α} (hx : l[i]? = some x) : l.set i x = l := by
  obtain ⟨hlt, rfl⟩ := List.getElem?_eq_some_iff.mp hx
  exact List.set_getElem_self hlt

theorem map_set_eq {α β : Type*} {f f' : α → β} {l : List α} {y : α}
    (hf : ∀ j x, j ≠ i → l[j]? = some x → f' x = f x) :
    (l.set i y).map f' = (l.map f).set i (f' y) := by
  refine List.ext_getElem? fun j => ?_
  by_cases hj : j = i
  · subst hj
    by_cases hlt : j < l.length <;> simp [hlt]
  · rw [List.getElem?_map, List.getElem?_set_ne (Ne.symm hj), List.getElem?_set_ne (Ne.symm hj),
      List.getElem?_map]
    cases hx : l[j]? with
    | none => rfl
    | some z => simp [hf j z hj hx]

structure Changed (w w' : World) (l l' : Layout) (P' : Nat → Prop) (i : Nat) (q : Queue UInt8) :
    Prop where
  tidy : Tidy w' l' P'
  queues : w'.queues = w.queues.set i q
  others : ∀ j x, j ≠ i → l[j]? = some x →
    l'[j]? = some x ∧ ∀ k ∈ x.2.all, (w'.heap.nodes k).bare = (w.heap.nodes k).bare

theorem Served.changed {c : Call UInt8} (hT : Tidy w l P) (hF : Focus w l rest i b p P)
    (hsp : a.splits = false) (hS : Served w.heap h' b b' p p' a rest.nodes rest.kept P P' c o) :
    Changed w ⟨h', w.bufs.set i b'⟩ l (l.set i (b', p')) P' i (h'.queue p') := by
  have hA := hS.acted
  have hM : Moved w.heap h' l (l.set i (b', p')) P (.act i a) := hA.moved hF ⟨rfl, rfl⟩
  have hI := hF.update hT.inv hA.buffer hA.safe hA.node hA.later.lent
  have hspared : ∀ x ∈ rest, Spared w.heap h' x.1 x.2 := fun x hx => hA.spared hT hF hsp hx
  have hrest : ∀ x ∈ rest, x ∈ l := fun x hx => hF.perm.mem_iff.mpr (by simp [hx])
  have hmem : ∀ x ∈ l.set i (b', p'), x = (b', p') ∨ x ∈ rest := fun x hx =>
    List.mem_cons.mp ((hF.set _).mem_iff.mp hx)
  refine ⟨⟨hI, hM.unsplit hsp hT.unsplit, fun k hk => ?_, fun x hx he => ?_⟩, ?_,
    fun j x hj hx => ?_⟩
  · obtain ⟨x, hx, hk⟩ := List.mem_flatMap.mp hk
    rcases hmem x hx with rfl | hx
    · exact hS.sound k hk
    · exact (hspared x hx).sound k hk (hT.sound k (Layout.mem_nodes (b := x.1) (hrest x hx) hk))
  · rcases hmem x hx with rfl | hx
    · exact hS.cached he
    · exact (hspared x hx).cached (hT.cached x (hrest x hx) he)
  · rw [hI.queues_eq, hT.inv.queues_eq]
    exact map_set_eq fun j x hj hx => (hspared x (hF.others hj hx)).queue
  · exact ⟨by rw [List.getElem?_set_ne hj.symm, hx], fun k hk =>
      hA.node k (Layout.mem_nodes (b := x.1) (hF.others hj hx) hk)⟩

theorem Changed.trans {w'' : World} {l'' : Layout} {P'' : Nat → Prop} {q q' : Queue UInt8}
    (hC : Changed w w' l l' P' i q) (hC' : Changed w' w'' l' l'' P'' i q') :
    Changed w w'' l l'' P'' i q' where
  tidy := hC'.tidy
  queues := by rw [hC'.queues, hC.queues, List.set_set]
  others j x hj hx := by
    obtain ⟨hx', hn⟩ := hC.others j x hj hx
    obtain ⟨hx'', hn'⟩ := hC'.others j x hj hx'
    exact ⟨hx'', fun k hk => (hn' k hk).trans (hn k hk)⟩

theorem Changed.queue_eq {q : Queue UInt8} (hC : Changed w w' l l' P' i q)
    (hi : l'[i]? = some (b, p)) :
    w'.heap.queue p = q := by
  have hqs := congrArg (·[i]?) hC.queues
  simp only [hC.tidy.inv.queues_eq, List.getElem?_map, hi, Option.map_some] at hqs
  by_cases hlt : i < w.queues.length
  · rw [List.getElem?_set_self hlt] at hqs
    exact Option.some.inj hqs
  · rw [List.getElem?_eq_none (by simpa using hlt)] at hqs
    cases hqs

variable (cfg) in
theorem Tidy.act (hT : Tidy w l P) (hop : w.Orderly (.act i a)) :
    ∃ o w' l' P', w.exec cfg (.act i a) = some (o, w') ∧ Stepped w w' l l' P P' (.act i a) o := by
  obtain ⟨hl, hc, hsp, hopen, hset⟩ := hop
  obtain ⟨b, hi, hw⟩ : ∃ b, w.bufs[i]? = some b ∧ (a.writes → b.write.isSome) := by
    cases hb : w.bufs[i]? with
    | none => simp [World.opens, hb] at hopen
    | some b => exact ⟨b, rfl, by simpa [World.opens, hb, imp_iff_not_or] using hopen⟩
  have hack : a.acks → b.length = (b.readable w.heap).length := by
    simpa [World.settled, hi, imp_iff_not_or] using hset
  obtain ⟨p, rest, hF⟩ := hT.inv.focus hi
  have hQ := hT.queued hF
  have hback : a.writes → p.back ≠ [] := fun ha he => by
    have := hw ha
    simp [(write_none hF.buffer he).1] at this
  obtain ⟨o, b', h', p', P', c, hrun, hcall, hS⟩ := hQ.run cfg (V := w.nodes)
    (by simpa [World.legal, hi] using hl) hback hsp (hc b hi) (fun ha => hQ.flushed (hack ha))
    fun k hk => hT.inv.nodes_eq ▸ (Layout.nodes_perm hF.perm).mem_iff.mpr hk
  have hC := hS.changed hT hF hsp
  obtain ⟨r, hr, ho⟩ := hS.run
  have hq : w.queues[i]? = some (w.heap.queue p) := by
    rw [hT.inv.queues_eq, List.getElem?_map, hF.get]
    rfl
  have hM : Moved w.heap h' l (l.set i (b', p')) P (.act i a) := hS.acted.moved hF ⟨rfl, rfl⟩
  refine ⟨o, _, _, P', World.exec_act.mpr ⟨b, b', h', hi, hrun, rfl⟩, hC.tidy,
    ⟨hS.acted.pins, hM, fun j c q hj hx => ?_, b', p',
      List.getElem?_set_self (List.getElem?_eq_some_iff.mp hF.get).1,
      Act.hands_congr hS.hands (fun _ => (Layout.nodes_perm (hF.set _)).mem_iff.mp)
        fun _ => (Layout.kept_perm (hF.set _)).mem_iff.mp⟩,
    ⟨.call i c, r, by simp [Op.request, hi, hcall], by simp [serve, hq, hr, hC.queues], ho⟩,
    fun j x hj hx => ?_, fun j c q hj hx => ?_, fun j x hj hx hne => ?_⟩
  · by_cases hij : j = i
    · subst hij
      obtain ⟨rfl, rfl⟩ : b = c ∧ p = q := by simpa [hF.get] using hx
      exact ⟨b', p', List.getElem?_set_self (List.getElem?_eq_some_iff.mp hx).1,
        hS.retained (by simpa [World.retains] using hj)⟩
    · obtain ⟨hx', hbare⟩ := hC.others j _ hij hx
      exact ⟨c, q, hx', .of_bare hbare⟩
  · exact hC.others j x (fun he => by simp [Op.uses, he] at hj) hx
  · obtain ⟨rfl, ha⟩ : i = j ∧ a.reads := by simpa [Op.readsFrom] using hj
    obtain ⟨rfl, rfl⟩ : b = c ∧ p = q := by simpa [hF.get] using hx
    exact ⟨b', p', List.getElem?_set_self (List.getElem?_eq_some_iff.mp hx).1, hS.untouched ha⟩
  · by_cases hij : j = i
    · subst hij
      obtain rfl : (b, p) = x := by simpa [hF.get] using hx
      have ha : a ≠ .close := by
        rintro rfl
        simp [Op.shuts] at hj
      exact ⟨_, List.getElem?_set_self (List.getElem?_eq_some_iff.mp hx).1, hS.acted.opens ha hne⟩
    · exact ⟨x, (hC.others j x hij hx).1, hne⟩

theorem Keeps.spared {U : List Nat} {K : List Slice} (hk : Keeps h h' U K P)
    (hU : ∀ k ∈ p.all, k ∈ U) (hm : h'.mem = h.mem) : Spared h h' b p :=
  .of_writes (fun k hkp => hk.node k (hU k hkp)) (fun _ _ _ _ => by rw [hm])
    (fun _ _ _ _ => by rw [hm])
    fun k hkp => hk.sound k (hU k hkp)

theorem Tidy.add (hT : Tidy w l P) (hI : Inv ⟨h', w.bufs ++ [b]⟩ (l ++ [(b, p)]) P)
    (hM : Moved w.heap h' l (l ++ [(b, p)]) P op) (hop : op.splits = false)
    (hs : ∀ x ∈ l, Spared w.heap h' x.1 x.2) (hsd : ∀ k ∈ p.all, Sound h' k) (hc : Cached h' b p) :
    Tidy ⟨h', w.bufs ++ [b]⟩ (l ++ [(b, p)]) P ∧
      World.queues ⟨h', w.bufs ++ [b]⟩ = w.queues ++ [h'.queue p] := by
  refine ⟨⟨hI, hM.unsplit hop hT.unsplit, fun k hk => ?_, fun x hx he => ?_⟩, ?_⟩
  · rw [Layout.nodes_append, List.mem_append] at hk
    rcases hk with hk | hk
    · have hkl := hk
      obtain ⟨x, hx, hk⟩ := List.mem_flatMap.mp hk
      exact (hs x hx).sound k hk (hT.sound k hkl)
    · exact hsd k (by simpa [Layout.nodes] using hk)
  · rcases List.mem_append.mp hx with hx | hx
    · exact (hs x hx).cached (hT.cached x hx he)
    · rw [List.mem_singleton.mp hx]
      exact hc
  · rw [hI.queues_eq, hT.inv.queues_eq, List.map_append,
      List.map_congr_left fun x hx => (hs x hx).queue]
    rfl

theorem Heap.later_eq_nil {C : List Nat} (hC : ∀ k ∈ C, h.ready k = [] ∧ h.pending k = []) :
    h.later C = [] := by
  refine List.eq_nil_iff_forall_not_mem.mpr fun x hx => ?_
  obtain ⟨k, hk, hkx⟩ := Queued.mem_later hx
  simp [hC k hk] at hkx

theorem Tidy.add_new (hT : Tidy w l P) (cfg : Config) (op : Op) (hop : op.splits = false)
    (size : Int) :
    ∃ b h' p, newLinkBuffer w.heap cfg size = (b, h') ∧ Tidy ⟨h', w.bufs ++ [b]⟩ (l ++ [(b, p)]) P ∧
      Moved w.heap h' l (l ++ [(b, p)]) P op ∧
      World.queues ⟨h', w.bufs ++ [b]⟩ = w.queues ++ [⟨[], []⟩] ∧
      (∀ k ∈ l.nodes, (h'.nodes k).bare = (w.heap.nodes k).bare) ∧
      (∀ k ∈ p.all, New w.heap h' k) ∧ p.back ≠ [] ∧ p.spare = [] := by
  obtain ⟨b, h', p', hnew, hI, hM, hN, hend⟩ := hT.inv.add_new cfg op size
  obtain ⟨j, h₁, hnew', -, -, hk, -, hmem, -⟩ := newLinkBuffer_spec hT.inv.safe cfg size
  obtain ⟨rfl, rfl⟩ : h' = h₁ ∧
    b = { head := some j, read := some j, flush := some j, write := some j } := by
    simpa [and_comm] using hnew.symm.trans hnew'
  obtain ⟨hT', hq⟩ := hT.add hI hM hop
    (fun x hx => hk.spared (fun k hk => Layout.mem_nodes (b := x.1) hx hk) hmem)
    (fun k hk r hr => by simp [(hN k hk).origin] at hr) (fun q hq => by cases hq)
  refine ⟨_, h', p', hnew, hT', hM, ?_, hk.node, hN, hend⟩
  have hempty : h'.queue p' = ⟨[], []⟩ := by
    rw [Heap.queue, Heap.content_eq_nil
      fun k hk => (hN k (Parts.mem_all_of_live (Parts.mem_live_of_early hk))).ready,
      Heap.later_eq_nil fun k hk =>
      ⟨(hN k (Parts.mem_all_of_back hk)).ready, (hN k (Parts.mem_all_of_back hk)).pending⟩]
    rfl
  rw [hq, hempty]

variable (cfg) in
theorem Tidy.new {size : Int} (hT : Tidy w l P) :
    ∃ o w' l' P', w.exec cfg (.new size) = some (o, w') ∧ Stepped w w' l l' P P' (.new size) o := by
  obtain ⟨b, h', y, hnew, hT', hM, hq, hbare, -⟩ := hT.add_new cfg (.new size) rfl size
  have hsame : ∀ {j : Nat} {x : LinkBuffer × Parts}, l[j]? = some x →
      (l ++ [(b, y)])[j]? = some x := fun {j x} hx => by
    rw [List.getElem?_append_left (List.getElem?_eq_some_iff.mp hx).1, hx]
  refine ⟨.done, _, _, P, by simp [World.exec, hnew], hT', .add hM hbare trivial,
    ⟨.new, some [], rfl, by simp [serve, hq], by simp [Out.agrees]⟩,
    fun i x _ hx => ⟨hsame hx, fun k hk => ?_⟩, ?_, fun i x _ hx hne => ⟨x, hsame hx, hne⟩⟩
  · exact hbare k (Layout.mem_nodes (b := x.1) (List.mem_of_getElem? hx) hk)
  · intro i b p hr
    cases hr

variable (cfg) in
theorem Tidy.lend {bs : List UInt8} (hT : Tidy w l P) :
    ∃ o w' l' P', w.exec cfg (.lend bs) = some (o, w') ∧ Stepped w w' l l' P P' (.lend bs) o := by
  obtain ⟨o, w', hx⟩ : ∃ o w', w.exec cfg (.lend bs) = some (o, w') := ⟨_, _, rfl⟩
  obtain ⟨hI, hM, hst, hw, hbufs⟩ := lend_inv hT.inv bs hx
  have hnodes : ∀ k, w'.heap.nodes k = w.heap.nodes k := by
    cases hx
    exact fun _ => rfl
  have hs : ∀ x ∈ l, Spared w.heap w'.heap x.1 x.2 := fun x hx => by
    refine .of_writes (fun k _ => by rw [hnodes]) (fun k hk y hy => hw y fun hm => ?_)
      (fun q hq y hy => hw y fun hm => ?_)
      fun k _ hsd r hr => ?_
    · have hkl := Layout.mem_nodes (b := x.1) hx hk
      have hl : Loose w.heap [] [] y := .inl hm
      exact hT.inv.safe.not_loose hkl (hT.sound k hkl) ((hT.inv.buffer x hx).rep.fit k hk) hy
        (by simp) (by simp) hl
    · have hqk : { q with len := 0 } ∈ l.kept :=
        List.mem_flatMap.mpr ⟨x, hx, by simp [LinkBuffer.kept, hq]⟩
      exact (Owner.held_ne (hT.inv.safe.counted.cache _ hqk).2.2).1 (hy ▸ hm)
    · rw [hnodes] at hr ⊢
      exact (hsd r hr).imp_right (hst.lent _)
  have hagree : o.agrees w'.heap (some bs) := by
    cases hx
    simp [Out.agrees, Heap.bytes, Heap.copy]
  refine ⟨o, w', l, P, hx, ⟨hI, hM.unsplit rfl hT.unsplit, fun k hk => ?_,
    fun x hx he => (hs x hx).cached (hT.cached x hx he)⟩,
    ⟨fun _ => id, hM, fun i b p _ hx => ⟨b, p, hx, .of_bare fun k _ => by rw [hnodes]⟩, trivial⟩,
    ⟨.outside bs, some bs, rfl, ?_, hagree⟩,
    fun i x _ hx => ⟨hx, fun k _ => by rw [hnodes]⟩, ?_, fun i x _ hx hne => ⟨x, hx, hne⟩⟩
  · have hkl := hk
    obtain ⟨x, hx, hk⟩ := List.mem_flatMap.mp hk
    exact (hs x hx).sound k hk (hT.sound k hkl)
  · rw [serve, hI.queues_eq, hT.inv.queues_eq, List.map_congr_left fun x hx => (hs x hx).queue]
  · intro i b p hr
    cases hr

theorem len_pos_of_taken {L : List Nat} (hk : k ∈ taken h L n) : 0 < (h.nodes k).len := by
  induction L generalizing n with
  | nil => cases hk
  | cons j L ih =>
    simp only [taken] at hk
    split_ifs at hk with hn hl
    · cases hk
    · exact ih hk
    · rcases List.mem_cons.mp hk with rfl | hk
      · omega
      · exact ih hk

theorem Tidy.based (hT : Tidy w l P) (hF : Focus w l rest i b p P) :
    ∀ k ∈ taken w.heap p.early n, Based w.heap k := by
  intro k hk
  have hpos := len_pos_of_taken hk
  have hka := Parts.mem_all_of_live (Parts.mem_live_of_early (mem_of_mem_taken hk))
  have hkl := Layout.mem_nodes (List.mem_of_getElem? hF.get) hka
  have hfit := (hF.buffer.rep.fit k hka).len
  rw [Node.len] at hpos
  cases ho : (w.heap.nodes k).origin with
  | some r => simpa [Based, ho] using hT.sound k hkl r ho
  | none =>
    cases hro : (w.heap.nodes k).readonly with
    | false => exact .inl (by simpa [ho] using hro)
    | true => exact .inr (by simpa [ho] using hT.unsplit k hkl ⟨ho, hro, by omega⟩)

theorem SlicePost.queue_eq {rd : LinkBuffer} {X U : List Nat} {K : List Slice}
    (hp : SlicePost h h' b b' rd p p' X n U K P) :
    h'.queue p' = ⟨(h.queue p).ready.drop n, (h.queue p).staged⟩ ∧
      h'.queue ⟨[], X, [], []⟩ = ⟨(h.queue p).ready.take n, []⟩ := by
  have hlook : ∀ l, h'.look l = h.look l := fun l => by rw [Heap.look, Heap.look, hp.mem]
  constructor
  · simp only [Heap.queue, hp.readable, hp.later, hlook]
    simp only [Heap.look, Memory.look_drop]
  · simp only [Heap.queue, Parts.early, List.take_nil, List.append_nil, hp.content, hlook,
      Heap.later_nil]
    simp only [Heap.look, Memory.look_take, Memory.look_nil]

theorem SlicePost.tidy {rd : LinkBuffer} {X : List Nat} (hT : Tidy w l P)
    (hF : Focus w l rest i b p P) (htake : b.takeSlice w.heap cfg n = some (rd, b', h'))
    (hpos : 0 < n) (hp : SlicePost w.heap h' b b' rd p p' X n rest.nodes rest.kept P) :
    Tidy ⟨h', w.bufs.set i b' ++ [rd]⟩ (l.set i (b', p') ++ [(rd, ⟨[], X, [], []⟩)]) P ∧
      World.queues ⟨h', w.bufs.set i b' ++ [rd]⟩ =
        w.queues.set i ⟨(w.heap.queue p).ready.drop n, (w.heap.queue p).staged⟩ ++
          [⟨(w.heap.queue p).ready.take n, []⟩] := by
  have hQ := hT.queued hF
  have hI := hp.inv hF hT.inv
  have hM := hp.moved (j := i) (m := n) hF
  have hspared : ∀ x ∈ rest, Spared w.heap h' x.1 x.2 := fun x hx =>
    hp.keeps.spared (fun k hk => Layout.mem_nodes (b := x.1) hx hk) hp.mem
  have hrest : ∀ x ∈ rest, x ∈ l := fun x hx => hF.perm.mem_iff.mpr (by simp [hx])
  have hmem : ∀ x ∈ l.set i (b', p') ++ [(rd, ⟨[], X, [], []⟩)],
      x = (b', p') ∨ x ∈ rest ∨ x = (rd, ⟨[], X, [], []⟩) := fun x hx => by
    rcases List.mem_append.mp hx with hx | hx
    · exact (List.mem_cons.mp ((hF.set _).mem_iff.mp hx)).imp_right .inl
    · exact .inr (.inr (List.mem_singleton.mp hx))
  obtain ⟨hq, hX⟩ := hp.queue_eq
  refine ⟨⟨hI, hM.unsplit rfl hT.unsplit, fun k hk => ?_, fun x hx he => ?_⟩, ?_⟩
  · obtain ⟨x, hx, hk⟩ := List.mem_flatMap.mp hk
    rcases hmem x hx with rfl | hx | rfl
    · have hka := (hp.sameBuf k hk).1
      exact takeSlice_sound htake hF.safe hp.safe hp.keeps.later.lent (List.mem_append_left _ hka)
        (List.mem_append_left _ hk) (hQ.sound k hka)
    · exact (hspared x hx).sound k hk (hT.sound k (Layout.mem_nodes (b := x.1) (hrest x hx) hk))
    · exact hp.sound (hT.based hF) k (by simpa [Parts.all] using hk)
  · rcases hmem x hx with rfl | hx | rfl
    · exact .spent (takeSlice_cachePeek hpos htake)
    · exact (hspared x hx).cached (hT.cached x (hrest x hx) he)
    · intro q hq
      have := hp.kept
      simp [LinkBuffer.kept, show rd.cachePeek = some q from hq] at this
  · rw [hI.queues_eq, hT.inv.queues_eq, List.map_append, ← hq, ← hX]
    congr 1
    exact map_set_eq fun j x hj hx => (hspared x (hF.others hj hx)).queue

variable (cfg) in
theorem Tidy.slice (hT : Tidy w l P) (hop : w.Orderly (.slice i m)) :
    ∃ o w' l' P', w.exec cfg (.slice i m) = some (o, w') ∧
      Stepped w w' l l' P P' (.slice i m) o := by
  obtain ⟨b, hi⟩ : ∃ b, w.bufs[i]? = some b := Option.isSome_iff_exists.mp hop.2.2.2.1
  have hm : b.Modest w.heap m := hop.2.1 b hi
  obtain ⟨p, rest, hF⟩ := hT.inv.focus hi
  have hQ := hT.queued hF
  have hq : w.queues[i]? = some (w.heap.queue p) := by
    rw [hT.inv.queues_eq, List.getElem?_map, hF.get]
    rfl
  have hlen : ((w.heap.queue p).ready.length : Int) ≤ b.length := by
    simpa [Heap.queue] using hQ.length_le
  by_cases h0 : m ≤ 0
  · obtain ⟨rd, h', y, hnew, hT', hM, hqs, hbare, -⟩ := hT.add_new cfg (.slice i m) rfl 0
    have hsame : ∀ {j : Nat} {x : LinkBuffer × Parts}, l[j]? = some x →
      (l ++ [(rd, y)])[j]? = some x ∧
        ∀ k ∈ x.2.all, (h'.nodes k).bare = (w.heap.nodes k).bare := fun {j x} hx =>
      ⟨by rw [List.getElem?_append_left (List.getElem?_eq_some_iff.mp hx).1, hx],
        fun k hk => hbare k (Layout.mem_nodes (b := x.1) (List.mem_of_getElem? hx) hk)⟩
    refine ⟨.done, _, _, P, by simp [World.exec, hi, LinkBuffer.slice, h0, hnew, set_self hi], hT',
      .add hM hbare trivial, ⟨.split i m, some [], rfl, ?_, by simp [Out.agrees]⟩,
      fun j x _ hx => hsame hx,
      fun j c q _ hx =>
        ⟨c, q, (hsame hx).1, rfl, rfl,
          Heap.later_bare fun k hk => (hsame hx).2 k (Parts.mem_all_of_back hk), fun k hk => ?_⟩,
      fun j x _ hx hne => ⟨x, (hsame hx).1, hne⟩⟩
    · have hle : m ≤ (w.heap.queue p).ready.length := by omega
      simp [serve, hq, hle, Int.toNat_of_nonpos h0, set_self hq, hqs]
    · have hb := (hsame hx).2 k (Parts.mem_all_of_back hk)
      exact ⟨.of_bare hb, (Node.Like.of_bare hb).readonly⟩
  · by_cases hlt : b.length < m
    · refine ⟨.error s!"link buffer readv[{m}] not enough", w, l, P, ?_, hT, .refl trivial,
        ⟨.split i m, none, rfl, ?_, rfl⟩, fun _ _ _ hx => ⟨hx, fun _ _ => rfl⟩,
        fun j c q _ hx => ⟨c, q, hx, .of_nodes rfl⟩, fun j x _ hx hne => ⟨x, hx, hne⟩⟩
      · simp [World.exec, hi, LinkBuffer.slice, h0, hlt, set_self hi]
      · have hle : ¬ m ≤ (w.heap.queue p).ready.length := by omega
        simp [serve, hq, hle]
    · obtain ⟨n, rfl⟩ : ∃ n : Nat, m = n := ⟨m.toNat, by omega⟩
      have hn : n ≤ (w.heap.content p.early).length := by
        have hn := hm (by omega)
        rw [hF.buffer.readable_eq hF.safe] at hn
        omega
      obtain ⟨rd, b', h', p', X, htake, hp⟩ :=
        takeSlice_spec cfg hF.buffer hF.safe hF.viewed (n := n) (by omega) hn
      obtain ⟨hT', hqs⟩ := hp.tidy hT hF htake (by omega)
      have hle : n ≤ (w.heap.queue p).ready.length := by simpa [Heap.queue] using hn
      have hlt' : ∀ {j x}, l[j]? = some x → j < (l.set i (b', p')).length := fun hx => by
        simpa using (List.getElem?_eq_some_iff.mp hx).1
      refine ⟨.done, _, _, P, ?_, hT', ⟨fun _ => id, hp.moved hF, fun j c q hj hx => ?_, trivial⟩,
        ⟨.split i n, some [], rfl, by simp [serve, hq, hle, hqs], by simp [Out.agrees]⟩,
        fun j x hj hx => ⟨?_, fun k hk => ?_⟩,
        fun j c q hj hx => ⟨b', p', ?_, ?_⟩, fun j x hj hx hne => ?_⟩
      · have hn0 : n ≠ 0 := by omega
        simp [World.exec, hi, LinkBuffer.slice, hn0, hlt, htake]
      · by_cases hij : i = j
        · subst hij
          obtain ⟨rfl, rfl⟩ : b = c ∧ p = q := by simpa [hF.get] using hx
          refine ⟨b', p', ?_, hp.retained ?_⟩
          · rw [List.getElem?_append_left (hlt' hx),
              List.getElem?_set_self (List.getElem?_eq_some_iff.mp hx).1]
          · simpa [World.retains, hi, show n ≠ 0 by omega] using hj
        · refine ⟨c, q, ?_, .of_bare fun k hk =>
            hp.keeps.node k (Layout.mem_nodes (hF.others (Ne.symm hij) hx) hk)⟩
          rw [List.getElem?_append_left (hlt' hx), List.getElem?_set_ne hij, hx]
      · have hij : i ≠ j := by simpa [Op.uses] using hj
        rw [List.getElem?_append_left (hlt' hx), List.getElem?_set_ne hij, hx]
      · have hij : j ≠ i := fun he => by simp [Op.uses, he] at hj
        exact hp.keeps.node k (Layout.mem_nodes (b := x.1) (hF.others hij hx) hk)
      · obtain rfl : i = j := by simpa [Op.readsFrom] using hj
        rw [List.getElem?_append_left (hlt' hx),
          List.getElem?_set_self (List.getElem?_eq_some_iff.mp hx).1]
      · obtain rfl : i = j := by simpa [Op.readsFrom] using hj
        obtain ⟨rfl, rfl⟩ : b = c ∧ p = q := by simpa [hF.get] using hx
        refine ⟨hp.back, hp.spare, hp.back ▸ hp.later, fun k hk => ?_⟩
        obtain ⟨-, hsame, hlike⟩ := hp.sameBuf k (Parts.mem_all_of_back (hp.back ▸ hk))
        exact ⟨hsame, hlike.readonly⟩
      · by_cases hij : i = j
        · subst hij
          obtain rfl : (b, p) = x := by simpa [hF.get] using hx
          exact ⟨(b', p'), by rw [List.getElem?_append_left (hlt' hx),
            List.getElem?_set_self (List.getElem?_eq_some_iff.mp hx).1], hp.back ▸ hne⟩
        · exact ⟨x, by rw [List.getElem?_append_left (hlt' hx), List.getElem?_set_ne hij, hx], hne⟩

theorem writeBuffer_cachePeek {buf buf' : LinkBuffer} (hlen : 0 ≤ buf.length)
    (hwb : b.writeBuffer buf h = some (b', buf', h')) : b'.cachePeek = b.cachePeek := by
  by_cases h0 : buf.length + buf.mallocSize ≤ 0
  · simp only [LinkBuffer.writeBuffer, if_pos h0, Option.some.injEq, Prod.mk.injEq] at hwb
    rw [hwb.1]
  · simp only [LinkBuffer.writeBuffer, if_neg h0, Option.bind_eq_bind] at hwb
    obtain ⟨i, -, hwb⟩ := Option.bind_eq_some_iff.mp hwb
    obtain ⟨h₁, -, hwb⟩ := Option.bind_eq_some_iff.mp hwb
    obtain ⟨j, -, hwb⟩ := Option.bind_eq_some_iff.mp hwb
    obtain ⟨h₂, -, hwb⟩ := Option.bind_eq_some_iff.mp hwb
    simp only [Option.pure_def, Option.some.injEq, Prod.mk.injEq] at hwb
    rw [← hwb.1]
    by_cases hpos : 0 < buf.length <;> simp [LinkBuffer.recalLen, hpos, hlen]

theorem Pair.others {buf : LinkBuffer} {q : Parts} {x : LinkBuffer × Parts}
    (hP : Pair w l rest i j b buf p q P) (hi : k ≠ i) (hj : k ≠ j) (hk : l[k]? = some x) :
    x ∈ rest := by
  have hne : x ≠ ({ x.1 with length := x.1.length + 1 }, x.2) := fun he => by
    have := congrArg (fun y : LinkBuffer × Parts => y.1.length) he
    simp only at this
    omega
  have hget : ((l.set i ({ x.1 with length := x.1.length + 1 }, x.2)).set j
      ({ x.1 with length := x.1.length + 1 }, x.2))[k]? = some x := by
    rw [List.getElem?_set_ne hj.symm, List.getElem?_set_ne hi.symm, hk]
  simpa [hne] using (hP.sets _ _).mem_iff.mp (List.mem_of_getElem? hget)

theorem AppendPost.tidy {buf buf' : LinkBuffer} {q : Parts} (hT : Tidy w l P)
    (hP : Pair w l rest i j b buf p q P) (hij : i ≠ j) (hback : p.back ≠ [])
    (hwb : b.writeBuffer buf w.heap = some (b', buf', h'))
    (hA : AppendPost w.heap h' b b' buf buf' p q p' rest.nodes rest.kept P) :
    Tidy ⟨h', (w.bufs.set i b').set j buf'⟩ ((l.set i (b', p')).set j (buf', .none)) P ∧
      World.queues ⟨h', (w.bufs.set i b').set j buf'⟩ = (w.queues.set i
        ⟨(w.heap.queue p).ready,
          (w.heap.queue p).staged ++ ((w.heap.queue q).ready ++ (w.heap.queue q).staged)⟩).set j
          ⟨[], []⟩ := by
  have hI := hA.inv hP hT.inv
  have hspared : ∀ x ∈ rest, Spared w.heap h' x.1 x.2 := fun x hx =>
    hA.keeps.spared (fun k hk => Layout.mem_nodes (b := x.1) hx hk) hA.mem
  have hrest : ∀ x ∈ rest, x ∈ l := fun x hx => hP.perm.mem_iff.mpr (by simp [hx])
  have hmem : ∀ x ∈ (l.set i (b', p')).set j (buf', .none), x = (b', p') ∨ x = (buf', .none) ∨
    x ∈ rest :=
    fun x hx => (List.mem_cons.mp ((hP.sets _ _).mem_iff.mp hx)).imp_right List.mem_cons.mp
  have hlook : ∀ l, h'.look l = w.heap.look l := fun l => by rw [Heap.look, Heap.look, hA.mem]
  have hback' : p'.back ≠ [] := by simp [hA.parts, hback]
  have hlen : 0 ≤ buf.length := by
    rw [hP.donor.length]
    exact Int.natCast_nonneg _
  have hqueue : h'.queue p' = ⟨(w.heap.queue p).ready,
      (w.heap.queue p).staged ++ ((w.heap.queue q).ready ++ (w.heap.queue q).staged)⟩ := by
    simp only [Heap.queue, hA.readable, hA.later, hlook, Heap.look_append]
  refine ⟨⟨hI, (hA.moved hP hback).unsplit rfl hT.unsplit, fun k hk => ?_, fun x hx he => ?_⟩, ?_⟩
  · obtain ⟨x, hx, hk⟩ := List.mem_flatMap.mp hk
    rcases hmem x hx with rfl | rfl | hx
    · exact Queued.plain_sound hA.buffer hback' k hk
    · cases hk
    · exact (hspared x hx).sound k hk (hT.sound k (Layout.mem_nodes (b := x.1) (hrest x hx) hk))
  · rcases hmem x hx with rfl | rfl | hx
    · refine (hT.cached _ (List.mem_of_getElem? hP.left) (Queued.all_ne_nil hback)).grow
        (writeBuffer_cachePeek hlen hwb) (fun s _ => by rw [Heap.bytes, Heap.bytes, hA.mem]) ?_
      rw [hA.readable, hlook]
    · exact absurd rfl he
    · exact (hspared x hx).cached (hT.cached x (hrest x hx) he)
  · rw [hI.queues_eq, hT.inv.queues_eq, ← hqueue]
    refine List.ext_getElem? fun k => ?_
    by_cases hkj : k = j
    · subst hkj
      by_cases hlt : k < l.length <;> simp [hlt, Heap.queue, Parts.none, Parts.early]
    · by_cases hki : k = i
      · subst hki
        by_cases hlt : k < l.length <;> simp [hlt, Ne.symm hkj]
      · simp only [List.getElem?_map, List.getElem?_set_ne (Ne.symm hkj),
          List.getElem?_set_ne (Ne.symm hki)]
        cases hx : l[k]? with
        | none => rfl
        | some x => simp [(hspared x (hP.others hki hkj hx)).queue]

variable (cfg) in
theorem Tidy.append (hT : Tidy w l P) (hop : w.Orderly (.append i j)) :
    ∃ o w' l' P', w.exec cfg (.append i j) = some (o, w') ∧ Stepped w w' l l' P P'
      (.append i j) o := by
  obtain ⟨hij, -, -, hopen, -⟩ := hop
  have hij : i ≠ j := by simpa [World.legal] using hij
  obtain ⟨b, buf, hi, hj, hw⟩ : ∃ b buf, w.bufs[i]? = some b ∧ w.bufs[j]? = some buf ∧
      (buf.length + buf.mallocSize ≤ 0 ∨ b.write.isSome ∧ buf.write.isSome) := by
    cases hb : w.bufs[i]? with
    | none => simp [World.opens, hb] at hopen
    | some b =>
      cases hbuf : w.bufs[j]? with
      | none => simp [World.opens, hb, hbuf] at hopen
      | some buf => exact ⟨b, buf, rfl, rfl, by simpa [World.opens, hb, hbuf] using hopen⟩
  obtain ⟨p, q, rest, hP⟩ := hT.inv.pair hij hi hj
  have hqi : w.queues[i]? = some (w.heap.queue p) := by
    rw [hT.inv.queues_eq, List.getElem?_map, hP.left]
    rfl
  have hqj : w.queues[j]? = some (w.heap.queue q) := by
    rw [hT.inv.queues_eq, List.getElem?_map, hP.right]
    rfl
  by_cases h0 : buf.length + buf.mallocSize ≤ 0
  · have hempty : w.heap.queue q = ⟨[], []⟩ := by
      have hnil := hT.inv.holds_nil hj h0
      rw [LinkBuffer.holds, Heap.look_append, List.append_eq_nil_iff] at hnil
      rw [← hT.inv.queue_eq (List.mem_of_getElem? hP.right), LinkBuffer.queue, hnil.1, hnil.2]
    refine ⟨.done, w, l,
      P, by
      simp [World.exec, hi, hj, LinkBuffer.writeBuffer, h0, set_self hi, set_self hj], hT,
        .refl trivial,
        ⟨.append i j, some [], rfl, ?_, by simp [Out.agrees]⟩, fun _ _ _ hx => ⟨hx, fun _ _ => rfl⟩,
        ?_, fun j x _ hx hne => ⟨x, hx, hne⟩⟩
    · simp [serve, hqi, hqj, hempty, set_self hqi, set_self (hempty ▸ hqj)]
    · intro k c q hr
      cases hr
  · have hw := hw.resolve_left h0
    have hback : p.back ≠ [] := hP.buffer.write_ne_none.mp (Option.isSome_iff_ne_none.mp hw.1)
    have hqb : q.back ≠ [] := hP.donor.write_ne_none.mp (Option.isSome_iff_ne_none.mp hw.2)
    obtain ⟨b', buf', h', p', hwb, hA⟩ :=
      writeBuffer_spec hP.buffer hP.donor hP.safe hP.viewed hback hqb (Int.not_le.mp h0)
    obtain ⟨hT', hqs⟩ := hA.tidy hT hP hij hback hwb
    have hlen : 0 ≤ buf.length := by
      rw [hP.donor.length]
      exact Int.natCast_nonneg _
    refine ⟨.done, _, _, P, by simp [World.exec, hi, hj, hwb], hT',
      ⟨fun _ => id, hA.moved hP hback, fun k c x hk hx => ?_, trivial⟩,
      ⟨.append i j, some [], rfl, by simp [serve, hqi, hqj, hqs], by simp [Out.agrees]⟩,
      fun k x hk hx => ?_, ?_, fun k x hk hx hne => ?_⟩
    · have hjk : j ≠ k := by simpa [World.retains, hj, h0] using hk
      rw [List.getElem?_set_ne hjk]
      by_cases hik : i = k
      · subst hik
        obtain ⟨rfl, rfl⟩ : b = c ∧ p = x := by simpa [hP.left] using hx
        have hcs := LinkBuffer.caches_eq hA.kept (writeBuffer_cachePeek hlen hwb)
        refine ⟨_, _, List.getElem?_set_self (List.getElem?_eq_some_iff.mp hx).1,
          fun n hn => ?_, hcs ▸ List.prefix_rfl⟩
        have hn' : n ∈ p'.used := by
          simp only [hA.parts, Parts.used, List.mem_append] at hn ⊢
          tauto
        exact ⟨hn', (hA.nodes n (Parts.mem_all_of_used hn')).2.like⟩
      · refine ⟨c, x, by rw [List.getElem?_set_ne hik, hx], .of_bare fun n hn => ?_⟩
        exact hA.keeps.node n (Layout.mem_nodes (hP.others (Ne.symm hik) hjk.symm hx) hn)
    · obtain ⟨hik, hjk⟩ : i ≠ k ∧ j ≠ k := by simpa [Op.uses] using hk
      exact ⟨by rw [List.getElem?_set_ne hjk, List.getElem?_set_ne hik, hx], fun n hn =>
        hA.keeps.node n (Layout.mem_nodes (b := x.1) (hP.others hik.symm hjk.symm hx) hn)⟩
    · intro k c q hr
      cases hr
    · have hjk : j ≠ k := by simpa [Op.shuts] using hk
      rw [List.getElem?_set_ne hjk]
      by_cases hik : i = k
      · subst hik
        exact ⟨_, List.getElem?_set_self (List.getElem?_eq_some_iff.mp hx).1, by
          simp [hA.parts, hback]⟩
      · exact ⟨x, by rw [List.getElem?_set_ne hik, hx], hne⟩

variable (cfg) in
theorem Tidy.step (hT : Tidy w l P) (hop : w.Orderly op) :
    ∃ o w' l' P', w.exec cfg op = some (o, w') ∧ Stepped w w' l l' P P' op o := by
  cases op with
  | new size => exact hT.new cfg
  | lend bs => exact hT.lend cfg
  | act i a => exact hT.act cfg hop
  | slice i m => exact hT.slice cfg hop
  | append i j => exact hT.append cfg hop

theorem Tidy.start (mem : Nat → Nat → UInt8) (picks : Nat → Nat) :
    Tidy (World.start mem picks) [] fun _ => False where
  inv := .start mem picks
  unsplit := by simp [Unsplit, Layout.nodes]
  sound := by simp [Layout.nodes]
  cached := by simp

theorem tidy_run (hw : Reach (World.step cfg) World.Orderly (World.start mem picks) w) :
    ∃ l P, Tidy w l P := by
  refine hw.invariant (I := fun w => ∃ l P, Tidy w l P) ⟨[], _, .start mem picks⟩ ?_
  rintro w op w' ⟨l, P, hT⟩ hop hs
  obtain ⟨o, w₁, l', P', hx, hS⟩ := hT.step cfg hop
  rw [World.step, hx, Option.map_some, Option.some.injEq] at hs
  exact ⟨l', P', hs ▸ hS.tidy⟩

/-- In every run each call is one on a queue of bytes, for all buffers and readers at once: it does
not fail, returns what the queue returns, and leaves the other queues; `Len` and `MallocLen`
together count what is in the two parts. -/
theorem queues_refined (hw : Reach (World.step cfg) World.Orderly (World.start mem picks) w) :
    (∀ b ∈ w.bufs, (b.queue w.heap).ready.length ≤ b.length ∧
        b.length + b.mallocSize = (b.queue w.heap).ready.length + (b.queue w.heap).staged.length) ∧
      ∀ op, w.Orderly op → ∃ o w' q r, w.exec cfg op = some (o, w') ∧ op.request w w' o = some q ∧
        serve w.queues q = some (r, w'.queues) ∧ o.agrees w'.heap r := by
  obtain ⟨l, P, hT⟩ := tidy_run hw
  refine ⟨fun b hb => ?_, fun op hop => ?_⟩
  · obtain ⟨i, hi⟩ := List.mem_iff_getElem?.mp hb
    obtain ⟨p, rest, hF⟩ := hT.inv.focus hi
    have hQ := hT.queued hF
    have hlen := hF.buffer.length_holds hF.safe
    rw [LinkBuffer.holds, Heap.look_append, List.length_append] at hlen
    refine ⟨?_, by simpa [LinkBuffer.queue] using hlen⟩
    rw [hQ.queue_eq]
    simpa [Heap.queue] using hQ.length_le
  · obtain ⟨o, w', l', P', hx, hS⟩ := hT.step cfg hop
    obtain ⟨q, r, hq, hs, ho⟩ := hS.served
    exact ⟨o, w', q, r, hx, hq, hs, ho⟩

theorem queues_refined_reader : ∃ w o w' r, World.after World.Orderly
      [.new 1, .new 1, .act 1 (.malloc 2), .act 1 (.fill (1, 1) 7), .act 1 .flush,
        .act 0 (.writeByte 5), .append 0 1, .act 0 .flush, .slice 0 3, .act 0 .close] = some w ∧
    w.exec .small (.act 2 (.next 2)) = some (o, w') ∧
    w.queues = [⟨[], []⟩, ⟨[], []⟩, ⟨[5, 0, 7], []⟩] ∧ serve w.queues
      (.call 2 (.take 2)) = some (r, w'.queues) ∧ o.agrees w'.heap r := by
  obtain ⟨w, b, hw, hb, hop, hq⟩ : ∃ w b, World.after World.Orderly
      [.new 1, .new 1, .act 1 (.malloc 2), .act 1 (.fill (1, 1) 7), .act 1 .flush,
        .act 0 (.writeByte 5), .append 0 1, .act 0 .flush, .slice 0 3, .act 0 .close] = some w ∧
      w.bufs[2]? = some b ∧ w.Orderly (.act 2 (.next 2)) ∧
      w.queues = [⟨[], []⟩, ⟨[], []⟩, ⟨[5, 0, 7], []⟩] :=
    ⟨_, _, rfl, rfl, by decide, rfl⟩
  obtain ⟨o, w', q, r, hx, hreq, hs, ho⟩ := (queues_refined (World.reach_of_after hw)).2 _ hop
  obtain rfl : .call 2 (.take 2) = q := by simpa [Op.request, hb, Act.call] using hreq
  exact ⟨w, o, w', r, hw, hx, hq, hs, ho⟩

theorem World.Plain.orderly (hI : Inv w l P) (hl : l.Idle w.heap) (hu : Unsplit w.heap l.nodes)
    (hop : w.Plain op) : w.Orderly op := by
  refine ⟨hop.1.1, hop.1.careful hI hl hu, hop.1.2.1, hop.2, ?_⟩
  cases op with
  | act i a =>
    cases hi : w.bufs[i]? with
    | none => simp [World.settled, hi]
    | some b =>
      obtain ⟨p, rest, hF⟩ := hI.focus hi
      have hflushed := hl.flushed _ (List.mem_of_getElem? hF.get)
      simp [World.settled, hi, hF.buffer.readable_eq hF.safe, hF.buffer.length, Parts.content_live,
        hflushed]
  | _ => rfl

theorem plain_run (hw : Reach (World.step cfg) World.Plain (World.start mem picks) w) :
    ∃ l, Inv w l (fun _ => False) ∧ l.Idle w.heap ∧ Unsplit w.heap l.nodes :=
  trimming_run (hw.mono fun _ _ _ hop => hop.1)

theorem plain_counts (hw : Reach (World.step cfg) World.Plain (World.start mem picks) w)
    (hb : b ∈ w.bufs) : b.length = (b.queue w.heap).ready.length ∧
      b.mallocSize = (b.queue w.heap).staged.length := by
  obtain ⟨l, hI, hidle, -⟩ := plain_run hw
  obtain ⟨i, hi⟩ := List.mem_iff_getElem?.mp hb
  obtain ⟨p, rest, hF⟩ := hI.focus hi
  have hflushed := hidle.flushed _ (List.mem_of_getElem? hF.get)
  rw [hI.queue_eq (List.mem_of_getElem? hF.get), Heap.queue, Heap.later_eq_unflushed hflushed]
  exact ⟨by simp [hF.buffer.length, Parts.content_live, hflushed], by
    simp [hF.buffer.mallocSize_eq]⟩

theorem plain_step (hw : Reach (World.step cfg) World.Plain (World.start mem picks) w)
    (hop : w.Plain op) : ∃ o w' q r, w.exec cfg op = some (o, w') ∧ op.request w w' o = some q ∧
      serve w.queues q = some (r, w'.queues) ∧ o.agrees w'.heap r := by
  obtain ⟨l₀, hI, hidle, hunsplit⟩ := plain_run hw
  obtain ⟨l, P, hT⟩ := tidy_run (hw.mono fun w op hw hop => by
    obtain ⟨l, hI, hidle, hunsplit⟩ := plain_run hw
    exact hop.orderly hI hidle hunsplit)
  obtain ⟨o, w', l', P', hx, hS⟩ := hT.step cfg (hop.orderly hI hidle hunsplit)
  obtain ⟨q, r, hq, hs, ho⟩ := hS.served
  exact ⟨o, w', q, r, hx, hq, hs, ho⟩

/-- Without `WriteBuffer` every call with what it needs can be served, and `Len` and `MallocLen`
count the two parts of the queue. -/
theorem plain_served (hw : Reach (World.step cfg) World.Plain (World.start mem picks) w) :
    (∀ b ∈ w.bufs, b.length = (b.queue w.heap).ready.length ∧
      b.mallocSize = (b.queue w.heap).staged.length) ∧ ∀ op, w.Plain op → ∃ o w' q r,
      w.exec cfg op = some (o, w') ∧ op.request w w' o = some q ∧
        serve w.queues q = some (r, w'.queues) ∧ o.agrees w'.heap r :=
  ⟨fun _ hb => plain_counts hw hb, fun _ hop => plain_step hw hop⟩

theorem plain_served_reader : ∃ w o w' r, World.after World.Plain
      [.new 1, .act 0 (.malloc 3), .act 0 (.mallocAck 2), .act 0 (.fill (0, 1) 7), .act 0 .flush,
        .act 0 (.writeByte 5)] = some w ∧
    w.exec .small (.slice 0 2) = some (o, w') ∧ w.queues = [⟨[0, 7], [5]⟩] ∧
    serve w.queues (.split 0 2) = some (r, w'.queues) ∧ o.agrees w'.heap r := by
  obtain ⟨w, hw, hop, hq⟩ : ∃ w, World.after World.Plain
      [.new 1, .act 0 (.malloc 3), .act 0 (.mallocAck 2), .act 0 (.fill (0, 1) 7), .act 0 .flush,
        .act 0 (.writeByte 5)] = some w ∧ w.Plain (.slice 0 2) ∧ w.queues = [⟨[0, 7], [5]⟩] :=
    ⟨_, rfl, by decide, rfl⟩
  obtain ⟨o, w', q, r, hx, hreq, hs, ho⟩ := (plain_served (World.reach_of_after hw)).2 _ hop
  obtain rfl : .split 0 2 = q := by simpa [Op.request] using hreq
  exact ⟨w, o, w', r, hw, hx, hq, hs, ho⟩

namespace World

def sliced (w w' : World) : List UInt8 :=
  (w'.bufs[w.bufs.length]?).elim [] fun rd => w'.heap.look (rd.readable w'.heap)

def flushes (w : World) (i : Nat) (w' : World) : Op → List UInt8
  | .act j .flush => if j = i then (w.bufs[j]?).elim [] fun b =>
    w.heap.look (b.coming w.heap) else []
  | .slice _ _ => if i = w.bufs.length then w.sliced w' else []
  | _ => []

def reads (w : World) (i : Nat) (o : Out) (w' : World) : Op → List UInt8
  | .act j (.next _) | .act j (.readBinary _) | .act j (.readString _) | .act j .readByte
  | .act j (.readUntil _) => if j = i then o.content w'.heap else []
  | .act j (.skip n) =>
    if j = i ∧ o = .done then (w.bufs[j]?).elim
      [] fun b => (w.heap.look (b.readable w.heap)).take n.toNat else []
  | .slice j _ => if j = i then w.sliced w' else []
  | .append _ j => if j = i then (w.bufs[j]?).elim [] fun b =>
    w.heap.look (b.readable w.heap) else []
  | _ => []

/-- A run in which buffer `i` is not closed: `sent` has become readable in it, and `got` has been
read. -/
inductive Delivers (cfg : Config) (i : Nat) : World → List UInt8 → List UInt8 → Prop
  | start (mem : Nat → Nat → UInt8) (picks : Nat → Nat) : Delivers cfg i (start mem picks) [] []
  | step {w w' : World} {o : Out} {sent got : List UInt8} (op : Op) :
      Delivers cfg i w sent got → w.Orderly op → op ≠ .act i .close → w.exec cfg op = some (o, w') →
      Delivers cfg i w' (sent ++ w.flushes i w' op) (got ++ w.reads i o w' op)

theorem queues_get (w : World) (j : Nat) : w.queues[j]? = (w.bufs[j]?).map (·.queue w.heap) :=
  List.getElem?_map ..

theorem length_queues (w : World) : w.queues.length = w.bufs.length := List.length_map _

theorem sliced_eq (w w' : World) :
    w.sliced w' = (w'.queues[w.queues.length]?).elim [] (·.ready) := by
  rw [sliced, queues_get, length_queues]
  cases w'.bufs[w.bufs.length]? <;> rfl

end World

section

variable {q : Request UInt8} {r : Option (List UInt8)}

theorem sliced_front (hs : serve w.queues (.split j m) = some (r, w'.queues)) :
    w.sliced w' = (w.queues[j]?).elim [] (·.front m) := by
  obtain ⟨x, hx, hs⟩ := Option.bind_eq_some_iff.mp hs
  rw [World.sliced_eq, hx, Option.elim_some, Queue.front]
  by_cases hm : m ≤ x.ready.length
  · simp only [if_pos hm, Option.pure_def, Option.some.injEq, Prod.mk.injEq] at hs ⊢
    simp [← hs.2]
  · simp only [if_neg hm, Option.pure_def, Option.some.injEq, Prod.mk.injEq] at hs ⊢
    simp [← hs.2]

theorem flushes_eq (hq : op.request w w' o = some q) (hs : serve w.queues q = some (r, w'.queues)) :
    w.flushes i w' op = commits w.queues i q := by
  cases op with
  | new size =>
    cases hq
    rfl
  | lend bs =>
    cases hq
    rfl
  | slice j m =>
    cases hq
    rw [World.flushes, commits, sliced_front hs, w.length_queues]
  | append j k =>
    cases hq
    rfl
  | act j a =>
    obtain ⟨b, hb, hq⟩ := Option.bind_eq_some_iff.mp hq
    obtain ⟨c, hc, rfl⟩ := Option.map_eq_some_iff.mp hq
    rw [commits, w.queues_get, hb]
    cases a <;> cases hc <;> simp [World.flushes, Queue.commits, hb, LinkBuffer.queue]

theorem Out.agrees.content (ho : o.agrees h r) (hd : o ≠ .done) (hn : ∀ n, o ≠ .count n) :
    o.content h = r.getD [] := by
  cases o with
  | done => exact absurd rfl hd
  | count n => exact absurd rfl (hn n)
  | error msg =>
    obtain rfl : r = none := ho
    rfl
  | bytes s =>
    obtain rfl : r = some (h.bytes s) := ho
    rfl
  | byte c =>
    obtain rfl : r = some [c] := ho
    rfl

theorem Out.of_bytes (x : Except String Slice) :
    Out.of .bytes x ≠ .done ∧ ∀ n, Out.of .bytes x ≠ .count n := by
  cases x <;> simp [Out.of]

theorem reads_eq (hx : w.exec cfg op = some (o, w')) (hq : op.request w w' o = some q)
    (hs : serve w.queues q = some (r, w'.queues)) (ho : o.agrees w'.heap r) :
    w.reads i o w' op = takes w.queues i r q := by
  cases op with
  | new size =>
    cases hq
    rfl
  | lend bs =>
    cases hq
    rfl
  | slice j m =>
    cases hq
    rw [World.reads, takes, sliced_front hs]
  | append j k =>
    cases hq
    rw [World.reads, takes, w.queues_get]
    cases w.bufs[k]? <;> rfl
  | act j a =>
    obtain ⟨b, b', h', hb, hrun, rfl⟩ := World.exec_act.mp hx
    simp only [Op.request, hb, Option.bind_some] at hq
    obtain ⟨c, hc, rfl⟩ := Option.map_eq_some_iff.mp hq
    cases a with
    | next m | readBinary m | readString m | readUntil d =>
      obtain ⟨⟨x, b₁, h₁⟩, -, he⟩ := Option.map_eq_some_iff.mp hrun
      cases he
      cases hc
      simp only [World.reads, takes, Call.takes, ho.content (Out.of_bytes x).1 (Out.of_bytes x).2]
    | readByte =>
      obtain ⟨⟨x, b₁, h₁⟩, -, he⟩ := Option.map_eq_some_iff.mp hrun
      cases he
      cases hc
      have hne : Out.of .byte x ≠ .done ∧ ∀ n, Out.of .byte x ≠ .count n := by
        cases x <;> simp [Out.of]
      simp only [World.reads, takes, Call.takes, ho.content hne.1 hne.2]
    | skip m =>
      obtain ⟨⟨x, b₁, h₁⟩, -, he⟩ := Option.map_eq_some_iff.mp hrun
      cases he
      cases hc
      obtain ⟨y, hy, hs⟩ := Option.bind_eq_some_iff.mp hs
      rw [World.queues_get, hb, Option.map_some, Option.some.injEq] at hy
      subst hy
      simp only [Option.pure_def, Option.some.injEq, Prod.mk.injEq] at hs
      have hr := hs.1
      simp only [World.reads, takes, Call.takes, hb, Option.elim_some]
      by_cases hm : m ≤ (b.queue w.heap).ready.length
      · simp only [Queue.run, if_pos hm] at hr
        subst hr
        cases x with
        | ok u => simp [Out.of, LinkBuffer.queue]
        | error msg => cases ho
      · simp only [Queue.run, if_neg hm] at hr
        subst hr
        cases x with
        | ok u => exact absurd rfl ho
        | error msg => simp [Out.of]
    | fill _ _ | malloc _ | writeBinary _ | writeString _ | writeByte _ | mallocAck _ | flush
    | peek _ | release
    | close =>
      cases hc
      simp [World.reads, takes, Call.takes]
    | writeDirect _ _ => cases hc

theorem Delivers.balanced {sent got : List UInt8} (hd : World.Delivers cfg i w sent got) :
    (∃ l P, Tidy w l P) ∧ Conserved w.queues i sent got := by
  induction hd with
  | start mem picks =>
    exact ⟨⟨[], _, .start mem picks⟩, by simp [Conserved, World.queues, World.start]⟩
  | @step w w' o sent got op hd hop hclose hx ih =>
    obtain ⟨⟨l, P, hT⟩, hb⟩ := ih
    obtain ⟨o₁, w₁, l', P', hx₁, hS⟩ := hT.step cfg hop
    obtain ⟨q, r, hq, hs, ho⟩ := hS.served
    obtain ⟨rfl, rfl⟩ : o = o₁ ∧ w' = w₁ := by simpa [hx] using hx₁
    refine ⟨⟨l', P', hS.tidy⟩, ?_⟩
    rw [flushes_eq hq hs, reads_eq hx hq hs ho]
    refine hb.serve (fun he => hclose ?_) hs
    subst he
    cases op with
    | act j a =>
      obtain ⟨b, hb, hq⟩ := Option.bind_eq_some_iff.mp hq
      obtain ⟨c, hc, he⟩ := Option.map_eq_some_iff.mp hq
      cases he
      cases a <;> first | rfl | cases hc
    | _ => cases hq

/-- In every run, of the bytes that have become readable in a buffer every one has been read once,
in order, or can still be read. -/
theorem reads_exactly_once {sent got : List UInt8} (hd : World.Delivers cfg i w sent got)
    (hi : w.bufs[i]? = some b) : sent = got ++ w.heap.look (b.readable w.heap) := by
  have hb := (Delivers.balanced hd).2
  rw [Conserved, w.queues_get, hi] at hb
  exact hb

theorem reads_exactly_once_rest :
    ∃ w b sent got, World.Delivers .small 0 w sent got ∧ w.bufs[0]? = some b ∧ sent = [0, 7, 0] ∧
    got = [0, 7] ∧ sent = got ++ w.heap.look (b.readable w.heap) := by
  obtain ⟨w, b, sent, got, hd, hb, hsent, hgot⟩ : ∃ w b sent got,
    World.Delivers .small 0 w sent got ∧
      w.bufs[0]? = some b ∧ sent = [0, 7, 0] ∧ got = [0, 7] := by
    refine ⟨_, _, _, _, .step (.act 0 (.next 1)) (.step (.slice 0 1) (.step (.act 0 .flush)
      (.step (.act 0 (.fill (0, 1) 7)) (.step (.act 0 (.malloc 3)) (.step (.new 1)
        (.start (fun _ _ => 0) fun _ => 0) ?_ ?_ rfl) ?_ ?_ rfl) ?_ ?_ rfl) ?_ ?_ rfl) ?_ ?_ rfl) ?_
        ?_ rfl,
      rfl, rfl, rfl⟩
    all_goals decide
  exact ⟨w, b, sent, got, hd, hb, hsent, hgot, reads_exactly_once hd hb⟩
end

end Netpoll.Nocopy
