import Mathlib.Data.List.GetD
import Minapp.Verification.PersistentBuffer.Slots

/-! # The lists of nodes

The calls keep the managed and the marked list apart from each other and from the nodes they
have at hand, and move these at their end. -/

namespace Minapp

open IntrusiveList

namespace PersistentBufferManager

variable {A O : Type*} {P : BufferPool} {m : PersistentBufferManager A O} {s : WithTmp A O}
  {tmp : Header ℕ} {z : ℤ} {c : List ℕ} {p : ℕ} {b : PersistentBuffer A O}
  {hs ts xs ys g k : List (ℕ × PersistentBuffer A O)}

/-- During a call: `c` are cached, `xs` with the call, `g` managed and `k` marked. -/
structure Placed (P : BufferPool) (m : PersistentBufferManager A O) (z : ℤ) (c : List ℕ)
    (xs g k : List (ℕ × PersistentBuffer A O)) : Prop where
  ledger : Ledger P m c (xs ++ (g ++ k))
  managed : Represents m.heap m.managed (g.map Prod.fst)
  marked : Represents m.heap m.marked (k.map Prod.fst)
  marker_eq : m.marker = z

namespace Placed

theorem perm (h : Placed P m z c xs g k) (hp : xs.Perm ys) : Placed P m z c ys g k :=
  { h with ledger := h.ledger.perm_rest (hp.append_right _) }

theorem disjoint_managed (h : Placed P m z c xs g k) :
    ∀ a ∈ g.map Prod.fst, a ∉ xs.map Prod.fst := by
  intro a ha
  apply h.ledger.disjoint
  rw [List.map_append]
  exact List.mem_append_left _ ha

theorem disjoint_marked (h : Placed P m z c xs g k) :
    ∀ a ∈ k.map Prod.fst, a ∉ (xs ++ g).map Prod.fst := by
  have hledger : Ledger P m c ((xs ++ g) ++ k) := by
    rw [List.append_assoc]
    exact h.ledger
  exact hledger.disjoint

/-- What the call does to the links of its nodes. -/
theorem of_preserves (h : Placed P m z c xs g k) {H : Heap ℕ (PersistentBuffer A O)}
    (hp : Preserves m.heap H (xs.map Prod.fst)) : Placed P { m with heap := H } z c xs g k := by
  refine ⟨h.ledger.of_preserves hp ?_ rfl rfl, h.managed.of_preserves hp h.disjoint_managed,
    h.marked.of_preserves hp ?_, h.marker_eq⟩
  · intro a ha
    rw [List.map_append]
    exact List.mem_append_left _ ha
  · intro a ha hmem
    apply h.disjoint_marked a ha
    rw [List.map_append]
    exact List.mem_append_left _ hmem

/-- The nodes of the call become managed. -/
theorem append (h : Placed P m z c xs g k) {H : Heap ℕ (PersistentBuffer A O)} {l : Header ℕ}
    (hp : Preserves m.heap H ((g ++ xs).map Prod.fst))
    (hl : Represents H l ((g ++ xs).map Prod.fst)) :
    Placed P { m with heap := H, managed := l } z c [] (g ++ xs) k := by
  have hledger : Ledger P m c ((g ++ xs) ++ k) := by
    apply h.ledger.perm_rest
    rw [← List.append_assoc]
    exact List.perm_append_comm.append_right k
  refine ⟨hledger.of_preserves hp ?_ rfl rfl, hl, h.marked.of_preserves hp hledger.disjoint,
    h.marker_eq⟩
  intro a ha
  rw [List.map_append]
  exact List.mem_append_left _ ha

/-! ## Parts of the calls -/

theorem hold (h : Placed P m z c xs g k) (b : PersistentBuffer A O) :
    ∃ p t c', m.holdBuffer P b = some (p, t) ∧ Placed P t z c' ((p, b) :: xs) g k ∧
      ∀ e ∈ xs ++ (g ++ k), t.heap e.1 = m.heap e.1 := by
  obtain ⟨p, t, c', ht, hledger, hframe⟩ := h.ledger.hold b
  have heq : ∀ e ∈ xs ++ (g ++ k), t.heap e.1 = m.heap e.1 :=
    fun e he => hframe.heap_eq _ (hledger.ne_of_cons e he)
  refine ⟨p, t, c', ht, ⟨hledger, ?_, ?_, hframe.marker_eq.trans h.marker_eq⟩, heq⟩
  · rw [hframe.managed_eq]
    apply h.managed.congr
    rw [List.forall_mem_map]
    intro e he
    exact heq e (by simp [he])
  · rw [hframe.marked_eq]
    apply h.marked.congr
    rw [List.forall_mem_map]
    intro e he
    exact heq e (by simp [he])

end Placed

/-- The nodes `ts` of a call are in its list on the stack, `hs` in no list. -/
structure Filling (P : BufferPool) (s : WithTmp A O) (z : ℤ) (c : List ℕ)
    (hs ts g k : List (ℕ × PersistentBuffer A O)) : Prop where
  placed : Placed P s.2 z c (hs ++ ts) g k
  tmp : Represents s.2.heap s.1 (ts.map Prod.fst)

namespace Filling

theorem pushTmp (h : Filling P s z c ((p, b) :: hs) ts g k) :
    ∃ t, pushTmp p s = some t ∧ Filling P t z c hs (ts ++ [(p, b)]) g k ∧
      ∀ e ∈ k, t.2.heap e.1 = s.2.heap e.1 := by
  obtain ⟨tmp, m⟩ := s
  have hperm : ((p, b) :: (hs ++ ts)).Perm (hs ++ (ts ++ [(p, b)])) := by
    rw [← List.append_assoc]
    exact (List.perm_append_singleton (p, b) (hs ++ ts)).symm
  have hp : p ∉ ts.map Prod.fst := by
    intro hmem
    obtain ⟨e, he, heq⟩ := List.mem_map.mp hmem
    exact h.placed.ledger.ne_of_cons e (by simp [he]) heq
  obtain ⟨x, hx⟩ := h.placed.ledger.cell (List.mem_cons_self ..)
  obtain ⟨H, l, hpush, hl, hpreserves⟩ := pushBack_spec h.tmp hp hx
  have hsub : ∀ a, a ∈ ts.map Prod.fst ++ [p] → a ∈ ((p, b) :: (hs ++ ts)).map Prod.fst := by
    intro a ha
    simp only [List.map_cons, List.map_append, List.mem_cons, List.mem_append,
      List.not_mem_nil, or_false] at ha ⊢
    rcases ha with ha | ha
    · exact .inr (.inr ha)
    · exact .inl ha
  have hall : Preserves m.heap H (((p, b) :: (hs ++ ts)).map Prod.fst) :=
    ⟨fun a ha => hpreserves.others a fun hmem => ha (hsub a hmem), hpreserves.value_eq⟩
  refine ⟨(l, { m with heap := H }), ?_, ⟨(h.placed.of_preserves hall).perm hperm, ?_⟩, ?_⟩
  · simp only [PersistentBufferManager.pushTmp, hpush, Option.map_some]
  · rw [List.map_append]
    exact hl
  · intro e he
    apply hall.others
    intro hmem
    apply h.placed.disjoint_marked _ (List.mem_map_of_mem he)
    rw [List.map_append]
    exact List.mem_append_left _ hmem

theorem spliceTmp (h : Filling P s z c [] ts g k) :
    ∃ t, spliceTmp s = some t ∧ Placed P t z c [] (g ++ ts) k := by
  obtain ⟨tmp, m⟩ := s
  have hdisjoint : ∀ a ∈ ts.map Prod.fst, a ∉ g.map Prod.fst :=
    fun a ha hmem => h.placed.disjoint_managed a hmem ha
  obtain ⟨H, l, hsplice, hl, hpreserves⟩ := spliceBack_spec h.placed.managed h.tmp hdisjoint
  rw [← List.map_append] at hl hpreserves
  refine ⟨{ m with heap := H, managed := l }, ?_, h.placed.append hpreserves hl⟩
  simp only [PersistentBufferManager.spliceTmp, hsplice, Option.map_some]

theorem holdTmp (h : Filling P s z c [] ts g k) (b : PersistentBuffer A O) :
    ∃ t c' p, holdTmp P b s = some t ∧ Filling P t z c' [] (ts ++ [(p, b)]) g k ∧
      ∀ e ∈ k, t.2.heap e.1 = s.2.heap e.1 := by
  obtain ⟨tmp, m⟩ := s
  obtain ⟨p, t, c', ht, hplaced, hheld⟩ := h.placed.hold b
  have htmp : Represents t.heap tmp (ts.map Prod.fst) := by
    apply h.tmp.congr
    rw [List.forall_mem_map]
    intro e he
    exact hheld e (by simp [he])
  have hfilling : Filling P (tmp, t) z c' [(p, b)] ts g k := ⟨hplaced, htmp⟩
  obtain ⟨u, hu, hnext, hpushed⟩ := hfilling.pushTmp
  refine ⟨u, c', p, ?_, hnext, ?_⟩
  · simp only [PersistentBufferManager.holdTmp, ht, Option.bind_some, hu]
  · intro e he
    exact (hpushed e he).trans (hheld e (by simp [he]))

theorem makeList (h : Filling P s z c xs ts g k) :
    ∃ t, makeList (xs.map Prod.fst) s = some t ∧ Filling P t z c [] (ts ++ xs) g k := by
  induction xs generalizing s ts with
  | nil =>
      refine ⟨s, rfl, ?_⟩
      rw [List.append_nil]
      exact h
  | cons e xs ih =>
      obtain ⟨t, ht, hnext, -⟩ := h.pushTmp
      obtain ⟨u, hu, hend⟩ := ih hnext
      refine ⟨u, ?_, ?_⟩
      · rw [List.map_cons, PersistentBufferManager.makeList, ht, Option.bind_some, hu]
      · rw [List.append_assoc] at hend
        exact hend

theorem holdList (h : Filling P s z c [] ts g k) (list : List (PersistentBuffer A O)) :
    ∃ t c' xs, holdList P list s = some t ∧ Filling P t z c' [] (ts ++ xs) g k ∧
      xs.map Prod.snd = list := by
  induction list generalizing s c ts with
  | nil =>
      refine ⟨s, c, [], rfl, ?_, rfl⟩
      rw [List.append_nil]
      exact h
  | cons b list ih =>
      obtain ⟨t, c', p, ht, hnext, -⟩ := h.holdTmp b
      obtain ⟨u, c'', xs, hu, hend, hvalues⟩ := ih hnext
      refine ⟨u, c'', (p, b) :: xs, ?_, ?_, ?_⟩
      · rw [PersistentBufferManager.holdList, ht, Option.bind_some, hu]
      · rw [List.append_assoc] at hend
        exact hend
      · rw [List.map_cons, hvalues]

end Filling

/-! ## The calls -/

namespace Placed

theorem filling (h : Placed P m z c xs g k) : Filling P ({}, m) z c xs [] g k := by
  refine ⟨?_, represents_nil _⟩
  rw [List.append_nil]
  exact h

theorem manage (h : Placed P m z c [] g k) (b : PersistentBuffer A O) :
    ∃ t c' xs, m.manage P b = some t ∧ Placed P t z c' [] (g ++ xs) k ∧
      xs.map Prod.snd = [b] := by
  obtain ⟨p, t, c', ht, hplaced, -⟩ := h.hold b
  have hp : p ∉ g.map Prod.fst := fun hmem => hplaced.disjoint_managed p hmem (by simp)
  obtain ⟨x, hx⟩ := hplaced.ledger.cell (List.mem_cons_self ..)
  obtain ⟨H, l, hpush, hl, hpreserves⟩ := pushBack_spec hplaced.managed hp hx
  have hmap : g.map Prod.fst ++ [p] = (g ++ [(p, b)]).map Prod.fst := by simp
  rw [hmap] at hl hpreserves
  refine ⟨{ t with heap := H, managed := l }, c', [(p, b)], ?_, hplaced.append hpreserves hl, rfl⟩
  simp only [PersistentBufferManager.manage, ht, hpush, Option.bind_some, Option.map_some]

/-- Each argument gets a node of its own, whatever the order. -/
theorem holdEach {buffers : List (PersistentBuffer A O)} {order : List ℕ}
    (h : Placed P m z c xs g k) (hnodup : order.Nodup) (hlt : ∀ i ∈ order, i < buffers.length)
    (held : ℕ → ℕ) :
    ∃ held' t c', holdEach P buffers order held m = some (held', t) ∧
      Placed P t z c'
        ((order.map fun i => (held' i, buffers.getD i {})).reverse ++ xs) g k ∧
      ∀ i ∉ order, held' i = held i := by
  induction order generalizing m c xs held with
  | nil => exact ⟨held, m, c, rfl, h, fun _ _ => rfl⟩
  | cons i order ih =>
      obtain ⟨hi, hnodup⟩ := List.nodup_cons.mp hnodup
      have hbuffer : buffers[i]? = some (buffers.getD i {}) := by
        have hlength := hlt i (List.mem_cons_self ..)
        rw [List.getElem?_eq_getElem hlength, List.getD_eq_getElem _ _ hlength]
      obtain ⟨p, t, c', ht, hplaced, -⟩ := h.hold (buffers.getD i {})
      obtain ⟨held', u, c'', hu, hend, hothers⟩ :=
        ih hplaced hnodup (fun j hj => hlt j (List.mem_cons_of_mem i hj))
          (Function.update held i p)
      have hp : held' i = p := (hothers i hi).trans (Function.update_self ..)
      refine ⟨held', u, c'', ?_, ?_, ?_⟩
      · rw [PersistentBufferManager.holdEach, hbuffer, Option.bind_some, ht]
        exact hu
      · rw [List.map_cons, List.reverse_cons, hp, List.append_assoc]
        exact hend
      · intro j hj
        rw [List.mem_cons, not_or] at hj
        exact (hothers j hj.2).trans (Function.update_of_ne hj.1 ..)

theorem manageBuffers (h : Placed P m z c [] g k) {buffers : List (PersistentBuffer A O)}
    {order : List ℕ} (hlength : 2 ≤ buffers.length)
    (horder : order.Perm (List.range buffers.length)) :
    ∃ t c' xs, m.manageBuffers P buffers order = some t ∧ Placed P t z c' [] (g ++ xs) k ∧
      xs.map Prod.snd = buffers := by
  have hnodup : order.Nodup := horder.nodup_iff.mpr List.nodup_range
  have hlt : ∀ i ∈ order, i < buffers.length :=
    fun i hi => List.mem_range.mp (horder.mem_iff.mp hi)
  obtain ⟨held, t, c', ht, hplaced, -⟩ := h.holdEach hnodup hlt (fun _ => 0)
  let xs := (List.range buffers.length).map fun i => (held i, buffers.getD i {})
  have hperm : ((order.map fun i => (held i, buffers.getD i {})).reverse ++ []).Perm xs := by
    rw [List.append_nil]
    exact (List.reverse_perm _).trans (horder.map _)
  have hnodes : xs.map Prod.fst = (List.range buffers.length).map held := by
    rw [List.map_map]
    rfl
  have hvalues : xs.map Prod.snd = buffers := by
    rw [List.map_map]
    apply List.ext_getElem
    · simp
    · intro i hi hbuffers
      rw [List.getElem_map, List.getElem_range]
      exact List.getD_eq_getElem _ _ hbuffers
  obtain ⟨s, hs, hlisted⟩ := (hplaced.perm hperm).filling.makeList
  obtain ⟨u, hu, hend⟩ := hlisted.spliceTmp
  refine ⟨u, c', xs, ?_, hend, hvalues⟩
  rw [PersistentBufferManager.manageBuffers, if_pos ⟨hlength, horder⟩, ht]
  simp only [Option.bind_some, ← hnodes, hs, hu]

theorem manageList (h : Placed P m z c [] g k) (list : List (PersistentBuffer A O)) :
    ∃ t c' xs, m.manageList P list = some t ∧ Placed P t z c' [] (g ++ xs) k ∧
      xs.map Prod.snd = list := by
  obtain ⟨s, c', xs, hs, hlisted, hvalues⟩ := h.filling.holdList list
  obtain ⟨t, ht, hend⟩ := hlisted.spliceTmp
  refine ⟨t, c', xs, ?_, hend, hvalues⟩
  rw [PersistentBufferManager.manageList, hs, Option.bind_some, ht]

/-- The loop over the marked list: the nodes behind are copied, those ahead still linked. -/
structure Copying (P : BufferPool) (z : ℤ) (g k : List (ℕ × PersistentBuffer A O))
    (ahead : List ℕ) (s : WithTmp A O) : Prop where
  exists_filling : ∃ c ts behind todo, k = behind ++ todo ∧ ahead = todo.map Prod.fst ∧
    ts.map Prod.snd = behind.map Prod.snd ∧ Filling P s z c [] ts g k

theorem Copying.step {a : ℕ} {as : List ℕ} (h : Copying P z g k (a :: as) s) :
    ∃ t, holdNode P a s = some t ∧ Copying P z g k as t ∧
      ∀ d ∈ a :: as, t.2.heap.link d = s.2.heap.link d := by
  obtain ⟨c, ts, behind, todo, hk, hahead, hvalues, hfilling⟩ := h
  cases todo with
  | nil => exact absurd hahead (List.cons_ne_nil _ _)
  | cons e todo =>
      obtain ⟨rfl, rfl⟩ := List.cons_eq_cons.mp hahead
      have he : e ∈ k := by
        rw [hk]
        exact List.mem_append_right _ (List.mem_cons_self ..)
      have hvalue : s.2.heap.value e.1 = some e.2 :=
        hfilling.placed.ledger.value_eq e (by simp [he])
      obtain ⟨t, c', p, ht, hnext, hkept⟩ := hfilling.holdTmp e.2
      refine ⟨t, ?_, ⟨c', ts ++ [(p, e.2)], behind ++ [e], todo, ?_, rfl, ?_, hnext⟩, ?_⟩
      · rw [holdNode, hvalue, Option.bind_some, ht]
      · rw [hk, List.append_assoc]
        rfl
      · rw [List.map_append, List.map_append, hvalues]
        rfl
      · rw [← List.map_cons, List.forall_mem_map]
        intro e' he'
        have hmem : e' ∈ k := by
          rw [hk]
          exact List.mem_append_right _ he'
        rw [Heap.link, hkept e' hmem, Heap.link]

theorem manageMarked (h : Placed P m z c [] g k) :
    ∃ t c' xs,
      (∀ fuel, m.manageMarked P fuel = if k.length ≤ fuel then some t else none) ∧
        Placed P t z c' [] (g ++ xs) k ∧ xs.map Prod.snd = k.map Prod.snd := by
  have hstart : Copying P z g k (k.map Prod.fst) ({}, m) :=
    ⟨c, [], [], k, rfl, rfl, rfl, h.filling⟩
  obtain ⟨s, hs, c', ts, behind, todo, hk, hahead, hvalues, hfilling⟩ :=
    forEach_spec (fun s : WithTmp A O => s.2.heap) (fun a as s => Copying.step)
      h.marked.segment hstart
  obtain rfl : todo = [] := List.map_eq_nil_iff.mp hahead.symm
  rw [List.append_nil] at hk
  obtain ⟨t, ht, hend⟩ := hfilling.spliceTmp
  refine ⟨t, c', ts, ?_, hend, hk ▸ hvalues⟩
  intro fuel
  rw [PersistentBufferManager.manageMarked, hs, List.length_map]
  split
  · rw [Option.bind_some, ht]
  · rfl

/-- The loop of `clear_marked`: the nodes behind are given back. -/
structure Clearing (P : BufferPool) (z : ℤ) (l : Header ℕ)
    (g : List (ℕ × PersistentBuffer A O)) (ahead : List ℕ) (m : PersistentBufferManager A O) :
    Prop where
  exists_ledger : ∃ c todo, ahead = todo.map Prod.fst ∧ Ledger P m c (g ++ todo)
  managed_eq : m.managed = l
  managed : Represents m.heap l (g.map Prod.fst)
  marker_eq : m.marker = z

theorem Clearing.step {l : Header ℕ} {a : ℕ} {as : List ℕ} (h : Clearing P z l g (a :: as) m) :
    ∃ t, freeBuffer P a m = some t ∧ Clearing P z l g as t ∧
      ∀ d ∈ as, t.heap.link d = m.heap.link d := by
  obtain ⟨⟨c, todo, hahead, hledger⟩, hmanaged, hrepresents, hmarker⟩ := h
  cases todo with
  | nil => exact absurd hahead (List.cons_ne_nil _ _)
  | cons e todo =>
      obtain ⟨rfl, rfl⟩ := List.cons_eq_cons.mp hahead
      have hfront : Ledger P m c ((e.1, e.2) :: (g ++ todo)) :=
        hledger.perm_rest List.perm_middle
      obtain ⟨t, c', ht, hnext, hframe⟩ := hfront.free
      have heq : ∀ e' ∈ g ++ todo, t.heap e'.1 = m.heap e'.1 :=
        fun e' he' => hframe.heap_eq _ (hfront.ne_of_cons e' he')
      refine ⟨t, ht, ⟨⟨c', todo, rfl, hnext⟩, hframe.managed_eq.trans hmanaged, ?_,
        hframe.marker_eq.trans hmarker⟩, ?_⟩
      · apply hrepresents.congr
        rw [List.forall_mem_map]
        intro e' he'
        exact heq e' (List.mem_append_left _ he')
      · rw [List.forall_mem_map]
        intro e' he'
        rw [Heap.link, heq e' (List.mem_append_right _ he'), Heap.link]

theorem clearMarked (h : Placed P m z c [] g k) :
    ∃ t c', (∀ fuel, m.clearMarked P fuel = if k.length ≤ fuel then some t else none) ∧
      Placed P t z c' [] g [] := by
  have hstart : Clearing P z m.managed g (k.map Prod.fst) m :=
    ⟨⟨c, k, rfl, h.ledger⟩, rfl, h.managed, h.marker_eq⟩
  obtain ⟨t, ht, ⟨c', todo, hahead, hledger⟩, hmanaged, hrepresents, hmarker⟩ :=
    disposeEach_spec PersistentBufferManager.heap (fun a as m => Clearing.step)
      h.marked.segment hstart
  obtain rfl : todo = [] := List.map_eq_nil_iff.mp hahead.symm
  refine ⟨{ t with marked := {} }, c', ?_, ?_, hmanaged ▸ hrepresents, represents_nil _, hmarker⟩
  · intro fuel
    rw [PersistentBufferManager.clearMarked, ht, List.length_map]
    split <;> rfl
  · exact hledger.of_eq rfl rfl rfl

end Placed

end PersistentBufferManager

end Minapp
