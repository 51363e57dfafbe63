import Mathlib.Data.List.Nodup
import Mathlib.Logic.Function.Basic

/-! Singly linked lists whose links are in the objects themselves, with the last object known.
An operation on an object that does not exist has no result. -/

/-- An object with a link in it. -/
structure Cell (α β : Type*) where
  next : Option α
  value : β

/-- The objects that exist, by their addresses. -/
abbrev Heap (α β : Type*) := α → Option (Cell α β)

namespace Heap

variable {α β : Type*} (H : Heap α β)

def link (a : α) : Option (Option α) := (H a).map Cell.next

def value (a : α) : Option β := (H a).map Cell.value

variable [DecidableEq α]

def setLink (a : α) (p : Option α) : Option (Heap α β) :=
  (H a).map fun c => Function.update H a (some { c with next := p })

def setValue (a : α) (v : β) : Option (Heap α β) :=
  (H a).map fun c => Function.update H a (some { c with value := v })

/-- A new object. Its link is that of the last object, until a list sets it. -/
def construct (a : α) (v : β) : Heap α β := Function.update H a (some ⟨none, v⟩)

def destroy (a : α) : Heap α β := Function.update H a none

end Heap

/-- `slist`: the first and the last object, unless it is empty. -/
structure Header (α : Type*) where
  first : Option α := none
  last : Option α := none
  deriving DecidableEq, Repr

namespace Header

variable {α β : Type*} [DecidableEq α] (H : Heap α β) (l : Header α)

def pushFront (a : α) : Option (Heap α β × Header α) :=
  (H.setLink a l.first).map fun H => (H, ⟨some a, if l.first = none then some a else l.last⟩)

def pushBack (a : α) : Option (Heap α β × Header α) :=
  match l.last with
  | none => (H.setLink a l.first).map fun H => (H, ⟨some a, some a⟩)
  | some z =>
    (H.link z).bind fun p => (H.setLink a p).bind fun H => (H.setLink z (some a)).map fun H =>
      (H, ⟨l.first, some a⟩)

omit [DecidableEq α] in
/-- The list without its first object. -/
def popFront : Option (Header α) :=
  l.first.bind fun a => (H.link a).map fun p => ⟨p, if p = none then none else l.last⟩

/-- The other list is moved to the end. -/
def spliceBack (x : Header α) : Option (Heap α β × Header α) :=
  match x.first, x.last with
  | some f, some z =>
    match l.last with
    | none => (H.setLink z l.first).map fun H => (H, x)
    | some y =>
      (H.link y).bind fun p => (H.setLink z p).bind fun H => (H.setLink y (some f)).map fun H =>
        (H, ⟨l.first, some z⟩)
  | _, _ => some (H, l)

end Header

/-! ## Loops over a list -/

section Loops

variable {α β σ : Type*} (heap : σ → Heap α β) (body : α → σ → Option σ)

/-- A loop over the objects from one on: the next one is found once the body is done. -/
def forEach : ℕ → Option α → σ → Option σ
  | _, none, s => some s
  | 0, some _, _ => none
  | fuel + 1, some a, s =>
    (body a s).bind fun t => ((heap t).link a).bind fun p => forEach fuel p t

/-- `clear_and_dispose`: the next one is found before the disposer gets an object. -/
def disposeEach : ℕ → Option α → σ → Option σ
  | _, none, s => some s
  | 0, some _, _ => none
  | fuel + 1, some a, s =>
    ((heap s).link a).bind fun p => (body a s).bind fun t => disposeEach fuel p t

end Loops

namespace IntrusiveList

variable {α β : Type*} {H H' : Heap α β} {l x : Header α} {p q r : Option α} {a z : α}
  {as bs : List α}

/-- The objects that the links lead through from one place to another. -/
def Segment (H : Heap α β) : Option α → List α → Option α → Prop
  | p, [], q => p = q
  | p, a :: as, q => p = some a ∧ ∃ r, H.link a = some r ∧ Segment H r as q

/-- The objects of a list, in its order. -/
structure Represents (H : Heap α β) (l : Header α) (as : List α) : Prop where
  segment : Segment H l.first as none
  last_eq : l.last = as.getLast?
  nodup : as.Nodup

/-- A segment only depends on the links of its objects. -/
theorem Segment.congr (h : Segment H p as q) (heq : ∀ a ∈ as, H'.link a = H.link a) :
    Segment H' p as q := by
  induction as generalizing p with
  | nil => exact h
  | cons a as ih =>
      obtain ⟨hp, r, hr, h⟩ := h
      refine ⟨hp, r, (heq a (List.mem_cons_self ..)).trans hr, ih h ?_⟩
      intro b hb
      exact heq b (List.mem_cons_of_mem a hb)

theorem Segment.append (h : Segment H p as q) (h' : Segment H q bs r) :
    Segment H p (as ++ bs) r := by
  induction as generalizing p with
  | nil =>
      obtain rfl : p = q := h
      exact h'
  | cons a as ih =>
      obtain ⟨hp, t, ht, h⟩ := h
      exact ⟨hp, t, ht, ih h⟩

theorem Segment.alive (h : Segment H p as q) (ha : a ∈ as) : ∃ c, H a = some c := by
  induction as generalizing p with
  | nil => exact absurd ha (List.not_mem_nil)
  | cons b as ih =>
      obtain ⟨-, r, hr, h⟩ := h
      rcases List.mem_cons.mp ha with rfl | ha
      · obtain ⟨c, hc, -⟩ := Option.map_eq_some_iff.mp hr
        exact ⟨c, hc⟩
      · exact ih h ha

theorem Represents.congr (h : Represents H l as) (heq : ∀ a ∈ as, H' a = H a) :
    Represents H' l as := by
  refine ⟨h.segment.congr ?_, h.last_eq, h.nodup⟩
  intro a ha
  rw [Heap.link, heq a ha, Heap.link]

theorem represents_nil (H : Heap α β) : Represents H {} [] := ⟨rfl, rfl, List.nodup_nil⟩

theorem Represents.first_eq (h : Represents H l as) : l.first = as.head? := by
  cases as with
  | nil => exact h.segment
  | cons a as => exact h.segment.1

theorem Represents.last_not_mem (h : Represents H l (as ++ [z])) : z ∉ as := by
  have hdisjoint := (List.nodup_append.mp h.nodup).2.2
  intro hmem
  exact hdisjoint z hmem z (List.mem_singleton.mpr rfl) rfl

/-! ## Setting a link -/

/-- What setting a link changes, and what it leaves alone. -/
structure Relinked (H H' : Heap α β) (a : α) (p : Option α) : Prop where
  link_self : H'.link a = some p
  others : ∀ b, b ≠ a → H' b = H b
  value_eq : ∀ b, H'.value b = H.value b

theorem Relinked.link_of_ne (h : Relinked H H' a p) {b : α} (hb : b ≠ a) :
    H'.link b = H.link b := by
  rw [Heap.link, Heap.link, h.others b hb]

/-- The last object of a segment leads elsewhere. -/
theorem Segment.relink_last (h : Segment H p (as ++ [z]) q) (hz : z ∉ as)
    (hr : Relinked H H' z r) : Segment H' p (as ++ [z]) r := by
  induction as generalizing p with
  | nil =>
      obtain ⟨hp, -⟩ := h
      exact ⟨hp, r, hr.link_self, rfl⟩
  | cons a as ih =>
      obtain ⟨hp, t, ht, h⟩ := h
      have hne : a ≠ z := by
        rintro rfl
        exact hz (List.mem_cons_self ..)
      refine ⟨hp, t, (hr.link_of_ne hne).trans ht, ih h ?_⟩
      exact fun hmem => hz (List.mem_cons_of_mem a hmem)

theorem Segment.link_last (h : Segment H p (as ++ [z]) q) : H.link z = some q := by
  induction as generalizing p with
  | nil =>
      obtain ⟨-, r, hr, h⟩ := h
      obtain rfl : r = q := h
      exact hr
  | cons a as ih =>
      obtain ⟨-, r, -, h⟩ := h
      exact ih h

/-- An operation changes nothing but links, and those only of some objects. -/
structure Preserves (H H' : Heap α β) (as : List α) : Prop where
  others : ∀ b, b ∉ as → H' b = H b
  value_eq : ∀ b, H'.value b = H.value b

theorem Relinked.preserves (h : Relinked H H' a p) (ha : a ∈ as) : Preserves H H' as := by
  refine ⟨?_, h.value_eq⟩
  intro b hb
  apply h.others b
  rintro rfl
  exact hb ha

theorem Preserves.trans {H'' : Heap α β} (h : Preserves H H' as) (h' : Preserves H' H'' as) :
    Preserves H H'' as :=
  ⟨fun b hb => (h'.others b hb).trans (h.others b hb),
    fun b => (h'.value_eq b).trans (h.value_eq b)⟩

/-- What does not share objects with the operation is the same list after it. -/
theorem Represents.of_preserves (h : Represents H x bs) (hp : Preserves H H' as)
    (hdisjoint : ∀ b ∈ bs, b ∉ as) : Represents H' x bs :=
  h.congr fun b hb => hp.others b (hdisjoint b hb)

/-! ## The operations -/

theorem popFront_spec (h : Represents H l (a :: as)) :
    ∃ l', l.popFront H = some l' ∧ Represents H l' as := by
  obtain ⟨⟨hfirst, p, hp, hsegment⟩, hlast, hnodup⟩ := h
  refine ⟨⟨p, if p = none then none else l.last⟩, ?_, hsegment, ?_, (List.nodup_cons.mp hnodup).2⟩
  · rw [Header.popFront, hfirst, Option.bind_some, hp, Option.map_some]
  · cases as with
    | nil =>
        obtain rfl : p = none := hsegment
        rfl
    | cons b as =>
        rw [if_neg (by rw [hsegment.1]; simp), hlast, List.getLast?_cons_cons]

section

variable [DecidableEq α]

theorem setLink_relinked {c : Cell α β} (h : H a = some c) (p : Option α) :
    ∃ H', H.setLink a p = some H' ∧ Relinked H H' a p := by
  refine ⟨_, by rw [Heap.setLink, h, Option.map_some], ?_, ?_, ?_⟩
  · rw [Heap.link, Function.update_self]
    rfl
  · intro b hb
    rw [Function.update_of_ne hb]
  · intro b
    by_cases hb : b = a
    · subst hb
      rw [Heap.value, Heap.value, Function.update_self, h]
      rfl
    · rw [Heap.value, Heap.value, Function.update_of_ne hb]

theorem setValue_spec {c : Cell α β} (h : H a = some c) (v : β) :
    ∃ H', H.setValue a v = some H' ∧ H'.value a = some v ∧ ∀ b, b ≠ a → H' b = H b := by
  refine ⟨_, by rw [Heap.setValue, h, Option.map_some], ?_, ?_⟩
  · rw [Heap.value, Function.update_self]
    rfl
  · intro b hb
    rw [Function.update_of_ne hb]

theorem pushFront_spec {c : Cell α β} (h : Represents H l as) (ha : a ∉ as) (hc : H a = some c) :
    ∃ H' l', l.pushFront H a = some (H', l') ∧ Represents H' l' (a :: as) ∧
      Preserves H H' [a] := by
  obtain ⟨H', hset, hr⟩ := setLink_relinked hc l.first
  have hne : ∀ b ∈ as, b ≠ a := by
    rintro b hb rfl
    exact ha hb
  refine ⟨H', _, by rw [Header.pushFront, hset, Option.map_some], ?_,
    hr.preserves (List.mem_singleton.mpr rfl)⟩
  refine ⟨⟨rfl, l.first, hr.link_self, ?_⟩, ?_, List.nodup_cons.mpr ⟨ha, h.nodup⟩⟩
  · exact h.segment.congr fun b hb => hr.link_of_ne (hne b hb)
  · rw [h.first_eq, h.last_eq]
    cases as with
    | nil => rfl
    | cons b as => rw [if_neg (by simp), List.getLast?_cons_cons]

theorem pushBack_spec {c : Cell α β} (h : Represents H l as) (ha : a ∉ as) (hc : H a = some c) :
    ∃ H' l', l.pushBack H a = some (H', l') ∧ Represents H' l' (as ++ [a]) ∧
      Preserves H H' (as ++ [a]) := by
  have hnodup : (as ++ [a]).Nodup := by
    rw [List.nodup_append]
    refine ⟨h.nodup, List.nodup_singleton a, ?_⟩
    rintro b hb d hd rfl
    rw [List.mem_singleton.mp hd] at hb
    exact ha hb
  rcases List.eq_nil_or_concat as with rfl | ⟨init, z, rfl⟩
  · have hlast : l.last = none := h.last_eq
    have hfirst : l.first = none := h.first_eq
    obtain ⟨H', hset, hr⟩ := setLink_relinked hc l.first
    refine ⟨H', ⟨some a, some a⟩, ?_, ?_, hr.preserves (by simp)⟩
    · rw [Header.pushBack, hlast]
      simp only [hset, Option.map_some]
    · exact ⟨⟨rfl, none, hfirst ▸ hr.link_self, rfl⟩, rfl, hnodup⟩
  · rw [List.concat_eq_append] at h ha hnodup ⊢
    have hlast : l.last = some z := by rw [h.last_eq, List.getLast?_concat]
    have hza : a ≠ z := by
      rintro rfl
      exact ha (by simp)
    have hz : z ∉ init := h.last_not_mem
    obtain ⟨d, hd⟩ := h.segment.alive (a := z) (by simp)
    -- the new object ends the list, then the old last one leads to it
    obtain ⟨H₁, hset₁, hr₁⟩ := setLink_relinked hc none
    obtain ⟨H₂, hset₂, hr₂⟩ := setLink_relinked ((hr₁.others z hza.symm).trans hd) (some a)
    refine ⟨H₂, ⟨l.first, some a⟩, ?_, ⟨?_, by rw [List.getLast?_concat], hnodup⟩, ?_⟩
    · rw [Header.pushBack, hlast]
      simp only [h.segment.link_last, Option.bind_some, hset₁, hset₂, Option.map_some]
    · have hsegment : Segment H₁ l.first (init ++ [z]) none := by
        apply h.segment.congr
        rintro b hb
        apply hr₁.link_of_ne
        rintro rfl
        exact ha hb
      exact (hsegment.relink_last hz hr₂).append
        ⟨rfl, none, (hr₂.link_of_ne hza).trans hr₁.link_self, rfl⟩
    · exact (hr₁.preserves (by simp)).trans (hr₂.preserves (by simp))

theorem spliceBack_spec (h : Represents H l as) (hx : Represents H x bs)
    (hdisjoint : ∀ b ∈ bs, b ∉ as) :
    ∃ H' l', l.spliceBack H x = some (H', l') ∧ Represents H' l' (as ++ bs) ∧
      Preserves H H' (as ++ bs) := by
  have hnodup : (as ++ bs).Nodup := by
    rw [List.nodup_append]
    refine ⟨h.nodup, hx.nodup, ?_⟩
    rintro b hb d hd rfl
    exact hdisjoint b hd hb
  rcases List.eq_nil_or_concat bs with rfl | ⟨init, z, rfl⟩
  · have hfirst : x.first = none := hx.first_eq
    refine ⟨H, l, by simp [Header.spliceBack, hfirst], by rwa [List.append_nil], ?_⟩
    exact ⟨fun _ _ => rfl, fun _ => rfl⟩
  · rw [List.concat_eq_append] at hx hdisjoint hnodup ⊢
    obtain ⟨f, hf⟩ : ∃ f, x.first = some f := by
      rw [hx.first_eq]
      cases init <;> simp
    have hlastx : x.last = some z := by rw [hx.last_eq, List.getLast?_concat]
    have hz : z ∉ init := hx.last_not_mem
    obtain ⟨d, hd⟩ := hx.segment.alive (a := z) (by simp)
    obtain ⟨H₁, hset₁, hr₁⟩ := setLink_relinked hd none
    have hsegmentx : Segment H₁ (some f) (init ++ [z]) none := by
      rw [← hf]
      exact hx.segment.relink_last hz hr₁
    rcases List.eq_nil_or_concat as with rfl | ⟨inity, y, rfl⟩
    · have hlast : l.last = none := h.last_eq
      have hfirst : l.first = none := h.first_eq
      refine ⟨H₁, x, ?_, ⟨hf ▸ hsegmentx, hx.last_eq, hnodup⟩, hr₁.preserves (by simp)⟩
      rw [Header.spliceBack, hf, hlastx]
      simp only [hlast, hfirst, hset₁, Option.map_some]
    · rw [List.concat_eq_append] at h hdisjoint hnodup ⊢
      have hlast : l.last = some y := by rw [h.last_eq, List.getLast?_concat]
      have hyz : y ≠ z := by
        rintro rfl
        exact hdisjoint y (by simp) (by simp)
      have hy : y ∉ inity := h.last_not_mem
      obtain ⟨e, he⟩ := h.segment.alive (a := y) (by simp)
      obtain ⟨H₂, hset₂, hr₂⟩ := setLink_relinked ((hr₁.others y hyz).trans he) (some f)
      have hsegment : Segment H₁ l.first (inity ++ [y]) none := by
        apply h.segment.congr
        intro b hb
        apply hr₁.link_of_ne
        rintro rfl
        exact hdisjoint b (by simp) hb
      refine ⟨H₂, ⟨l.first, some z⟩, ?_, ⟨?_, ?_, hnodup⟩, ?_⟩
      · rw [Header.spliceBack, hf, hlastx]
        simp only [hlast, h.segment.link_last, Option.bind_some, hset₁, hset₂, Option.map_some]
      · refine (hsegment.relink_last hy hr₂).append (hsegmentx.congr ?_)
        intro b hb
        apply hr₂.link_of_ne
        rintro rfl
        exact hdisjoint b hb (by simp)
      · rw [← List.append_assoc, List.getLast?_concat]
      · exact (hr₁.preserves (by simp)).trans (hr₂.preserves (by simp))

end

/-! ## Loops -/

section Loops

variable {σ : Type*} (heap : σ → Heap α β) {body : α → σ → Option σ} {I : List α → σ → Prop}
  {s : σ}

/-- A loop whose body leaves the links alone that it still has to follow. -/
theorem forEach_spec
    (hbody : ∀ a as s, I (a :: as) s → ∃ t, body a s = some t ∧ I as t ∧
      ∀ b ∈ a :: as, (heap t).link b = (heap s).link b)
    (hs : Segment (heap s) p as none) (hinv : I as s) :
    ∃ t, (∀ fuel, forEach heap body fuel p s = if as.length ≤ fuel then some t else none) ∧
      I [] t := by
  induction as generalizing p s with
  | nil =>
      obtain rfl : p = none := hs
      refine ⟨s, ?_, hinv⟩
      intro fuel
      rw [forEach, List.length_nil, if_pos (Nat.zero_le _)]
  | cons a as ih =>
      obtain ⟨rfl, r, hr, hrest⟩ := hs
      obtain ⟨t, ht, hinv, hlinks⟩ := hbody a as s hinv
      have hsegment : Segment (heap t) r as none :=
        hrest.congr fun b hb => hlinks b (List.mem_cons_of_mem a hb)
      obtain ⟨u, hu, hend⟩ := ih hsegment hinv
      refine ⟨u, ?_, hend⟩
      intro fuel
      cases fuel with
      | zero => rfl
      | succ fuel =>
          have hlink : (heap t).link a = some r := (hlinks a (List.mem_cons_self ..)).trans hr
          rw [forEach, ht, Option.bind_some, hlink, Option.bind_some, hu fuel]
          simp only [List.length_cons, Nat.add_le_add_iff_right]

/-- The disposer may do anything to its object. -/
theorem disposeEach_spec
    (hbody : ∀ a as s, I (a :: as) s → ∃ t, body a s = some t ∧ I as t ∧
      ∀ b ∈ as, (heap t).link b = (heap s).link b)
    (hs : Segment (heap s) p as none) (hinv : I as s) :
    ∃ t, (∀ fuel, disposeEach heap body fuel p s = if as.length ≤ fuel then some t else none) ∧
      I [] t := by
  induction as generalizing p s with
  | nil =>
      obtain rfl : p = none := hs
      refine ⟨s, ?_, hinv⟩
      intro fuel
      rw [disposeEach, List.length_nil, if_pos (Nat.zero_le _)]
  | cons a as ih =>
      obtain ⟨rfl, r, hr, hrest⟩ := hs
      obtain ⟨t, ht, hinv, hlinks⟩ := hbody a as s hinv
      obtain ⟨u, hu, hend⟩ := ih (hrest.congr hlinks) hinv
      refine ⟨u, ?_, hend⟩
      intro fuel
      cases fuel with
      | zero => rfl
      | succ fuel =>
          rw [disposeEach, hr, Option.bind_some, ht, Option.bind_some, hu fuel]
          simp only [List.length_cons, Nat.add_le_add_iff_right]

end Loops

end IntrusiveList
