import Minapp.Model.AttributeSet

/-! # Iteration over an attribute set

However the set changes meanwhile, `foreach` visits keys in strictly increasing order, and
misses none that is there all the time. -/

namespace Minapp

/-! ## The order of keys -/

/-- The sign of `compare` is the byte-lexicographic order. -/
theorem Key.compare_sign (a b : Key) :
    (a.compare b < 0 ↔ a < b) ∧ (a.compare b = 0 ↔ a = b) := by
  induction a generalizing b with
  | nil =>
      cases b with
      | nil => simp [Key.compare, clampInt]
      | cons y b =>
          rw [Key.compare, clampInt]
          simp only [List.nil_lt_cons, iff_true, List.length_nil, List.length_cons]
          constructor
          · omega
          · simp
            omega
          · simp
  | cons x a ih =>
      cases b with
      | nil =>
          rw [Key.compare, clampInt]
          simp only [List.length_nil, List.length_cons]
          constructor
          · simp
            omega
          · simp
            omega
          · simp
      | cons y b =>
          rw [Key.compare, List.cons_lt_cons_iff]
          by_cases h : x = y
          · simp [h, ih b]
          · have hne : x.toNat ≠ y.toNat := fun heq => h (UInt8.toNat_inj.mp heq)
            rw [if_neg h]
            refine ⟨?_, ?_⟩
            · simp only [h, false_and, or_false, UInt8.lt_iff_toNat_lt]
              omega
            · simp only [List.cons.injEq, h, false_and, iff_false]
              omega

theorem Key.compare_pos (a b : Key) : 0 < a.compare b ↔ b < a := by
  obtain ⟨hlt, heq⟩ := a.compare_sign b
  rcases lt_trichotomy a b with h | h | h
  · have := hlt.mpr h
    exact iff_of_false (by omega) (not_lt_of_gt h)
  · have := heq.mpr h
    exact iff_of_false (by omega) (h ▸ lt_irrefl _)
  · have h₁ := mt hlt.mp (not_lt_of_gt h)
    have h₂ := mt heq.mp (ne_of_gt h)
    exact iff_of_true (by omega) h

theorem Key.le_of_prefix {p key : Key} (h : p <+: key) : p ≤ key :=
  not_lt.mp (List.not_lt.mpr h.le)

/-- The keys with a prefix are contiguous. -/
theorem Key.prefix_of_between {p key key' : Key} (h₁ : p ≤ key) (h₂ : key ≤ key')
    (hp : p <+: key') : p <+: key := by
  induction p generalizing key key' with
  | nil => exact List.nil_prefix
  | cons x p ih =>
      obtain ⟨k', rfl⟩ := hp
      cases key with
      | nil => exact absurd (List.nil_lt_cons x p) (not_lt.mpr h₁)
      | cons y k =>
          rw [List.cons_append] at h₂
          rw [← not_lt, List.cons_lt_cons_iff, not_or] at h₁ h₂
          obtain rfl : x = y := le_antisymm (not_lt.mp h₁.1) (not_lt.mp h₂.1)
          refine List.cons_prefix_cons.mpr ⟨rfl, ih ?_ ?_ (List.prefix_append p k')⟩
          · exact not_lt.mp fun h => h₁.2 ⟨rfl, h⟩
          · exact not_lt.mp fun h => h₂.2 ⟨rfl, h⟩

/-! ## The overloads -/

/-- An overload with its arguments. -/
inductive Selection where
  | all
  | pre (p : Key)
  | range (min max : Key) (includeMin includeMax : Bool)

namespace Selection

variable {ω : Type*}

def overload : Selection → Overload ω
  | all => .foreachAll
  | pre p => .foreachPrefix p
  | range min max includeMin includeMax => .foreachRange min max includeMin includeMax

/-- The keys an overload can begin at. -/
def Begins : Selection → Key → Prop
  | all, _ => True
  | pre p, key => p ≤ key
  | range min _ includeMin _, key => if includeMin then min ≤ key else min < key

/-- The keys an overload is about. -/
def Selects : Selection → Key → Prop
  | all, _ => True
  | pre p, key => p <+: key
  | range min max includeMin includeMax, key =>
    (if includeMin then min ≤ key else min < key) ∧ if includeMax then key ≤ max else key < max

instance (sel : Selection) (key : Key) : Decidable (sel.Begins key) :=
  match sel with
  | all => .isTrue trivial
  | pre p => inferInstanceAs (Decidable (p ≤ key))
  | range min _ includeMin _ =>
    inferInstanceAs (Decidable (if includeMin then min ≤ key else min < key))

instance (sel : Selection) (key : Key) : Decidable (sel.Selects key) :=
  match sel with
  | all => .isTrue trivial
  | pre p => inferInstanceAs (Decidable (p <+: key))
  | range min max includeMin includeMax =>
    inferInstanceAs (Decidable ((if includeMin then min ≤ key else min < key) ∧
      if includeMax then key ≤ max else key < max))

variable {sel : Selection} {key key' : Key}

theorem first_eq (entries : List (Key × Option ω)) :
    (overload sel).first entries = entries.find? fun e => sel.Begins e.1 := by
  cases sel with
  | all => cases entries <;> rfl
  | pre p => rfl
  | range min max includeMin includeMax =>
      cases includeMin with
      | true => rfl
      | false =>
          refine congrArg entries.find? (funext fun e => decide_eq_decide.mpr ?_)
          exact Iff.rfl

theorem begins_of_selects (h : sel.Selects key) : sel.Begins key := by
  cases sel with
  | all => trivial
  | pre p => exact Key.le_of_prefix h
  | range min max includeMin includeMax => exact h.1

theorem Begins.mono (h : sel.Begins key) (hle : key ≤ key') : sel.Begins key' := by
  cases sel with
  | all => trivial
  | pre p => exact le_trans h hle
  | range min max includeMin includeMax =>
      cases includeMin with
      | true => exact le_trans h hle
      | false => exact lt_of_lt_of_le h hle

/-- The keys selected are contiguous from where the overload begins. -/
theorem selects_of_between (h : sel.Begins key) (hle : key ≤ key') (h' : sel.Selects key') :
    sel.Selects key := by
  cases sel with
  | all => trivial
  | pre p => exact Key.prefix_of_between h hle h'
  | range min max includeMin includeMax =>
      refine ⟨h, ?_⟩
      cases includeMax with
      | true => exact le_trans hle h'.2
      | false => exact lt_of_le_of_lt hle h'.2

/-- From where it begins, an overload ends at the first key it is not about. -/
theorem stop_iff (h : sel.Begins key) :
    (sel.overload : Overload ω).stop key = true ↔ ¬ sel.Selects key := by
  cases sel with
  | all => simp [overload, Overload.foreachAll, Selects]
  | pre p =>
      rw [overload, Overload.foreachPrefix, bne_iff_ne, Selects, List.prefix_iff_eq_take]
      exact not_congr eq_comm
  | range min max includeMin includeMax =>
      have hsel : (range min max includeMin includeMax).Selects key ↔
          if includeMax then key ≤ max else key < max := and_iff_right h
      rw [hsel]
      obtain ⟨hlt, -⟩ := key.compare_sign max
      have hpos := key.compare_pos max
      cases includeMax with
      | true =>
          simp only [overload, Overload.foreachRange, decide_eq_true_eq, if_true, not_le, ← hpos]
          exact Iff.rfl
      | false =>
          simp only [overload, Overload.foreachRange, decide_eq_true_eq, Bool.false_eq_true,
            if_false, ← hlt]
          exact not_lt.symm

end Selection

/-! ## What a run has visited -/

variable {ω : Type*} {sel : Selection} {it it' : Iteration ω} {key : Key}

/-- The entry passed to a call of `f`. -/
def Call.entry (call : Call ω) : Key × Option ω := (call.key, call.value)

/-- A key that is in the set all the time. -/
def Iteration.Present (it : Iteration ω) (key : Key) : Prop := ∀ s ∈ it.sets, s.contains key

/-- The next key is looked for after those visited. -/
def Iteration.After (it : Iteration ω) (after : Option Key) : Prop :=
  match after with
  | none => it.calls = []
  | some key => (∃ call ∈ it.calls, call.key = key) ∧ ∀ call ∈ it.calls, call.key ≤ key

/-- How far an iteration is: the results of `f`, counted but for a last one that is false. -/
def Iteration.Progress (it : Iteration ω) : Prop :=
  match it.place with
  | .seek after => it.After after ∧ it.answers = List.replicate it.count true ∧
      it.calls.length = it.count
  | .call key _ => it.After (some key) ∧ it.answers = List.replicate it.count true ∧
      it.calls.length = it.count + 1
  | .done result => result = it.count ∧
      (it.answers = List.replicate it.count true ∧ it.calls.length = it.count ∨
        it.answers = List.replicate it.count true ++ [false] ∧ it.calls.length = it.count + 1)
  | .threw => True

/-- The keys selected that are there all the time are visited: those that the iteration has
passed, and in the end all of them, unless `f` has returned false. -/
structure IterationInv (sel : Selection) (it : Iteration ω) : Prop where
  current : it.set ∈ it.sets
  increasing : it.calls.Pairwise (·.key < ·.key)
  found : ∀ call ∈ it.calls, sel.Selects call.key ∧ call.found ∈ it.sets ∧
    call.entry ∈ call.found.entries
  passed : ∀ key, sel.Selects key → it.Present key → (∃ call ∈ it.calls, key ≤ call.key) →
    ∃ call ∈ it.calls, call.key = key
  progress : it.Progress
  complete : ∀ result, it.place = .done result → false ∉ it.answers →
    ∀ key, sel.Selects key → it.Present key → ∃ call ∈ it.calls, call.key = key

/-- Where the next key is looked for. -/
def Selection.Beyond (sel : Selection) : Option Key → Key → Prop
  | none, key => sel.Begins key
  | some k, key => k < key

namespace Iteration

/-- The next entry is the least one beyond. -/
theorem next_eq_some {after : Option Key} {e : Key × Option ω}
    (h : it.next sel.overload after = some e) : e ∈ it.set.entries ∧ sel.Beyond after e.1 ∧
      ∀ x ∈ it.set.entries, sel.Beyond after x.1 → e.1 ≤ x.1 := by
  cases after with
  | none =>
      rw [next, Selection.first_eq] at h
      simpa [Selection.Beyond] using OrderedSet.find?_eq_some it.set.sorted h
  | some k => exact OrderedSet.upperBound_eq_some it.set.sorted h

theorem next_eq_none {after : Option Key} (h : it.next sel.overload after = none)
    {x : Key × Option ω} (hx : x ∈ it.set.entries) : ¬ sel.Beyond after x.1 := by
  cases after with
  | none =>
      rw [next, Selection.first_eq] at h
      simpa [Selection.Beyond] using List.find?_eq_none.mp h x hx
  | some k => exact not_lt.mpr (OrderedSet.upperBound_eq_none h hx)

end Iteration

namespace IterationInv

/-- A key beyond those visited is beyond the last one. -/
theorem After.beyond {after : Option Key} (h : it.After after)
    (hsel : sel.Selects key) (hno : ¬ ∃ call ∈ it.calls, key ≤ call.key) :
    sel.Beyond after key := by
  cases after with
  | none => exact Selection.begins_of_selects hsel
  | some k =>
      obtain ⟨⟨call, hcall, rfl⟩, -⟩ := h
      exact not_le.mp fun hle => hno ⟨call, hcall, hle⟩

/-- Looking beyond begins no earlier than the overload. -/
theorem After.begins {after : Option Key} (h : it.After after) (hi : IterationInv sel it)
    (hbeyond : sel.Beyond after key) : sel.Begins key := by
  cases after with
  | none => exact hbeyond
  | some k =>
      obtain ⟨⟨call, hcall, rfl⟩, -⟩ := h
      exact (Selection.begins_of_selects (hi.found call hcall).1).mono (le_of_lt hbeyond)

theorem mem_entries {s : AttributeSet ω} (h : s.contains key) :
    ∃ value, (key, value) ∈ s.entries := by
  obtain ⟨value, hv⟩ := Option.isSome_iff_exists.mp h
  exact ⟨value, (OrderedMap.mem_iff_lookup s.sorted).mpr hv⟩

/-- When the iteration has come to its end, it has visited every key that was there. -/
theorem all_of_end {after : Option Key} (hi : IterationInv sel it) (ha : it.After after)
    (hend : ∀ e, it.next sel.overload after = some e → (sel.overload : Overload ω).stop e.1 = true)
    (hsel : sel.Selects key) (hp : it.Present key) : ∃ call ∈ it.calls, call.key = key := by
  by_cases hno : ∃ call ∈ it.calls, key ≤ call.key
  · exact hi.passed key hsel hp hno
  · obtain ⟨value, hmem⟩ := mem_entries (hp _ hi.current)
    have hbeyond := After.beyond ha hsel hno
    cases hnext : it.next sel.overload after with
    | none => exact absurd hbeyond (Iteration.next_eq_none hnext hmem)
    | some e =>
        obtain ⟨-, hb, hleast⟩ := Iteration.next_eq_some hnext
        have hbegins := After.begins ha hi hb
        have hnot := (Selection.stop_iff hbegins).mp (hend e hnext)
        exact absurd (Selection.selects_of_between hbegins (hleast _ hmem hbeyond) hsel) hnot

end IterationInv

/-! ## The steps -/

/-- The transitions of an iteration. -/
inductive IterationStep (o : Overload ω) (it : Iteration ω) :
    IterationEvent ω → Iteration ω → Prop where
  | finish {after} : it.place = .seek after →
      (∀ e, it.next o after = some e → o.stop e.1 = true) →
      IterationStep o it .seek { it with place := .done it.count }
  | visit {after key value} : it.place = .seek after → it.next o after = some (key, value) →
      o.stop key ≠ true → IterationStep o it .seek { it with
        place := .call key value
        calls := it.calls ++ [⟨key, value, it.set⟩] }
  | more {key value} : it.place = .call key value → IterationStep o it (.answer true) { it with
      count := it.count + 1
      place := .seek (some key)
      answers := it.answers ++ [true] }
  | noMore {key value} : it.place = .call key value → IterationStep o it (.answer false)
      { it with place := .done it.count, answers := it.answers ++ [false] }
  | throw {key value} : it.place = .call key value →
      IterationStep o it .throw { it with place := .threw }
  | modify {set} : it.ended = false →
      IterationStep o it (.modify set) { it with set, sets := it.sets ++ [set] }

theorem Iteration.step_cases {o : Overload ω} {e : IterationEvent ω}
    (h : it.step o e = some it') : IterationStep o it e it' := by
  cases e with
  | seek =>
      cases hplace : it.place with
      | seek after =>
          simp only [Iteration.step, hplace] at h
          cases hnext : it.next o after with
          | none =>
              simp only [hnext] at h
              obtain rfl := Option.some.inj h
              exact .finish hplace (by simp [hnext])
          | some e =>
              simp only [hnext] at h
              split at h <;> obtain rfl := Option.some.inj h
              · exact .finish hplace (by simpa [hnext] using ‹_›)
              · exact .visit hplace hnext ‹_›
      | _ => simp [Iteration.step, hplace] at h
  | answer more =>
      cases hplace : it.place with
      | call key value =>
          simp only [Iteration.step, hplace] at h
          cases more <;> obtain rfl := Option.some.inj h
          · exact .noMore hplace
          · exact .more hplace
      | _ => simp [Iteration.step, hplace] at h
  | throw =>
      cases hplace : it.place with
      | call key value =>
          simp only [Iteration.step, hplace] at h
          obtain rfl := Option.some.inj h
          exact .throw hplace
      | _ => simp [Iteration.step, hplace] at h
  | modify set =>
      simp only [Iteration.step] at h
      split at h
      · exact absurd h (by simp)
      · obtain rfl := Option.some.inj h
        exact .modify (Bool.eq_false_iff.mpr ‹_›)

namespace IterationInv

/-- Every call so far is before what is found beyond them. -/
theorem After.lt {after : Option Key} (h : it.After after) (hbeyond : sel.Beyond after key) :
    ∀ call ∈ it.calls, call.key < key := by
  intro call hcall
  cases after with
  | none =>
      rw [show it.calls = [] from h] at hcall
      exact absurd hcall (by simp)
  | some k => exact lt_of_le_of_lt (h.2 call hcall) hbeyond

/-- The next call is of the least key beyond the calls so far. -/
theorem visit {after : Option Key} {value : Option ω} (hi : IterationInv sel it)
    (ha : it.After after) (hanswers : it.answers = List.replicate it.count true)
    (hlength : it.calls.length = it.count) (hnext : it.next sel.overload after = some (key, value))
    (hstop : (sel.overload : Overload ω).stop key ≠ true) :
    IterationInv sel { it with
      place := .call key value
      calls := it.calls ++ [⟨key, value, it.set⟩] } := by
  obtain ⟨hmem, hbeyond, hleast⟩ := Iteration.next_eq_some hnext
  have hsel := not_not.mp (mt (Selection.stop_iff (After.begins ha hi hbeyond)).mpr hstop)
  have hlt := After.lt ha hbeyond
  refine ⟨hi.current, ?_, ?_, ?_, ⟨⟨⟨_, List.mem_append_right _ (List.mem_singleton_self _), rfl⟩, ?_⟩,
    hanswers, ?_⟩, by simp⟩
  · refine List.pairwise_append.mpr ⟨hi.increasing, List.pairwise_singleton .., ?_⟩
    intro call hcall new hnew
    rw [List.mem_singleton.mp hnew]
    exact hlt call hcall
  · intro call hcall
    rcases List.mem_append.mp hcall with hcall | hnew
    · exact hi.found call hcall
    · rw [List.mem_singleton.mp hnew]
      exact ⟨hsel, hi.current, hmem⟩
  · rintro key' hsel' hp ⟨call, hcall, hle⟩
    by_cases hno : ∃ call ∈ it.calls, key' ≤ call.key
    · obtain ⟨call, hcall, heq⟩ := hi.passed key' hsel' hp hno
      exact ⟨call, List.mem_append_left _ hcall, heq⟩
    · -- it is not passed before this call, and this call is of the least key beyond
      have hnew : call = ⟨key, value, it.set⟩ := by
        rcases List.mem_append.mp hcall with hcall | hnew
        · exact absurd ⟨call, hcall, hle⟩ hno
        · exact List.mem_singleton.mp hnew
      obtain ⟨value', hmem'⟩ := mem_entries (hp _ hi.current)
      have hge := hleast _ hmem' (After.beyond ha hsel' hno)
      rw [hnew] at hle
      exact ⟨_, by simp, le_antisymm hge hle⟩
  · intro call hcall
    rcases List.mem_append.mp hcall with hcall | hnew
    · exact le_of_lt (hlt call hcall)
    · rw [List.mem_singleton.mp hnew]
  · rw [List.length_append, hlength]
    rfl

theorem step {e : IterationEvent ω} (hi : IterationInv sel it)
    (h : IterationStep sel.overload it e it') : IterationInv sel it' := by
  have hprogress := hi.progress
  cases h with
  | finish hplace hend =>
      rw [Iteration.Progress, hplace] at hprogress
      obtain ⟨ha, hanswers, hlength⟩ := hprogress
      refine ⟨hi.current, hi.increasing, hi.found, hi.passed, ⟨rfl, .inl ⟨hanswers, hlength⟩⟩, ?_⟩
      intro _ _ _ key hsel hp
      exact hi.all_of_end ha hend hsel hp
  | visit hplace hnext hstop =>
      rw [Iteration.Progress, hplace] at hprogress
      obtain ⟨ha, hanswers, hlength⟩ := hprogress
      exact hi.visit ha hanswers hlength hnext hstop
  | more hplace =>
      rw [Iteration.Progress, hplace] at hprogress
      obtain ⟨ha, hanswers, hlength⟩ := hprogress
      refine ⟨hi.current, hi.increasing, hi.found, hi.passed, ⟨ha, ?_, hlength⟩, by simp⟩
      rw [hanswers, List.replicate_succ']
  | noMore hplace =>
      rw [Iteration.Progress, hplace] at hprogress
      obtain ⟨-, hanswers, hlength⟩ := hprogress
      refine ⟨hi.current, hi.increasing, hi.found, hi.passed, ⟨rfl, .inr ⟨?_, hlength⟩⟩, by simp⟩
      rw [hanswers]
  | throw hplace => exact ⟨hi.current, hi.increasing, hi.found, hi.passed, trivial, by simp⟩
  | modify hended =>
      have hpresent : ∀ {key set}, Iteration.Present { it with set, sets := it.sets ++ [set] } key →
          it.Present key := fun hp s hs => hp s (List.mem_append_left _ hs)
      refine ⟨by simp, hi.increasing, ?_, ?_, hprogress, ?_⟩
      · intro call hcall
        obtain ⟨hsel, hfound, hmem⟩ := hi.found call hcall
        exact ⟨hsel, List.mem_append_left _ hfound, hmem⟩
      · exact fun key hsel hp => hi.passed key hsel (hpresent hp)
      · exact fun result hr hno key hsel hp => hi.complete result hr hno key hsel (hpresent hp)

end IterationInv

theorem iterationInv (hit : (iterationSystem (sel.overload : Overload ω)).Reachable it) :
    IterationInv sel it := by
  refine hit.invariant ?_ fun it e it' hi hstep => hi.step (Iteration.step_cases hstep)
  rintro it ⟨set, rfl⟩
  exact ⟨by simp, .nil, by simp, by simp, ⟨rfl, rfl, rfl⟩, by simp⟩

/-! ## What `foreach` does -/

namespace IterationInv

/-- Nothing is visited twice. -/
theorem count_eq_one (hi : IterationInv sel it) (h : ∃ call ∈ it.calls, call.key = key) :
    (it.calls.map Call.key).count key = 1 := by
  have hnodup : (it.calls.map Call.key).Nodup :=
    (List.pairwise_map.mpr hi.increasing).imp ne_of_lt
  rw [hnodup.count, if_pos (List.mem_map.mpr h)]

theorem present_of_mem {s : AttributeSet ω} (hs : ∀ t ∈ it.sets, t = s) {e : Key × Option ω}
    (he : e ∈ s.entries) : it.Present e.1 := by
  intro t ht
  rw [hs t ht, AttributeSet.contains, AttributeSet.find,
    (OrderedMap.mem_iff_lookup s.sorted).mp he]
  rfl

section Unmodified

variable {s : AttributeSet ω} (hi : IterationInv sel it) (hs : ∀ t ∈ it.sets, t = s)

include hi hs

/-- On a set that nobody modifies a visited key is visited with its value. -/
theorem entry_visited {e : Key × Option ω} (he : e ∈ s.entries)
    (h : ∃ call ∈ it.calls, call.key = e.1) : e ∈ it.calls.map Call.entry := by
  obtain ⟨call, hcall, hkey⟩ := h
  obtain ⟨-, hfound, hmem⟩ := hi.found call hcall
  rw [hs _ hfound, Call.entry, OrderedMap.mem_iff_lookup s.sorted, hkey] at hmem
  have hvalue := (OrderedMap.mem_iff_lookup s.sorted).mp he
  refine List.mem_map.mpr ⟨call, hcall, Prod.ext hkey ?_⟩
  exact Option.some.inj (hmem.symm.trans hvalue)

theorem entry_selected {e : Key × Option ω} (he : e ∈ it.calls.map Call.entry) :
    e ∈ s.entries.filter fun e => sel.Selects e.1 := by
  obtain ⟨call, hcall, rfl⟩ := List.mem_map.mp he
  obtain ⟨hsel, hfound, hmem⟩ := hi.found call hcall
  rw [hs _ hfound] at hmem
  exact List.mem_filter.mpr ⟨hmem, decide_eq_true hsel⟩

/-- On a set that nobody modifies the calls are the first of the entries selected. -/
theorem calls_prefix : it.calls.map Call.entry <+: s.entries.filter fun e => sel.Selects e.1 := by
  refine OrderedSet.Sorted.isPrefix (List.pairwise_map.mpr hi.increasing)
    (s.sorted.filter _) (fun e he => hi.entry_selected hs he) ?_
  intro e he x hx hle
  obtain ⟨hmem, hsel⟩ := List.mem_filter.mp he
  obtain ⟨call, hcall, rfl⟩ := List.mem_map.mp hx
  exact hi.entry_visited hs hmem (hi.passed e.1 (of_decide_eq_true hsel)
    (present_of_mem hs hmem) ⟨call, hcall, hle⟩)

/-- If all keys selected are visited, the calls are all the entries selected. -/
theorem calls_eq
    (hall : ∀ key, sel.Selects key → it.Present key → ∃ call ∈ it.calls, call.key = key) :
    it.calls.map Call.entry = s.entries.filter fun e => sel.Selects e.1 := by
  refine (hi.calls_prefix hs).eq_of_length_le (List.IsPrefix.length_le ?_)
  refine OrderedSet.Sorted.isPrefix (s.sorted.filter _) (List.pairwise_map.mpr hi.increasing)
    ?_ fun e he _ _ _ => hi.entry_selected hs he
  intro e he
  obtain ⟨hmem, hsel⟩ := List.mem_filter.mp he
  exact hi.entry_visited hs hmem (hall e.1 (of_decide_eq_true hsel) (present_of_mem hs hmem))

end Unmodified

end IterationInv

/-- However the set is modified during a call of `foreach` that returns: its calls of `f` are
of strictly increasing keys, each of those the overload is about and mapped to the passed
value at that step; unless `f` has returned false, each such key present all the time is
visited exactly once; and the result is the number of calls that returned true. On a set
that nobody modifies the calls are the entries selected in order, up to the first for which
`f` returns false. -/
theorem foreach_visits (sel : Selection) (it : Iteration ω) (result : ℕ)
    (hit : (iterationSystem (sel.overload : Overload ω)).Reachable it)
    (hdone : it.place = .done result) :
    it.calls.Pairwise (·.key < ·.key) ∧
    (∀ call ∈ it.calls, sel.Selects call.key ∧ call.found ∈ it.sets ∧
      call.found.find call.key = some call.value) ∧
    (false ∉ it.answers → ∀ key, sel.Selects key → it.Present key →
      (it.calls.map Call.key).count key = 1) ∧
    (it.answers.length = it.calls.length ∧ result = it.answers.count true ∧
      false ∉ it.answers.dropLast) ∧
    ∀ s, (∀ t ∈ it.sets, t = s) →
      (it.calls.map Call.entry <+: s.entries.filter fun e => sel.Selects e.1) ∧
      (false ∉ it.answers →
        it.calls.map Call.entry = s.entries.filter fun e => sel.Selects e.1) := by
  have hi := iterationInv hit
  have hall := hi.complete result hdone
  have hprogress := hi.progress
  rw [Iteration.Progress, hdone] at hprogress
  refine ⟨hi.increasing, ?_, ?_, ?_, ?_⟩
  · intro call hcall
    obtain ⟨hsel, hfound, hmem⟩ := hi.found call hcall
    exact ⟨hsel, hfound, (OrderedMap.mem_iff_lookup call.found.sorted).mp hmem⟩
  · exact fun hno key hsel hp => hi.count_eq_one (hall hno key hsel hp)
  · obtain ⟨rfl, ⟨hanswers, hlength⟩ | ⟨hanswers, hlength⟩⟩ := hprogress
    · rw [hanswers, hlength]
      simp
    · rw [hanswers, hlength]
      simp [List.count_append]
  · intro s hs
    exact ⟨hi.calls_prefix hs, fun hno => hi.calls_eq hs (hall hno)⟩

/-- While the first key is visited, the set is changed. -/
def changedRun (set : AttributeSet ℕ) : List (IterationEvent ℕ) :=
  [.seek, .modify set, .answer true, .seek, .answer true, .seek, .answer true, .seek]

/-- Of the names beginning with a letter, one vanishes and one appears meanwhile. -/
theorem foreach_visits_prefix : ∃ it : Iteration ℕ,
    (iterationSystem (Selection.pre [97]).overload).Reachable it ∧
      it.calls.map Call.key = [[97], [97, 97], [97, 98]] ∧
      it.calls.Pairwise (·.key < ·.key) ∧ (it.calls.map Call.key).count [97, 98] = 1 := by
  have hinit : Iteration.IsInitial
      { set := AttributeSet.construct [([97], some 1), ([97, 98], some 2), ([98], none)] } :=
    ⟨_, rfl⟩
  obtain ⟨it, hit, hp⟩ := TransitionSystem.exists_reachable_of_exec Iteration.IsInitial
    (Iteration.step (Selection.pre [97]).overload)
    (changedRun (.construct [([97, 97], none), ([97, 98], some 2), ([98], none)]))
    (fun it => decide (it.calls.map Call.key = [[97], [97, 97], [97, 98]] ∧
      it.place = .done 3 ∧ false ∉ it.answers ∧ ∀ s ∈ it.sets, s.contains [97, 98]))
    hinit (by decide +kernel)
  obtain ⟨hcalls, hdone, hanswers, hpresent⟩ := of_decide_eq_true hp
  obtain ⟨hincreasing, -, hvisited, -⟩ := foreach_visits (.pre [97]) it 3 hit hdone
  exact ⟨it, hit, hcalls, hincreasing, hvisited hanswers _ (by decide) hpresent⟩

end Minapp
