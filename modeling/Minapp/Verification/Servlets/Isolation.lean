import Minapp.Verification.Servlets.Agreement
import Mathlib.Data.List.TakeWhile

/-! # Isolation of servlets

Different types or instances never share a name, so that every servlet is found under the
type it has. -/

namespace Minapp.Servlets

open AttributeSet

/-! ## Names -/

/-- Of addresses of one size, what is left without the leading zeros tells them apart. -/
theorem eq_of_dropWhile {xs ys : List Byte} (hlength : xs.length = ys.length)
    (h : xs.dropWhile (· == 0) = ys.dropWhile (· == 0)) : xs = ys := by
  have hzeros : ∀ zs : List Byte, zs =
      List.replicate (zs.takeWhile (· == 0)).length 0 ++ zs.dropWhile (· == 0) := by
    intro zs
    have hreplicate : zs.takeWhile (· == 0) =
        List.replicate (zs.takeWhile (· == 0)).length 0 := by
      refine List.eq_replicate_iff.mpr ⟨rfl, fun b hb => ?_⟩
      simpa using List.mem_takeWhile_imp hb
    rw [← hreplicate, List.takeWhile_append_dropWhile]
  have hx := congrArg List.length (hzeros xs)
  have hy := congrArg List.length (hzeros ys)
  rw [List.length_append, List.length_replicate] at hx hy
  rw [h] at hx
  rw [hzeros xs, hzeros ys, h, show (xs.takeWhile (· == 0)).length =
    (ys.takeWhile (· == 0)).length by omega]

theorem drop_leadingZeros (xs : List Byte) :
    xs.drop (leadingZeros xs) = xs.dropWhile (· == 0) := by
  have hdrop : (xs.takeWhile (· == 0) ++ xs.dropWhile (· == 0)).drop (leadingZeros xs) =
      xs.dropWhile (· == 0) := List.drop_left ..
  rwa [List.takeWhile_append_dropWhile] at hdrop

theorem take_trailingZeros (xs : List Byte) :
    (xs.take (xs.length - trailingZeros xs)).reverse = xs.reverse.dropWhile (· == 0) := by
  rw [← List.drop_reverse, ← drop_leadingZeros]
  rfl

variable {null type type' : TypeIndex} {inst inst' : Key}

theorem stripped_injective (h : stripped null type = stripped null type') : type = type' := by
  have hlength : type.bytes.length = type'.bytes.length := type.size_eq.trans type'.size_eq.symm
  have hbytes : type.bytes = type'.bytes := by
    rw [stripped, stripped] at h
    split at h
    · rw [drop_leadingZeros, drop_leadingZeros] at h
      exact eq_of_dropWhile hlength h
    · have h := congrArg List.reverse h
      rw [take_trailingZeros, take_trailingZeros] at h
      exact List.reverse_injective (eq_of_dropWhile (by simpa using hlength) h)
  cases type
  cases type'
  simpa using hbytes

theorem table_injective : ∀ m < 16, ∀ n < 16, table m = table n → m = n := by
  decide

/-- No digit is the delimiter. -/
theorem delimiter_not_mem (bytes : List Byte) : 58 ∉ Hexadecimal.encode table bytes := by
  intro h
  obtain ⟨n, hn, heq⟩ := Hexadecimal.mem_encode h
  exact absurd heq ((by decide : ∀ n < 16, table n ≠ 58) n hn)

/-- What comes before the first delimiter, and what comes after it. -/
theorem eq_of_delimited {d : Byte} {xs ys zs ws : List Byte} (hx : d ∉ xs) (hy : d ∉ ys)
    (h : xs ++ d :: zs = ys ++ d :: ws) : xs = ys ∧ zs = ws := by
  induction xs generalizing ys with
  | nil =>
      cases ys with
      | nil => exact ⟨rfl, (List.cons.inj h).2⟩
      | cons y ys => exact absurd (List.cons.inj h).1 fun heq => hy (heq ▸ List.mem_cons_self)
  | cons x xs ih =>
      cases ys with
      | nil => exact absurd (List.cons.inj h).1 fun heq => hx (heq ▸ List.mem_cons_self)
      | cons y ys =>
          obtain ⟨rfl, htail⟩ := List.cons.inj h
          obtain ⟨rfl, heq⟩ := ih (fun hd => hx (List.mem_cons_of_mem x hd))
            (fun hd => hy (List.mem_cons_of_mem x hd)) htail
          exact ⟨rfl, heq⟩

/-- Two pairs of a type and an instance have one name only if they are the same. -/
theorem id_injective (h : Servlets.id null type inst = Servlets.id null type' inst') :
    type = type' ∧ inst = inst' := by
  rw [Servlets.id, Servlets.id, List.append_assoc, List.append_assoc] at h
  have h := List.append_cancel_left h
  rw [show ascii ":" = [58] by decide] at h
  have hno := delimiter_not_mem (stripped null type)
  have hno' := delimiter_not_mem (stripped null type')
  have hdigits := Hexadecimal.encode_injective table_injective
  cases inst with
  | nil =>
      cases inst' with
      | nil =>
          simp only [List.isEmpty_nil, if_true, List.append_nil] at h
          exact ⟨stripped_injective (hdigits h), rfl⟩
      | cons c cs =>
          simp only [List.isEmpty_nil, List.isEmpty_cons, if_true, Bool.false_eq_true, if_false,
            List.append_nil, List.singleton_append] at h
          exact absurd (h ▸ by simp) hno
  | cons b bs =>
      cases inst' with
      | nil =>
          simp only [List.isEmpty_nil, List.isEmpty_cons, if_true, Bool.false_eq_true, if_false,
            List.append_nil, List.singleton_append] at h
          exact absurd (h ▸ by simp) hno'
      | cons c cs =>
          simp only [List.isEmpty_cons, Bool.false_eq_true, if_false, List.singleton_append] at h
          obtain ⟨heq, hinst⟩ := eq_of_delimited hno hno' h
          exact ⟨stripped_injective (hdigits heq), hinst⟩

/-! ## Every servlet under its own name -/

variable {H ε : Type*} {s t : AttributeSet (Held H)}

/-- Every entry is a servlet of the type of its name, in a holder of its own. -/
structure NamesInv (null : TypeIndex) (s : AttributeSet (Held H)) : Prop where
  typed : ∀ key value, s.find key = some value → ∃ type inst srv,
    key = Servlets.id null type inst ∧ value = some srv ∧ srv.type = type
  distinct : ∀ key key' srv srv', s.find key = some (some srv) → s.find key' = some (some srv') →
    srv.holder = srv'.holder → key = key'

theorem NamesInv.type_eq (hs : NamesInv null s) {value : Option (Held H)}
    (h : s.find (Servlets.id null type inst) = some value) :
    ∃ srv, value = some srv ∧ srv.type = type := by
  obtain ⟨type', inst', srv, hkey, hvalue, htype⟩ := hs.typed _ _ h
  obtain ⟨rfl, -⟩ := id_injective hkey
  exact ⟨srv, hvalue, htype⟩

/-- The exceptions that are not about types. -/
def Tame : ServletError ε → Prop
  | .typeMismatch | .badObjectCast | .terminated => False
  | _ => True

/-- What a call can do to attributes that are servlets under their names. -/
inductive Effect (null type : TypeIndex) (inst : Key) (args : Args H ε)
    (s : AttributeSet (Held H)) : Outcome H ε → Prop where
  | fail {e} : Tame e → Effect null type inst args s (.error e, s)
  | absent : Effect null type inst args s (.ok none, s)
  | found {srv} : s.get (Servlets.id null type inst) = some srv →
      Effect null type inst args s (.ok (some srv), s)
  | erased {srv} : s.get (Servlets.id null type inst) = some srv →
      Effect null type inst args s (.ok (some srv), s.erase (Servlets.id null type inst))
  | stored {srv} : construct type args = .ok srv → Effect null type inst args s
      (.ok (some srv), (s.set (Servlets.id null type inst) (some srv)).2)

variable {args : Args H ε}

theorem effect_set : Effect null type inst args s (set null type inst args s) := by
  cases hc : construct type args with
  | error e =>
      rw [set_of_error hc]
      refine .fail ?_
      rw [construct] at hc
      split at hc
      · exact absurd hc (by simp)
      · obtain rfl := Except.error.inj hc
        trivial
  | ok srv =>
      rw [set_of_ok hc]
      exact .stored hc

theorem effect_op_set : Effect null type inst args s (op null type inst args s .set) := by
  cases hargs : args.constructible with
  | true =>
      rw [op_set hargs]
      exact effect_set
  | false =>
      rw [op_of_unconstructible hargs (.inl rfl)]
      exact .fail trivial

theorem effect_of_some {val : Held H} (hget : s.get (Servlets.id null type inst) = some val)
    (htype : val.type = type) (call : ServletCall) :
    Effect null type inst args s (call.perform null type inst args s) := by
  cases call with
  | get =>
      rw [ServletCall.perform, get_of_some hget, refOrMismatch_of_type htype]
      exact .found hget
  | set => exact effect_set
  | ret =>
      rw [ServletCall.perform, ret_of_some hget, refOrMismatch_of_type htype]
      exact .found hget
  | add =>
      rw [ServletCall.perform, add_of_some hget]
      exact .fail trivial
  | del =>
      rw [ServletCall.perform, del_of_some hget, refOrMismatch_of_type htype]
      exact .erased hget
  | remove =>
      rw [ServletCall.perform, remove, AttributeSet.remove, get_eq_some.mp hget]
      simp only
      rw [ref_of_type htype]
      exact .erased hget
  | op o =>
      rw [ServletCall.perform]
      cases o with
      | get =>
          rw [op_get_of_some hget, refOrMismatch_of_type htype]
          exact .found hget
      | set => exact effect_op_set
      | ret =>
          rw [op_ret_of_some hget, refOrMismatch_of_type htype]
          exact .found hget
      | add =>
          rw [op_add_of_some hget]
          exact .fail trivial
      | del =>
          rw [op_del_of_some hget, refOrMismatch_of_type htype]
          exact .erased hget

theorem effect_of_none (hfind : s.find (Servlets.id null type inst) = none) (call : ServletCall) :
    Effect null type inst args s (call.perform null type inst args s) := by
  have hget := get_eq_none.mpr (.inl hfind)
  cases call with
  | get =>
      rw [ServletCall.perform, get_of_none hget]
      exact .fail trivial
  | set => exact effect_set
  | ret =>
      rw [ServletCall.perform, ret_of_none hget]
      exact effect_set
  | add =>
      rw [ServletCall.perform, add_of_none hget]
      exact effect_set
  | del =>
      rw [ServletCall.perform, del_of_none hget, AttributeSet.remove, hfind]
      exact .fail trivial
  | remove =>
      rw [ServletCall.perform, remove, AttributeSet.remove, hfind]
      exact .absent
  | op o =>
      rw [ServletCall.perform]
      cases o with
      | get =>
          rw [op_get_of_none hget]
          exact .fail trivial
      | set => exact effect_op_set
      | ret =>
          rw [op_of_none hget (.inl rfl)]
          exact effect_op_set
      | add =>
          rw [op_of_none hget (.inr rfl)]
          exact effect_op_set
      | del =>
          rw [op_del_of_none hget]
          exact .fail trivial

theorem NamesInv.effect (hs : NamesInv null s) (call : ServletCall) (type : TypeIndex)
    (inst : Key) (args : Args H ε) :
    Effect null type inst args s (call.perform null type inst args s) := by
  cases hfind : s.find (Servlets.id null type inst) with
  | none => exact effect_of_none hfind call
  | some value =>
      obtain ⟨srv, rfl, htype⟩ := hs.type_eq hfind
      exact effect_of_some (get_eq_some.mpr hfind) htype call

/-! ## What a call changes -/

/-- A call leaves alone every name but the one it is for. -/
theorem Effect.find_of_ne {outcome : Outcome H ε} (h : Effect null type inst args s outcome)
    {key : Key} (hkey : key ≠ Servlets.id null type inst) : outcome.2.find key = s.find key := by
  cases h with
  | fail | absent | found => rfl
  | erased => exact (find_erase key).trans (if_neg hkey)
  | stored => exact (find_set key).trans (if_neg hkey)

/-- What is under that name afterwards was there before, or is a new servlet. -/
theorem Effect.find_self {outcome : Outcome H ε} (h : Effect null type inst args s outcome)
    {value : Option (Held H)} (hfind : outcome.2.find (Servlets.id null type inst) = some value) :
    s.find (Servlets.id null type inst) = some value ∨
      ∃ srv, construct type args = .ok srv ∧ value = some srv := by
  cases h with
  | fail | absent | found => exact .inl hfind
  | erased => exact absurd (((find_erase _).trans (if_pos rfl)).symm.trans hfind) (by simp)
  | @stored srv hc =>
      have hvalue := ((find_set _).trans (if_pos rfl)).symm.trans hfind
      exact .inr ⟨srv, hc, (Option.some.inj hvalue).symm⟩

/-- What is returned was under that name before, or is a new servlet. -/
theorem Effect.returned {outcome : Outcome H ε} (h : Effect null type inst args s outcome)
    {srv : Held H} (hr : outcome.1 = .ok (some srv)) :
    s.find (Servlets.id null type inst) = some (some srv) ∨ construct type args = .ok srv := by
  cases h with
  | fail | absent => exact absurd hr (by simp)
  | found hget | erased hget =>
      obtain rfl := Option.some.inj (Except.ok.inj hr)
      exact .inl (get_eq_some.mp hget)
  | stored hc =>
      obtain rfl := Option.some.inj (Except.ok.inj hr)
      exact .inr hc

theorem Effect.tame {outcome : Outcome H ε} (h : Effect null type inst args s outcome)
    {error : ServletError ε} (he : outcome.1 = .error error) : Tame error := by
  cases h with
  | fail htame =>
      obtain rfl := Except.error.inj he
      exact htame
  | _ => exact absurd he (by simp)

theorem holder_of_construct {srv : Held H} (h : construct type args = .ok srv) :
    args.create = .ok srv.holder := by
  rw [construct] at h
  split at h
  · obtain rfl := Except.ok.inj h
    assumption
  · exact absurd h (by simp)

/-- Every entry after a call was there before, or is a new servlet under the name called. -/
theorem Effect.entry {outcome : Outcome H ε} (h : Effect null type inst args s outcome)
    {key : Key} {value : Option (Held H)} (hfind : outcome.2.find key = some value) :
    s.find key = some value ∨ key = Servlets.id null type inst ∧
      ∃ srv, construct type args = .ok srv ∧ value = some srv := by
  by_cases hkey : key = Servlets.id null type inst
  · subst hkey
    exact (h.find_self hfind).imp_right fun hnew => ⟨rfl, hnew⟩
  · exact .inl ((h.find_of_ne hkey).symm.trans hfind)

theorem NamesInv.step (hs : NamesInv null s) {e : ServletEvent H ε}
    (hstep : (servletSystem H ε null).Step s e t) : NamesInv null t := by
  obtain ⟨hfresh, rfl⟩ := hstep
  have heffect := hs.effect e.call e.type e.inst e.args
  refine ⟨?_, ?_⟩
  · intro key value hfind
    rcases heffect.entry hfind with hold | ⟨rfl, srv, hc, rfl⟩
    · exact hs.typed key value hold
    · exact ⟨e.type, e.inst, srv, rfl, rfl, type_of_construct hc⟩
  · intro key key' srv srv' hfind hfind' heq
    -- a new servlet is in a holder that no entry has
    rcases heffect.entry hfind with hold | ⟨rfl, new, hc, hnew⟩ <;>
      rcases heffect.entry hfind' with hold' | ⟨rfl, new', hc', hnew'⟩
    · exact hs.distinct key key' srv srv' hold hold' heq
    · obtain rfl := Option.some.inj hnew'
      exact absurd ⟨key, srv, hold, heq⟩ (hfresh _ (holder_of_construct hc'))
    · obtain rfl := Option.some.inj hnew
      exact absurd ⟨key', srv', hold', heq.symm⟩ (hfresh _ (holder_of_construct hc))
    · rfl

theorem namesInv (hs : (servletSystem H ε null).Reachable s) : NamesInv null s := by
  refine hs.invariant ?_ fun s e t hi hstep => hi.step hstep
  rintro s rfl
  exact ⟨fun _ _ h => absurd h (by simp [find, OrderedMap.lookup_nil]),
    fun _ _ _ _ h => absurd h (by simp [find, OrderedMap.lookup_nil])⟩

/-- Wherever `null_t()` is, two pairs of a type and an instance have different names. In every
state reached from no attributes the entry under a name holds an object of its type; no
call throws for a type mismatch or terminates; and a call for one pair neither changes nor
returns the servlet of another pair. -/
theorem servlets_isolated (null : TypeIndex) (s : AttributeSet (Held H))
    (hs : (servletSystem H ε null).Reachable s) :
    (∀ type inst type' inst', Servlets.id null type inst = Servlets.id null type' inst' →
      type = type' ∧ inst = inst') ∧
    (∀ type inst value, s.find (Servlets.id null type inst) = some value →
      ∃ srv, value = some srv ∧ srv.type = type) ∧
    ∀ e t, (servletSystem H ε null).Step s e t →
      (∀ error, (e.call.perform null e.type e.inst e.args s).1 = .error error → Tame error) ∧
      ∀ type inst, (type, inst) ≠ (e.type, e.inst) →
        t.find (Servlets.id null type inst) = s.find (Servlets.id null type inst) ∧
        ∀ srv other, (e.call.perform null e.type e.inst e.args s).1 = .ok (some srv) →
          s.find (Servlets.id null type inst) = some (some other) → srv.holder ≠ other.holder := by
  have hinv := namesInv hs
  refine ⟨fun _ _ _ _ => id_injective, fun _ _ _ => hinv.type_eq, ?_⟩
  rintro e t ⟨hfresh, rfl⟩
  have heffect := hinv.effect e.call e.type e.inst e.args
  refine ⟨fun error => heffect.tame, ?_⟩
  intro type inst hne
  have hkey : Servlets.id null type inst ≠ Servlets.id null e.type e.inst := fun heq =>
    hne (Prod.ext (id_injective heq).1 (id_injective heq).2)
  refine ⟨heffect.find_of_ne hkey, ?_⟩
  intro srv other hr hother heq
  rcases heffect.returned hr with hold | hc
  · exact hkey (hinv.distinct _ _ _ _ hother hold heq.symm)
  · exact hfresh _ (holder_of_construct hc) ⟨_, other, hother, heq.symm⟩

/-- A servlet is set; another one of its type, whose instance is a delimiter, is as it was. -/
theorem servlets_isolated_two : ∃ s t : AttributeSet (Held ℕ),
    (servletSystem ℕ Unit (address 1)).Step s
      ⟨.set, address 2, [], ⟨true, .ok 8⟩⟩ t ∧
      t.find (Servlets.id (address 1) (address 2) [58]) = some (some ⟨7, address 2⟩) ∧
      t.find (Servlets.id (address 1) (address 2) []) = some (some ⟨8, address 2⟩) := by
  let first : ServletEvent ℕ Unit := ⟨.set, address 2, [58], ⟨true, .ok 7⟩⟩
  let second : ServletEvent ℕ Unit := ⟨.set, address 2, [], ⟨true, .ok 8⟩⟩
  let s := (first.call.perform (address 1) first.type first.inst first.args {}).2
  have hfirst : (servletSystem ℕ Unit (address 1)).Step {} first s := by
    refine ⟨?_, rfl⟩
    rintro holder - ⟨key, srv, hfind, -⟩
    exact absurd hfind (by simp [find, OrderedMap.lookup_nil])
  have hsecond : (servletSystem ℕ Unit (address 1)).Step s second
      (second.call.perform (address 1) second.type second.inst second.args s).2 := by
    refine ⟨?_, rfl⟩
    rintro holder hcreate ⟨key, srv, hfind, rfl⟩
    have hholder : srv.holder = 8 := (Except.ok.inj hcreate).symm
    have hs : s.find key = if key = Servlets.id (address 1) (address 2) [58]
        then some (some ⟨7, address 2⟩) else none := find_set key
    rw [hs] at hfind
    split at hfind
    · obtain rfl := Option.some.inj (Option.some.inj hfind)
      exact absurd hholder (by decide)
    · exact absurd hfind (by simp)
  obtain ⟨-, -, hcalls⟩ := servlets_isolated (address 1) s (.step (.init rfl) hfirst)
  obtain ⟨hother, -⟩ := (hcalls second _ hsecond).2 (address 2) [58] (by decide)
  refine ⟨s, _, hsecond, hother.trans ?_, ?_⟩
  · exact (find_set _).trans (if_pos rfl)
  · exact (find_set _).trans (if_pos rfl)

end Minapp.Servlets
