import Minapp.Model.Servlets
import Minapp.Verification.AttributeSet.Map

/-! # The operations on servlets

`op` does what the dedicated operations do, and what fails leaves the attributes as they
are, except where `del` has removed an entry before it looks at it. -/

namespace Minapp.Servlets

open AttributeSet

variable {H ε : Type*} {null type : TypeIndex} {inst : Key} {args : Args H ε}
  {s : AttributeSet (Held H)}

/-- A servlet of the type asked for is returned. -/
theorem ref_of_type {srv : Held H} (h : srv.type = type) :
    (ref null type (some srv) : Except (ServletError ε) _) = .ok (some srv) := by
  rw [ref, typeOf, h]
  exact if_neg (not_not.mpr rfl)

theorem refOrMismatch_of_type {srv : Held H} (h : srv.type = type) :
    (refOrMismatch null type (some srv) : Except (ServletError ε) _) = .ok (some srv) := by
  rw [refOrMismatch, ref_of_type h]

theorem refOrMismatch_of_ne {srv : Held H} (h : srv.type ≠ type) :
    (refOrMismatch null type (some srv) : Except (ServletError ε) _) = .error .typeMismatch := by
  rw [refOrMismatch, ref, typeOf, if_pos h]

/-- A new servlet is of the type it is asked for. -/
theorem type_of_construct {srv : Held H} (h : construct type args = .ok srv) :
    srv.type = type := by
  rw [construct] at h
  split at h
  · exact congrArg Held.type (Except.ok.inj h).symm
  · exact absurd h (by simp)

/-- The texts differ in their ninth byte. -/
theorem getD_what {e : ServletError ε} {text : Key} (h : e.what = some text) :
    text.getD 8 0 = match e with
      | .notExists _ => 110
      | .alreadyExists _ => 97
      | .typeMismatch => 116
      | _ => 112 := by
  cases e with
  | notExists | alreadyExists | typeMismatch | paramsError =>
      obtain rfl := Option.some.inj h
      rfl
  | _ => exact absurd h (by simp [ServletError.what])

/-- The texts tell the exceptions apart. -/
theorem error_eq_of_what {e e' : ServletError ε} {text : Key} (h : e.what = some text)
    (h' : e'.what = some text) : e = e' := by
  have hsame := h.trans h'.symm
  have hbyte := (getD_what h).symm.trans (getD_what h')
  cases e with
  | notExists id =>
      cases e' with
      | notExists id' => rw [List.append_cancel_left (Option.some.inj hsame)]
      | _ => simp at hbyte
  | alreadyExists id =>
      cases e' with
      | alreadyExists id' => rw [List.append_cancel_left (Option.some.inj hsame)]
      | _ => simp at hbyte
  | typeMismatch =>
      cases e' with
      | typeMismatch => rfl
      | _ => simp at hbyte
  | paramsError =>
      cases e' with
      | paramsError => rfl
      | notExists | alreadyExists | typeMismatch => simp at hbyte
      | _ => exact absurd h' (by simp [ServletError.what])
  | _ => exact absurd h (by simp [ServletError.what])

/-! ## What each operation does, by the value it finds -/

theorem set_of_ok {srv : Held H} (hc : construct type args = .ok srv) :
    set null type inst args s =
      (.ok (some srv), (s.set (Servlets.id null type inst) (some srv)).2) := by
  rw [set, hc]
  simp only
  rw [ref_of_type (type_of_construct hc)]

theorem set_of_error {e : ServletError ε} (hc : construct type args = .error e) :
    set null type inst args s = (.error e, s) := by
  rw [set, hc]

theorem op_set (hargs : args.constructible = true) :
    op null type inst args s .set = set null type inst args s := by
  have hbody : ∀ val, opBody type args (Servlets.id null type inst) .set val =
      (construct type args).map fun srv => (some srv, some srv) := fun val => if_pos hargs
  cases hc : construct type args with
  | error e =>
      rw [op, compute_of_error ((hbody _).trans (by rw [hc]; rfl)), set_of_error hc]
  | ok srv =>
      rw [op, compute_of_some ((hbody _).trans (by rw [hc]; rfl)), set_of_ok hc]
      simp only
      rw [refOrMismatch_of_type (type_of_construct hc)]

section Some

variable {val : Held H} (h : s.get (Servlets.id null type inst) = some val)

include h

theorem get_of_some : get null type inst s =
    ((refOrMismatch null type (some val) : Except (ServletError ε) _), s) := by
  rw [get, h]

theorem ret_of_some : ret null type inst args s = (refOrMismatch null type (some val), s) := by
  have hbody : retBody type args (s.get (Servlets.id null type inst)) =
      .ok (some val, some val) := by rw [h, retBody]
  rw [ret, compute_of_some hbody, set_eq_self h]

theorem add_of_some : add null type inst args s =
    (.error (.alreadyExists (Servlets.id null type inst)), s) := by
  have hbody : addBody type args (s.get (Servlets.id null type inst)) =
      .ok (none, some val) := by rw [h, addBody]
  rw [add, compute_of_some hbody, set_eq_self h]

theorem del_of_some : del null type inst s =
    ((refOrMismatch null type (some val) : Except (ServletError ε) _),
      s.erase (Servlets.id null type inst)) := by
  rw [del, AttributeSet.remove, get_eq_some.mp h]

theorem op_get_of_some :
    op null type inst args s .get = (refOrMismatch null type (some val), s) := by
  have hbody : opBody type args (Servlets.id null type inst) .get
      (s.get (Servlets.id null type inst)) = .ok (some val, some val) := by rw [h, opBody]
  rw [op, compute_of_some hbody, set_eq_self h]

theorem op_ret_of_some :
    op null type inst args s .ret = (refOrMismatch null type (some val), s) := by
  have hbody : opBody type args (Servlets.id null type inst) .ret
      (s.get (Servlets.id null type inst)) = .ok (some val, some val) := by rw [h, opBody]
  rw [op, compute_of_some hbody, set_eq_self h]

theorem op_add_of_some : op null type inst args s .add =
    (.error (.alreadyExists (Servlets.id null type inst)), s) := by
  have hbody : opBody type args (Servlets.id null type inst) .add
      (s.get (Servlets.id null type inst)) =
        .error (.alreadyExists (Servlets.id null type inst)) := by rw [h, opBody]
  rw [op, compute_of_error hbody]

theorem op_del_of_some : op null type inst args s .del =
    (refOrMismatch null type (some val), s.erase (Servlets.id null type inst)) := by
  have hbody : opBody type args (Servlets.id null type inst) .del
      (s.get (Servlets.id null type inst)) = .ok (some val, none) := by rw [h, opBody]
  rw [op, compute_of_none hbody, AttributeSet.remove, get_eq_some.mp h]

end Some

section None

variable (h : s.get (Servlets.id null type inst) = none)

include h

theorem get_of_none :
    (get null type inst s : Outcome H ε) =
      (.error (.notExists (Servlets.id null type inst)), s) := by
  rw [get, h]

/-- With no servlet there, `ret` and `add` set a new one. -/
theorem ret_of_none : ret null type inst args s = set null type inst args s := by
  have hbody : retBody type args (s.get (Servlets.id null type inst)) =
      (construct type args).map fun srv => (some srv, some srv) := by rw [h, retBody]
  cases hc : construct type args with
  | error e =>
      rw [ret, compute_of_error (hbody.trans (by rw [hc]; rfl)), set_of_error hc]
  | ok srv =>
      rw [ret, compute_of_some (hbody.trans (by rw [hc]; rfl)), set_of_ok hc]
      simp only
      rw [refOrMismatch_of_type (type_of_construct hc)]

theorem add_of_none : add null type inst args s = set null type inst args s := by
  have hbody : addBody type args (s.get (Servlets.id null type inst)) =
      (construct type args).map fun srv => (some srv, some srv) := by rw [h, addBody]
  cases hc : construct type args with
  | error e =>
      rw [add, compute_of_error (hbody.trans (by rw [hc]; rfl)), set_of_error hc]
  | ok srv =>
      rw [add, compute_of_some (hbody.trans (by rw [hc]; rfl)), set_of_ok hc]
      simp only
      rw [ref_of_type (type_of_construct hc)]

theorem del_of_none : (del null type inst s : Outcome H ε) =
    (.error (.notExists (Servlets.id null type inst)),
      (s.remove (Servlets.id null type inst)).2) := by
  rw [del, AttributeSet.remove]
  rcases get_eq_none.mp h with hfind | hfind <;> rw [hfind]

theorem op_get_of_none : op null type inst args s .get =
    (.error (.notExists (Servlets.id null type inst)), s) := by
  have hbody : opBody type args (Servlets.id null type inst) .get
      (s.get (Servlets.id null type inst)) =
        .error (.notExists (Servlets.id null type inst)) := by rw [h, opBody]
  rw [op, compute_of_error hbody]

theorem op_del_of_none : op null type inst args s .del =
    (.error (.notExists (Servlets.id null type inst)), s) := by
  have hbody : opBody type args (Servlets.id null type inst) .del
      (s.get (Servlets.id null type inst)) =
        .error (.notExists (Servlets.id null type inst)) := by rw [h, opBody]
  rw [op, compute_of_error hbody]

/-- With no servlet there, `op` does for `ret` and `add` what it does for `set`. -/
theorem op_of_none {o : Ops} (ho : o = .ret ∨ o = .add) :
    op null type inst args s o = op null type inst args s .set := by
  have hbody : opBody type args (Servlets.id null type inst) o
      (s.get (Servlets.id null type inst)) = opBody type args (Servlets.id null type inst) .set
        (s.get (Servlets.id null type inst)) := by
    rw [h]
    rcases ho with rfl | rfl <;> rfl
  rw [op, op, compute_congr hbody]

end None

/-- Arguments a servlet cannot be constructed from are an error, where it would be. -/
theorem op_of_unconstructible (hargs : args.constructible = false) {o : Ops}
    (ho : o = .set ∨ (o = .ret ∨ o = .add) ∧ s.get (Servlets.id null type inst) = none) :
    op null type inst args s o = (.error .paramsError, s) := by
  have hbody : opBody type args (Servlets.id null type inst) o
      (s.get (Servlets.id null type inst)) = .error .paramsError := by
    rcases ho with rfl | ⟨rfl | rfl, h⟩
    · rw [opBody] <;> simp [hargs]
    · rw [h, opBody] <;> simp [hargs]
    · rw [h, opBody] <;> simp [hargs]
  rw [op, compute_of_error hbody]

/-! ## `op` and the dedicated operations -/

/-- The dedicated operation. -/
def dedicated (null type : TypeIndex) (inst : Key) (args : Args H ε) (s : AttributeSet (Held H)) :
    Ops → Outcome H ε
  | .get => get null type inst s
  | .set => set null type inst args s
  | .ret => ret null type inst args s
  | .add => add null type inst args s
  | .del => del null type inst s

/-- `op` returns what the dedicated operation returns, or throws what it throws, and leaves
the same attributes, exactly if it is not asked to delete an entry mapped to null. -/
theorem op_agrees (null type : TypeIndex) (inst : Key) (args : Args H ε)
    (s : AttributeSet (Held H)) (o : Ops) (hargs : args.constructible = true) :
    op null type inst args s o = dedicated null type inst args s o ↔
      ¬ (o = .del ∧ s.find (Servlets.id null type inst) = some none) := by
  cases hget : s.get (Servlets.id null type inst) with
  | some val =>
      have hfind := get_eq_some.mp hget
      refine iff_of_true ?_ (by simp [hfind])
      cases o with
      | get => rw [op_get_of_some hget, dedicated, get_of_some hget]
      | set => exact op_set hargs
      | ret => rw [op_ret_of_some hget, dedicated, ret_of_some hget]
      | add => rw [op_add_of_some hget, dedicated, add_of_some hget]
      | del => rw [op_del_of_some hget, dedicated, del_of_some hget]
  | none =>
      cases o with
      | get =>
          refine iff_of_true ?_ (by simp)
          rw [op_get_of_none hget, dedicated, get_of_none hget]
      | set => exact iff_of_true (op_set hargs) (by simp)
      | ret =>
          refine iff_of_true ?_ (by simp)
          rw [op_of_none hget (.inl rfl), op_set hargs, dedicated, ret_of_none hget]
      | add =>
          refine iff_of_true ?_ (by simp)
          rw [op_of_none hget (.inr rfl), op_set hargs, dedicated, add_of_none hget]
      | del =>
          rw [op_del_of_none hget, dedicated, del_of_none hget, AttributeSet.remove]
          rcases get_eq_none.mp hget with hfind | hfind
          · exact iff_of_true (by rw [hfind]) (by simp [hfind])
          · refine iff_of_false (fun heq => ?_) (by simp [hfind])
            -- the dedicated operation has erased the entry
            rw [hfind] at heq
            exact erase_ne_self (by simp [hfind]) (Prod.mk.inj heq).2.symm

/-- An address, for examples. -/
def address (b : Byte) : TypeIndex := ⟨List.replicate 8 b, List.length_replicate⟩

/-- An entry mapped to null is deleted. -/
theorem not_op_agrees : ¬ ∀ (null type : TypeIndex) (inst : Key) (args : Args ℕ Unit)
    (s : AttributeSet (Held ℕ)) (o : Ops), args.constructible = true →
      (op null type inst args s o).2 = (dedicated null type inst args s o).2 := by
  intro h
  have heq := h (address 1) (address 2) [] ⟨true, .ok 0⟩
    (.construct [(Servlets.id (address 1) (address 2) [], none)]) .del rfl
  exact absurd heq (by decide +kernel)

theorem op_agrees_add : (op (address 1) (address 2) [] (⟨true, .ok 7⟩ : Args ℕ Unit) {} .add).1 =
    .ok (some ⟨7, address 2⟩) := by
  rw [(op_agrees (address 1) (address 2) [] (⟨true, .ok 7⟩ : Args ℕ Unit) {} .add rfl).mpr (by simp)]
  rfl

/-! ## Failures -/

/-- What ends in an exception leaves the attributes as they are. -/
def Keeps (s : AttributeSet (Held H)) (outcome : Outcome H ε) : Prop :=
  (∃ e, outcome.1 = .error e) → outcome.2 = s

theorem keeps_of_eq {result : Except (ServletError ε) (Option (Held H))} :
    Keeps s (result, s) := fun _ => rfl

theorem keeps_set : Keeps s (set null type inst args s) := by
  cases hc : construct type args with
  | error e =>
      rw [set_of_error hc]
      exact keeps_of_eq
  | ok srv =>
      rw [set_of_ok hc]
      rintro ⟨e, he⟩
      exact absurd he (by simp)

theorem keeps_op_set : Keeps s (op null type inst args s .set) := by
  cases hargs : args.constructible with
  | true =>
      rw [op_set hargs]
      exact keeps_set
  | false =>
      rw [op_of_unconstructible hargs (.inl rfl)]
      exact keeps_of_eq

/-- Deleting keeps the entry it fails for only if it is of the type asked for. -/
theorem keeps_erase {val : Held H} (h : s.get (Servlets.id null type inst) = some val) :
    Keeps s ((refOrMismatch null type (some val), s.erase (Servlets.id null type inst)) :
      Outcome H ε) ↔
      val.type = type := by
  constructor
  · intro hkeeps
    by_contra hne
    have herror := hkeeps ⟨.typeMismatch, refOrMismatch_of_ne hne⟩
    exact erase_ne_self (by simp [get_eq_some.mp h]) herror
  · rintro htype ⟨e, he⟩
    rw [refOrMismatch_of_type htype] at he
    exact absurd he (by simp)

/-- The entries that deleting loses although it fails: those of another type, and for `del`
those mapped to null. -/
def Loses (type : TypeIndex) (call : ServletCall) (entry : Option (Option (Held H))) : Prop :=
  match call, entry with
  | .del, some none => True
  | .del, some (some val) | .op .del, some (some val) => val.type ≠ type
  | _, _ => False

theorem keeps_of_some {val : Held H} (hget : s.get (Servlets.id null type inst) = some val)
    {call : ServletCall} (hcall : call ≠ .remove) :
    Keeps s (call.perform null type inst args s) ↔ ¬ Loses type call (some (some val)) := by
  cases call with
  | remove => exact absurd rfl hcall
  | get =>
      refine iff_of_true ?_ (by simp [Loses])
      rw [ServletCall.perform, get_of_some hget]
      exact keeps_of_eq
  | set => exact iff_of_true keeps_set (by simp [Loses])
  | ret =>
      refine iff_of_true ?_ (by simp [Loses])
      rw [ServletCall.perform, ret_of_some hget]
      exact keeps_of_eq
  | add =>
      refine iff_of_true ?_ (by simp [Loses])
      rw [ServletCall.perform, add_of_some hget]
      exact keeps_of_eq
  | del => rw [ServletCall.perform, del_of_some hget, keeps_erase hget, Loses, not_not]
  | op o =>
      cases o with
      | set => exact iff_of_true keeps_op_set (by simp [Loses])
      | del => rw [ServletCall.perform, op_del_of_some hget, keeps_erase hget, Loses, not_not]
      | get =>
          refine iff_of_true ?_ (by simp [Loses])
          rw [ServletCall.perform, op_get_of_some hget]
          exact keeps_of_eq
      | ret =>
          refine iff_of_true ?_ (by simp [Loses])
          rw [ServletCall.perform, op_ret_of_some hget]
          exact keeps_of_eq
      | add =>
          refine iff_of_true ?_ (by simp [Loses])
          rw [ServletCall.perform, op_add_of_some hget]
          exact keeps_of_eq

/-- With no servlet there, only `del` changes anything and fails. -/
theorem keeps_of_none (hget : s.get (Servlets.id null type inst) = none) {call : ServletCall}
    (hcall : call ≠ .remove) (hdel : call ≠ .del) :
    Keeps s (call.perform null type inst args s) := by
  cases call with
  | remove => exact absurd rfl hcall
  | del => exact absurd rfl hdel
  | get =>
      rw [ServletCall.perform, get_of_none hget]
      exact keeps_of_eq
  | set => exact keeps_set
  | ret =>
      rw [ServletCall.perform, ret_of_none hget]
      exact keeps_set
  | add =>
      rw [ServletCall.perform, add_of_none hget]
      exact keeps_set
  | op o =>
      rw [ServletCall.perform]
      cases o with
      | set => exact keeps_op_set
      | get =>
          rw [op_get_of_none hget]
          exact keeps_of_eq
      | del =>
          rw [op_del_of_none hget]
          exact keeps_of_eq
      | ret =>
          rw [op_of_none hget (.inl rfl)]
          exact keeps_op_set
      | add =>
          rw [op_of_none hget (.inr rfl)]
          exact keeps_op_set

theorem keeps_del_of_none (hget : s.get (Servlets.id null type inst) = none) :
    Keeps s (del null type inst s : Outcome H ε) ↔
      s.find (Servlets.id null type inst) = none := by
  rw [del_of_none hget, AttributeSet.remove]
  rcases get_eq_none.mp hget with hfind | hfind <;> rw [hfind]
  · exact iff_of_true keeps_of_eq rfl
  · refine iff_of_false (fun hkeeps => ?_) (by simp)
    exact erase_ne_self (by simp [hfind]) (hkeeps ⟨_, rfl⟩)

/-- A call that ends in an exception leaves exactly the entries and values it has found,
unless it deletes an entry of another type or, by `del`, one mapped to null: those are gone. -/
theorem failing_keeps (null type : TypeIndex) (inst : Key) (args : Args H ε)
    (s : AttributeSet (Held H)) (call : ServletCall) (hcall : call ≠ .remove) :
    ((∃ e, (call.perform null type inst args s).1 = .error e) →
        (call.perform null type inst args s).2 = s) ↔
      ¬ Loses type call (s.find (Servlets.id null type inst)) := by
  change Keeps s _ ↔ _
  cases hget : s.get (Servlets.id null type inst) with
  | some val =>
      rw [get_eq_some.mp hget]
      exact keeps_of_some hget hcall
  | none =>
      by_cases hdel : call = .del
      · subst hdel
        rw [ServletCall.perform, keeps_del_of_none hget]
        rcases get_eq_none.mp hget with hfind | hfind <;> simp [hfind, Loses]
      · apply iff_of_true (keeps_of_none hget hcall hdel)
        rcases get_eq_none.mp hget with hfind | hfind <;> rw [hfind] <;> cases call <;>
          simp_all [Loses]

/-- The constructor of a servlet throws, whose entry is mapped to null. -/
theorem failing_keeps_ret : (ServletCall.ret.perform (address 1) (address 2) []
    ⟨true, .error ()⟩ (.construct [(Servlets.id (address 1) (address 2) [], none)])).2 =
      (.construct [(Servlets.id (address 1) (address 2) [], none)] : AttributeSet (Held ℕ)) := by
  exact (failing_keeps (address 1) (address 2) [] ⟨true, .error ()⟩ _ .ret (by simp)).mpr
    (by simp [Loses]) ⟨_, rfl⟩

/-- An object of another type has the name of a servlet, which is deleted. -/
theorem not_failing_keeps : ¬ ∀ (null type : TypeIndex) (inst : Key) (args : Args ℕ Unit)
    (s : AttributeSet (Held ℕ)) (call : ServletCall), call ≠ .remove →
      (∃ e, (call.perform null type inst args s).1 = .error e) →
        (call.perform null type inst args s).2 = s := by
  intro h
  have heq := h (address 1) (address 2) [] ⟨true, .ok 0⟩
    (.construct [(Servlets.id (address 1) (address 2) [], some ⟨7, address 3⟩)]) .del (by decide)
    ⟨.typeMismatch, rfl⟩
  exact absurd heq (by decide +kernel)

end Minapp.Servlets
