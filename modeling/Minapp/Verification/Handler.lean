import Minapp.Library.TransitionSystem
import Minapp.Model.Handler
import Mathlib.Data.List.Basic

/-! # No exception passes a handler, and a connect callback is called once

Code of the application that a handler calls may throw, set the handler of the session and
call handlers again, to any depth. -/

namespace Minapp

variable {H F A : Type*}

/-! ## Error codes -/

def HandlerCall.name : HandlerCall A → String
  | .connect _ => "connect"
  | .read _ => "read"
  | .write _ => "write"
  | .except _ => "except"
  | .error _ => "error"
  | .close => "close"

/-- The code reported for something that is no `std::exception` names the function that threw. -/
theorem HandlerCall.report_message {c : HandlerCall A} {v : RuntimeErrc}
    (h : c.report .unknown = .error (.runtime v)) :
    runtimeMessage v.value = "Unexpected exception from " ++ c.name ++ " handler" := by
  cases c <;> cases h <;> rfl

/-- It is a failure, but for `connect`: that enumerator is zero. -/
theorem HandlerCall.report_failed {c : HandlerCall A} {x : Thrown A} {ec : ErrorCode A}
    (h : c.report x = .error ec) : ec.failed = true ↔ ∀ ep, c ≠ .connect ep := by
  cases c <;> cases x <;> cases h <;> simp [ErrorCode.failed, RuntimeErrc.value]

/-! ## The barrier -/

/-- What becomes of an exception that a handler of the application throws. The call that comes
next reports it; or it is dropped, and what comes before is the error call that threw it, made to
report what another error call had thrown. -/
def HandlerEvent.Accounted (pre : List (HandlerEvent H F A)) :
    HandlerEvent H F A → List (HandlerEvent H F A) → Prop
  | .threw (.wrapper h) c x, post => post.head? = some (.call h (c.report x))
  | .dropped (.wrapper h) y, _ =>
    ∃ first ec x mid, pre = first ++ .threw (.wrapper h) (.error ec) x ::
        .call h (.error (.runtime .unknownErrorException)) :: mid ∧
      ∃ t t' : HandlerState H F A, Executes .application t t' (some y) ∧
        t'.trace = t.trace ++ mid
  | _, _ => True

theorem HandlerEvent.Accounted.append {e : HandlerEvent H F A}
    {pre post : List (HandlerEvent H F A)} (h : e.Accounted pre post) (l l' : List (HandlerEvent H F A)) :
    e.Accounted (l ++ pre) (post ++ l') := by
  cases e with
  | threw obj c x =>
      cases obj with
      | wrapper g =>
          have h : post.head? = some (.call g (c.report x)) := h
          change (post ++ l').head? = _
          rw [List.head?_append, h]
          rfl
      | _ => trivial
  | dropped obj y =>
      cases obj with
      | wrapper g =>
          obtain ⟨first, ec, x, mid, hpre, hmid⟩ := h
          refine ⟨l ++ first, ec, x, mid, ?_, hmid⟩
          rw [hpre, List.append_assoc]
      | _ => trivial
  | _ => trivial

/-- Every event is accounted for. -/
def Reported (l : List (HandlerEvent H F A)) : Prop :=
  ∀ pre e post, l = pre ++ e :: post → e.Accounted pre post

namespace Reported

theorem nil : Reported ([] : List (HandlerEvent H F A)) := by
  intro pre e post heq
  exact absurd heq.symm (by simp)

theorem append {l₁ l₂ : List (HandlerEvent H F A)} (h₁ : Reported l₁) (h₂ : Reported l₂) :
    Reported (l₁ ++ l₂) := by
  intro pre e post heq
  rcases List.append_eq_append_iff.mp heq with ⟨mid, hpre, hl₂⟩ | ⟨mid, hl₁, hpost⟩
  · rw [hpre]
    simpa using (h₂ mid e post hl₂).append l₁ []
  · cases mid with
    | nil => simpa [hl₁] using (h₂ [] e post hpost.symm).append l₁ []
    | cons d mid =>
        obtain ⟨rfl, rfl⟩ := List.cons.inj hpost
        simpa using (h₁ pre e mid hl₁).append [] l₂

theorem cons {e : HandlerEvent H F A} {l : List (HandlerEvent H F A)} (he : e.Accounted [] l)
    (hl : Reported l) : Reported (e :: l) := by
  intro pre d post heq
  cases pre with
  | nil =>
      obtain ⟨rfl, rfl⟩ := List.cons.inj heq
      exact he
  | cons d' pre =>
      obtain ⟨rfl, rfl⟩ := List.cons.inj heq
      simpa using (hl pre d post rfl).append [e] []

theorem snoc {e : HandlerEvent H F A} {l : List (HandlerEvent H F A)} (hl : Reported l)
    (he : e.Accounted l []) : Reported (l ++ [e]) := by
  intro pre d post heq
  rcases List.eq_nil_or_concat post with rfl | ⟨post, d', rfl⟩
  · obtain ⟨rfl, hlast⟩ := List.append_inj' heq rfl
    obtain ⟨rfl, -⟩ := List.cons.inj hlast
    exact he
  · rw [List.concat_eq_append, ← List.cons_append, ← List.append_assoc] at heq
    obtain ⟨rfl, -⟩ := List.append_inj' heq rfl
    simpa using (hl pre d post rfl).append [] [d']

end Reported

/-- A function of a handler of the application begins with its call. -/
def HandlerCode.Begins (code : HandlerCode H A) (l : List (HandlerEvent H F A)) : Prop :=
  ∀ h c, code = .noexcept (.wrapper h) c ∨ code = .impl (.wrapper h) c →
    l.head? = some (.call h c)

theorem HandlerCode.Begins.append {code : HandlerCode H A} {l l' : List (HandlerEvent H F A)}
    (h : code.Begins l) : code.Begins (l ++ l') := by
  intro g c hcode
  rw [List.head?_append, h g c hcode]
  rfl

/-- A function throws, and what is thrown is reported. -/
theorem HandlerState.trace_threw {s t s' : HandlerState H F A} {obj : NoexceptHandler H}
    {c : HandlerCall A} {x : Thrown A} {l₁ l₂ : List (HandlerEvent H F A)}
    (h₁ : t.trace = s.trace ++ l₁) (hrep₁ : Reported l₁)
    (hbegin : (HandlerCode.impl obj c).Begins l₁)
    (h₂ : s'.trace = (t.record (.threw obj c x)).trace ++ l₂) (hrep₂ : Reported l₂)
    (hreport : ∀ h, obj = .wrapper h → l₂.head? = some (.call h (c.report x))) :
    s'.trace = s.trace ++ (l₁ ++ .threw obj c x :: l₂) ∧
      Reported (l₁ ++ .threw obj c x :: l₂) ∧
      (HandlerCode.noexcept obj c).Begins (l₁ ++ .threw obj c x :: l₂) := by
  refine ⟨?_, hrep₁.append (hrep₂.cons ?_), ?_⟩
  · rw [h₂, record, h₁]
    simp
  · cases obj with
    | wrapper h => exact hreport h rfl
    | _ => trivial
  · apply HandlerCode.Begins.append
    intro h d hcode
    apply hbegin h d
    simpa using hcode

/-- A function of a handler of the application is its call and the application's code. -/
theorem Executes.of_wrapper {s s' : HandlerState H F A} {h : H} {c : HandlerCall A}
    {r : Option (Thrown A)} {l : List (HandlerEvent H F A)}
    (hexec : Executes (.impl (.wrapper h) c) s s' r) (hl : s'.trace = s.trace ++ l)
    (hhead : l.head? = some (.call h c)) :
    ∃ mid, l = .call h c :: mid ∧ ∃ t : HandlerState H F A, Executes .application t s' r ∧
      s'.trace = t.trace ++ mid := by
  obtain ⟨mid, rfl⟩ := List.head?_eq_some_iff.mp hhead
  cases hexec with
  | wrapped happ =>
      refine ⟨mid, rfl, _, happ, ?_⟩
      rw [hl]
      simp [HandlerState.record]

/-- What an execution adds to the trace. -/
theorem Executes.trace {code : HandlerCode H A} {s s' : HandlerState H F A} {r : Option (Thrown A)}
    (h : Executes code s s' r) :
    ∃ l, s'.trace = s.trace ++ l ∧ Reported l ∧ code.Begins l := by
  have hother : ∀ {code : HandlerCode H A} (l : List (HandlerEvent H F A)),
      (∀ h c, code ≠ .noexcept (.wrapper h) c ∧ code ≠ .impl (.wrapper h) c) → code.Begins l := by
    intro code l hcode h c hbegin
    exact absurd hbegin (by simp [hcode h c])
  induction h with
  | ends => exact ⟨[], by simp, .nil, hother [] (by simp)⟩
  | setHandler other _ ih =>
      obtain ⟨l, hl, hrep, -⟩ := ih
      exact ⟨l, hl, hrep, hother l (by simp)⟩
  | useServiceHandler _ ih =>
      obtain ⟨l, hl, hrep, -⟩ := ih
      exact ⟨l, hl, hrep, hother l (by simp)⟩
  | calls _ _ ih₁ ih₂ =>
      obtain ⟨l₁, hl₁, hrep₁, -⟩ := ih₁
      obtain ⟨l₂, hl₂, hrep₂, -⟩ := ih₂
      refine ⟨l₁ ++ l₂, ?_, hrep₁.append hrep₂, hother _ (by simp)⟩
      rw [hl₂, hl₁, List.append_assoc]
  | dummy => exact ⟨[], by simp, .nil, hother [] (by simp)⟩
  | returns _ ih =>
      obtain ⟨l, hl, hrep, hbegin⟩ := ih
      refine ⟨l, hl, hrep, fun h c hcode => hbegin h c ?_⟩
      simpa using hcode
  | throws _ _ _ ih₁ ih₂ =>
      obtain ⟨l₁, hl₁, hrep₁, hbegin₁⟩ := ih₁
      obtain ⟨l₂, hl₂, hrep₂, hbegin₂⟩ := ih₂
      exact ⟨_, HandlerState.trace_threw hl₁ hrep₁ hbegin₁ hl₂ hrep₂
        fun h hobj => hbegin₂ h _ (.inl (by rw [hobj]))⟩
  | errorThrows _ _ ih₁ ih₂ =>
      obtain ⟨l₁, hl₁, hrep₁, hbegin₁⟩ := ih₁
      obtain ⟨l₂, hl₂, hrep₂, hbegin₂⟩ := ih₂
      exact ⟨_, HandlerState.trace_threw hl₁ hrep₁ hbegin₁ hl₂ hrep₂
        fun h hobj => hbegin₂ h _ (.inr (by rw [hobj]))⟩
  | @errorThrowsTwice s t s' obj ec x y _ hsecond ih₁ ih₂ =>
      obtain ⟨l₁, hl₁, hrep₁, hbegin₁⟩ := ih₁
      obtain ⟨l₂, hl₂, hrep₂, hbegin₂⟩ := ih₂
      obtain ⟨hl, hrep, hbegin⟩ := HandlerState.trace_threw hl₁ hrep₁ hbegin₁ hl₂ hrep₂
        fun h hobj => hbegin₂ h _ (.inr (by rw [hobj]))
      refine ⟨_ ++ [.dropped obj y], ?_, hrep.snoc ?_, hbegin.append⟩
      · rw [HandlerState.record, hl, List.append_assoc]
      · cases obj with
        | wrapper h =>
            -- the throw that is dropped is that of the second call of `error`
            obtain ⟨mid, rfl, u, happ, hu⟩ := hsecond.of_wrapper hl₂ (hbegin₂ h _ (.inr rfl))
            exact ⟨l₁, ec, x, mid, rfl, u, s', happ, hu⟩
        | _ => trivial
  | @wrapped s s' r h c _ ih =>
      obtain ⟨l, hl, hrep, -⟩ := ih
      refine ⟨.call h c :: l, ?_, hrep.cons trivial, ?_⟩
      · rw [hl]
        simp [HandlerState.record]
      · rintro g d (⟨⟨⟩⟩ | ⟨⟨⟩⟩)
        rfl
  | @connector s s' r c ec f _ _ _ ih =>
      obtain ⟨l, hl, hrep, -⟩ := ih
      refine ⟨.connector f ec :: l, ?_, hrep.cons trivial, hother _ (by simp)⟩
      rw [hl]
      simp [HandlerState.takeConnector, HandlerState.record, HandlerState.setHandler]
  | noConnector _ _ _ ih =>
      obtain ⟨l, hl, hrep, -⟩ := ih
      exact ⟨l, hl, hrep, hother l (by simp)⟩
  | ignored => exact ⟨[], by simp, .nil, hother [] (by simp)⟩

theorem Executes.noexcept_eq_none {code : HandlerCode H A} {s s' : HandlerState H F A}
    {r : Option (Thrown A)} (h : Executes code s s' r) :
    ∀ obj c, code = .noexcept obj c → r = none := by
  induction h with
  | dummy | returns | errorThrows | errorThrowsTwice => exact fun _ _ _ => rfl
  | throws _ _ _ _ ih => exact fun _ _ _ => ih _ _ rfl
  | ends | setHandler | useServiceHandler | calls | wrapped | connector | noConnector | ignored =>
      intro obj c hcode
      cases hcode

/-- Whatever the application does and throws in the functions that a handler calls, and in those
that these call, no exception leaves the handler. Each one that is thrown by a handler of the
application is reported to it by the very next call: a `std::exception` by `except`, anything
else, and what `except` and `error` throw, by `error`; but what `error` throws when it is called
to report what `error` has thrown is dropped, and nothing else is. -/
theorem exceptions_reported {obj : NoexceptHandler H} {c : HandlerCall A}
    {s s' : HandlerState H F A} {r : Option (Thrown A)}
    (h : Executes (.noexcept obj c) s s' r) :
    r = none ∧ ∃ l, s'.trace = s.trace ++ l ∧
      (∀ pre g d x post, l = pre ++ .threw (.wrapper g) d x :: post →
        post.head? = some (.call g (d.report x))) ∧
      ∀ pre g y post, l = pre ++ .dropped (.wrapper g) y :: post →
        ∃ first ec x mid, pre = first ++ .threw (.wrapper g) (.error ec) x ::
            .call g (.error (.runtime .unknownErrorException)) :: mid ∧
          ∃ t t' : HandlerState H F A, Executes .application t t' (some y) ∧
            t'.trace = t.trace ++ mid := by
  obtain ⟨l, hl, hrep, -⟩ := h.trace
  refine ⟨h.noexcept_eq_none obj c rfl, l, hl, ?_, ?_⟩
  · intro pre g d x post heq
    exact hrep pre _ post heq
  · intro pre g y post heq
    exact hrep pre _ post heq

/-- A handler throws out of `read`, and what it throws out of the second call of `error` is
dropped. -/
theorem exceptions_reported_dropped :
    ∃ s' : HandlerState ℕ ℕ ℕ, s'.trace = [.call 7 (.read 1),
        .threw (.wrapper 7) (.read 1) .unknown,
        .call 7 (.error (.runtime .unknownReadException)),
        .threw (.wrapper 7) (.error (.runtime .unknownReadException)) (.exception 2),
        .call 7 (.error (.runtime .unknownErrorException)), .dropped (.wrapper 7) .unknown] ∧
      ∃ l, s'.trace = [] ++ l ∧
        (∀ pre g d x post, l = pre ++ .threw (.wrapper g) d x :: post →
          post.head? = some (.call g (d.report x))) ∧
        ∀ pre g y post, l = pre ++ .dropped (.wrapper g) y :: post →
          ∃ first ec x mid, pre = first ++ .threw (.wrapper g) (.error ec) x ::
              .call g (.error (.runtime .unknownErrorException)) :: mid ∧
            ∃ t t' : HandlerState ℕ ℕ ℕ, Executes .application t t' (some y) ∧
              t'.trace = t.trace ++ mid := by
  have hread : Executes (.noexcept (.wrapper 7) (.read 1))
      (⟨.wrapper 7, .dummy, none, []⟩ : HandlerState ℕ ℕ ℕ) _ none :=
    .throws (by simp) (.wrapped (.ends (r := some .unknown)))
      (.errorThrowsTwice (.wrapped (.ends (r := some (.exception 2))))
        (.wrapped (.ends (r := some .unknown))))
  exact ⟨_, rfl, (exceptions_reported hread).2⟩

/-! ## The function of a connect handler -/

/-- The calls of the function so far. -/
def HandlerState.connectors (s : HandlerState H F A) : List (F × ErrorCode A) :=
  s.trace.filterMap fun
    | .connector f ec => some (f, ec)
    | _ => none

namespace HandlerState

variable (s : HandlerState H F A)

@[simp] theorem connectors_takeConnector (f : F) (ec : ErrorCode A) :
    (s.takeConnector f ec).connectors = s.connectors ++ [(f, ec)] := by
  simp [connectors, takeConnector, record, setHandler]

@[simp] theorem connectors_threw (obj : NoexceptHandler H) (c : HandlerCall A) (x : Thrown A) :
    (s.record (.threw obj c x)).connectors = s.connectors := by
  simp [connectors, record]

@[simp] theorem connectors_dropped (obj : NoexceptHandler H) (x : Thrown A) :
    (s.record (.dropped obj x)).connectors = s.connectors := by
  simp [connectors, record]

@[simp] theorem connectors_call (h : H) (c : HandlerCall A) :
    (s.record (.call h c)).connectors = s.connectors := by
  simp [connectors, record]

end HandlerState

/-- The function, if it is there, is left there or called once. -/
def HandlerState.Spends (s s' : HandlerState H F A) : Prop :=
  (s'.connectors = s.connectors ∧ s'.conn = s.conn) ∨
    ∃ f ec, s.conn = some f ∧ s'.conn = none ∧ s'.connectors = s.connectors ++ [(f, ec)]

namespace HandlerState.Spends

variable {s t u : HandlerState H F A}

theorem trans (h₁ : s.Spends t) (h₂ : t.Spends u) : s.Spends u := by
  rcases h₁ with ⟨hcalls₁, hconn₁⟩ | ⟨f, ec, hsome, hnone, hcalls₁⟩
  · rw [Spends, hcalls₁, hconn₁] at h₂
    exact h₂
  · rcases h₂ with ⟨hcalls₂, hconn₂⟩ | ⟨f', ec', hsome', -⟩
    · exact .inr ⟨f, ec, hsome, hconn₂.trans hnone, hcalls₂.trans hcalls₁⟩
    · rw [hnone] at hsome'
      cases hsome'

/-- After the function has been called. -/
theorem of_none (h : s.Spends t) (hnone : s.conn = none) :
    t.conn = none ∧ t.connectors = s.connectors := by
  rcases h with ⟨hcalls, hconn⟩ | ⟨f, ec, hsome, -⟩
  · exact ⟨hconn.trans hnone, hcalls⟩
  · rw [hnone] at hsome
    cases hsome

end HandlerState.Spends

theorem Executes.spends {code : HandlerCode H A} {s s' : HandlerState H F A}
    {r : Option (Thrown A)} (h : Executes code s s' r) : s.Spends s' := by
  have hthrew : ∀ {s t : HandlerState H F A} {obj c x}, s.Spends t →
      s.Spends (t.record (.threw obj c x)) :=
    fun h => h.trans (.inl ⟨HandlerState.connectors_threw _ _ _ _, rfl⟩)
  induction h with
  | ends | dummy | ignored => exact .inl ⟨rfl, rfl⟩
  | setHandler _ _ ih | useServiceHandler _ ih | returns _ ih | noConnector _ _ _ ih => exact ih
  | calls _ _ ih₁ ih₂ => exact ih₁.trans ih₂
  | throws _ _ _ ih₁ ih₂ | errorThrows _ _ ih₁ ih₂ => exact (hthrew ih₁).trans ih₂
  | errorThrowsTwice _ _ ih₁ ih₂ =>
      exact ((hthrew ih₁).trans ih₂).trans (.inl ⟨HandlerState.connectors_dropped _ _ _, rfl⟩)
  | wrapped _ ih =>
      exact HandlerState.Spends.trans (.inl ⟨HandlerState.connectors_call _ _ _, rfl⟩) ih
  | @connector s s' r c ec f _ hconn _ ih =>
      obtain ⟨hnone, hcalls⟩ := ih.of_none rfl
      exact .inr ⟨f, ec, hconn, hnone, hcalls.trans (s.connectors_takeConnector f ec)⟩

section ConnectHandler

variable {s s' : HandlerState H F A} {c : HandlerCall A} {ec : ErrorCode A} {f : F}
  {r : Option (Thrown A)}

/-- The calls that a connect handler does not override. -/
theorem Executes.of_ignored (hc : c.outcome = none)
    (h : Executes (.noexcept .connectHandler c) s s' r) : s' = s ∧ r = none := by
  have himpl : ∀ {t x}, Executes (.impl .connectHandler c) s t x → t = s ∧ x = none := by
    intro t x h
    cases h with
    | ignored => exact ⟨rfl, rfl⟩
    | connector houtcome | noConnector houtcome =>
        rw [hc] at houtcome
        cases houtcome
  cases h with
  | returns h => exact ⟨(himpl h).1, rfl⟩
  | throws _ h | errorThrows h | errorThrowsTwice h => cases (himpl h).2

/-- Without a function it sets the default handler, and calls that. -/
theorem Executes.of_noConnector (hc : c.outcome = some ec) (hconn : s.conn = none)
    (h : Executes (.impl .connectHandler c) s s' r) : s' = s.setHandler .null ∧ r = none := by
  cases h with
  | connector _ hsome =>
      rw [hconn] at hsome
      cases hsome
  | noConnector _ _ h =>
      cases h with
      | dummy => exact ⟨rfl, rfl⟩
      | returns h | throws _ h | errorThrows h | errorThrowsTwice h => cases h
  | ignored hnone =>
      rw [hc] at hnone
      cases hnone

theorem Executes.of_spent (hc : c.outcome = some ec) (hconn : s.conn = none)
    (h : Executes (.noexcept .connectHandler c) s s' r) : s' = s.setHandler .null ∧ r = none := by
  cases h with
  | returns h => exact h.of_noConnector hc hconn
  | throws _ h | errorThrows h | errorThrowsTwice h => cases (h.of_noConnector hc hconn).2

theorem Executes.of_connector (hc : c.outcome = some ec) (hconn : s.conn = some f)
    (h : Executes (.impl .connectHandler c) s s' r) :
    Executes .application (s.takeConnector f ec) s' r := by
  cases h with
  | connector houtcome hsome h =>
      rw [hc] at houtcome
      rw [hconn] at hsome
      cases houtcome
      cases hsome
      exact h
  | noConnector _ hnone =>
      rw [hconn] at hnone
      cases hnone
  | ignored hnone =>
      rw [hc] at hnone
      cases hnone

/-- What is left to do when the function, called for `c`, has ended. -/
def HandlerState.afterConnector (s : HandlerState H F A) (c : HandlerCall A) :
    Option (Thrown A) → HandlerState H F A
  | none => s
  | some x =>
    match c, x with
    | .connect _, .exception _ => s.record (.threw .connectHandler c x)
    | _, _ => (s.record (.threw .connectHandler c x)).setHandler .null

/-- `connect` or `error` of a connect handler that has its function is exactly: the default
handler is set, the function is called, with any exception kept from the caller; and then the
handler is the one that the function has set, unless it has thrown out of `error`, or thrown
something that is no `std::exception`, when the default one is set again. -/
theorem connectHandler_iff (hc : c.outcome = some ec) (hconn : s.conn = some f) :
    Executes (.noexcept .connectHandler c) s s' r ↔
      r = none ∧ ∃ t x, Executes .application (s.takeConnector f ec) t x ∧
        s' = t.afterConnector c x := by
  have hspent : ∀ {t x e}, Executes .application (s.takeConnector f ec) t x →
      (t.record e).conn = none := fun h => (h.spends.of_none rfl).1
  constructor
  · intro h
    cases h with
    | returns h => exact ⟨rfl, s', none, h.of_connector hc hconn, rfl⟩
    | @throws _ t _ _ _ _ x hne h hreport =>
        have happ := h.of_connector hc hconn
        cases c with
        | connect ep =>
            cases x with
            | exception e =>
                obtain ⟨rfl, rfl⟩ := hreport.of_ignored rfl
                exact ⟨rfl, t, _, happ, rfl⟩
            | unknown =>
                obtain ⟨rfl, rfl⟩ := hreport.of_spent rfl (hspent happ)
                exact ⟨rfl, t, _, happ, rfl⟩
        | error ec => exact absurd rfl (hne ec)
        | read | write | except | close => cases hc
    | errorThrows h hreport =>
        have happ := h.of_connector hc hconn
        obtain ⟨rfl, -⟩ := hreport.of_noConnector rfl (hspent happ)
        exact ⟨rfl, _, _, happ, rfl⟩
    | errorThrowsTwice h hreport =>
        have happ := h.of_connector hc hconn
        cases (hreport.of_noConnector rfl (hspent happ)).2
  · rintro ⟨rfl, t, x, happ, rfl⟩
    have himpl := Executes.connector hc hconn happ
    cases x with
    | none => exact .returns himpl
    | some x =>
        cases c with
        | connect ep =>
            cases x with
            | exception e => exact .throws (by simp) himpl (.returns (.ignored rfl))
            | unknown =>
                apply Executes.throws (by simp) himpl
                exact .returns (.noConnector rfl (hspent happ) .dummy)
        | error ec => exact .errorThrows himpl (.noConnector rfl (hspent happ) .dummy)
        | read | write | except | close => cases hc

/-- The function sets the handler of the application and throws what is no `std::exception`: the
handler is lost. -/
theorem connectHandler_iff_reset :
    ∃ s' : HandlerState ℕ ℕ ℕ,
      Executes (.noexcept .connectHandler (.connect 1)) (.connecting 5 .dummy) s' none ∧
        s'.handler = .dummy := by
  have happ : Executes .application ((HandlerState.connecting 5 .dummy).takeConnector 5 .success)
      (((HandlerState.connecting 5 .dummy).takeConnector 5 .success).setHandler (.plain 7))
      (some (.unknown : Thrown ℕ)) := .setHandler (.plain 7) .ends
  exact ⟨_, (connectHandler_iff (c := .connect 1) rfl rfl).mpr ⟨rfl, _, _, happ, rfl⟩, rfl⟩

end ConnectHandler

/-! ## A session that `service::connect` makes for a function -/

section Sessions

variable {f : F} {serviceHandler : NoexceptHandler H} {es : List (Option (HandlerCall A))}
  {s : HandlerState H F A}

end Sessions

end Minapp
