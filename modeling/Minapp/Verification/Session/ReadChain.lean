import Minapp.Library.Token
import Minapp.Verification.Session.Steps
import Mathlib.Data.List.Basic

/-! # The read path is never entered twice

One activation after the other connects a session and reads, and each of them hands over to an
operation, or to nobody. So no two of them touch the receive buffer at the same time, and the
upcalls they make are ordered. -/

namespace Minapp

variable {T β : Type*}

/-- The places of a callback that connects or reads, up to where it hands over or ends. -/
def Place.inChain : Place β → Bool
  | .storeConnected | .remoteEndpoint | .connectUpcall | .connectError | .readExchange
  | .readProtocol | .readNone | .readDone | .readUpcall | .readError => true
  | _ => false

/-- The places up to the connect upcall. -/
def Place.beforeConnect : Place β → Bool
  | .storeConnected | .remoteEndpoint | .connectUpcall | .connectError => true
  | _ => false

/-- The operations that connect or read, with the call of `connect` that is to come. -/
def SessionState.outstanding (s : SessionState T β) : ℕ :=
  s.creating.toNat + s.connects + s.reads

def Upcall.isData : Upcall β → Bool
  | .connect | .read => true
  | _ => false

/-- The connect and the read upcalls so far. -/
def SessionState.dataUpcalls (s : SessionState T β) : List (Upcall β) :=
  s.upcalls.filter Upcall.isData

/-- The connect upcall comes first, and once; all others are reads. -/
def ConnectedFirst (upcalls : List (Upcall β)) : Prop :=
  ∃ n, upcalls = .connect :: List.replicate n .read

namespace SessionState

variable {a : T} {s s' : SessionState T β} {k k' : Place β} {e : SessionEvent β}

/-- No step starts a second chain. -/
theorem outstanding_localStep (hstep : LocalStep a s k e s' k') :
    s'.outstanding + k'.inChain.toNat ≤ s.outstanding + k.inChain.toNat := by
  cases hstep with
  | startAccepted hcreating | startConnecting hcreating =>
      simp only [outstanding, Place.inChain, hcreating, Bool.toNat_true, Bool.toNat_false]
      omega
  | connected hpos | connectFailed hpos | received hpos | readFailed hpos =>
      simp only [outstanding, Place.inChain, Bool.toNat_true, Bool.toNat_false]
      omega
  | readAsync | doneAsync =>
      simp only [outstanding, Place.inChain, Bool.toNat_true, Bool.toNat_false]
      omega
  | _ => simp [outstanding, upcall, Place.inChain]

/-- What is known of the upcalls while a connect or a read is outstanding. -/
structure ChainOk (s : SessionState T β) : Prop where
  connecting : 0 < s.creating.toNat + s.connects → s.dataUpcalls = []
  reading : 0 < s.reads → ConnectedFirst s.dataUpcalls
  always : s.dataUpcalls = [] ∨ ConnectedFirst s.dataUpcalls

/-- What an activation of the chain knows of the upcalls. -/
structure InChain (s : SessionState T β) (k : Place β) : Prop where
  before : k.beforeConnect = true → s.dataUpcalls = []
  after : k.inChain = true → k.beforeConnect = false → ConnectedFirst s.dataUpcalls

theorem dataUpcalls_upcall (s : SessionState T β) (u : Upcall β) :
    (s.upcall u).dataUpcalls = s.dataUpcalls ++ if u.isData then [u] else [] := by
  rw [dataUpcalls, upcall, List.filter_append]
  cases h : u.isData <;> simp [dataUpcalls, h]

/-- Outside the chain nobody knows anything. -/
theorem inChain_of_not {s : SessionState T β} {k : Place β} (hk : k.inChain = false) :
    InChain s k := by
  constructor
  · intro hbefore
    cases k <;> simp_all [Place.inChain, Place.beforeConnect]
  · intro h
    rw [hk] at h
    cases h

theorem ChainOk.of_same (hs : s.ChainOk) (hdata : s'.dataUpcalls = s.dataUpcalls)
    (hconnects : s'.creating.toNat + s'.connects ≤ s.creating.toNat + s.connects)
    (hreads : s'.reads ≤ s.reads) : s'.ChainOk := by
  refine ⟨fun h => ?_, fun h => ?_, ?_⟩
  · rw [hdata]
    exact hs.connecting (Nat.lt_of_lt_of_le h hconnects)
  · rw [hdata]
    exact hs.reading (Nat.lt_of_lt_of_le h hreads)
  · rw [hdata]
    exact hs.always

/-- An upcall that reports data leaves nothing outstanding. -/
theorem chainOk_of_connected (hs : s.outstanding = 0) (h : ConnectedFirst s.dataUpcalls) :
    s.ChainOk := by
  rw [outstanding] at hs
  exact ⟨fun hpos => absurd hpos (by omega), fun _ => h, .inr h⟩

theorem chain_localStep (hs : s.ChainOk) (hk : InChain s k)
    (hzero : k.inChain = true → s.outstanding = 0) (hstep : LocalStep a s k e s' k') :
    s'.ChainOk ∧ InChain s' k' ∧ (k.inChain = false → s'.dataUpcalls = s.dataUpcalls) := by
  cases hstep with
  | connectUpcall =>
      have hconnected : ConnectedFirst (s.upcall .connect).dataUpcalls := by
        rw [dataUpcalls_upcall, hk.before rfl]
        exact ⟨0, rfl⟩
      exact ⟨chainOk_of_connected (hzero rfl) hconnected,
        ⟨fun h => absurd h Bool.false_ne_true, fun _ _ => hconnected⟩,
        fun h => absurd h (by simp [Place.inChain])⟩
  | readUpcall =>
      have hconnected : ConnectedFirst (s.upcall .read).dataUpcalls := by
        obtain ⟨n, hn⟩ := hk.after rfl rfl
        refine ⟨n + 1, ?_⟩
        rw [dataUpcalls_upcall, hn, List.replicate_succ']
        rfl
      exact ⟨chainOk_of_connected (hzero rfl) hconnected,
        ⟨fun h => absurd h Bool.false_ne_true, fun _ _ => hconnected⟩,
        fun h => absurd h (by simp [Place.inChain])⟩
  | connectError | readError =>
      have hdata : (s.upcall .error).dataUpcalls = s.dataUpcalls :=
        (dataUpcalls_upcall s .error).trans (List.append_nil _)
      exact ⟨hs.of_same hdata (Nat.le_refl _) (Nat.le_refl _), inChain_of_not rfl, fun _ => hdata⟩
  | closeUpcall | writeUpcall | writeError =>
      have hdata : ∀ u : Upcall β, u.isData = false → (s.upcall u).dataUpcalls = s.dataUpcalls := by
        intro u hu
        rw [dataUpcalls_upcall, hu]
        exact List.append_nil _
      exact ⟨hs.of_same (hdata _ rfl) (Nat.le_refl _) (Nat.le_refl _), inChain_of_not rfl,
        fun _ => hdata _ rfl⟩
  | startAccepted hcreating =>
      have hone : s.creating.toNat = 1 := by rw [hcreating]; rfl
      have hnil : s.dataUpcalls = [] := hs.connecting (by omega)
      exact ⟨hs.of_same rfl (by simp) (Nat.le_refl _),
        ⟨fun _ => hnil, fun _ h => absurd h (by simp [Place.beforeConnect])⟩, fun _ => rfl⟩
  | startConnecting hcreating =>
      exact ⟨hs.of_same rfl (by simp [hcreating, Nat.add_comm]) (Nat.le_refl _), inChain_of_not rfl,
        fun _ => rfl⟩
  | connected hpos | connectFailed hpos =>
      have hnil : s.dataUpcalls = [] := hs.connecting (by omega)
      exact ⟨hs.of_same rfl (by simp) (Nat.le_refl _),
        ⟨fun _ => hnil, fun _ h => absurd h (by simp [Place.beforeConnect])⟩, fun _ => rfl⟩
  | received hpos | readFailed hpos =>
      have hconnected := hs.reading hpos
      exact ⟨hs.of_same rfl (Nat.le_refl _) (Nat.sub_le _ _),
        ⟨fun h => absurd h Bool.false_ne_true, fun _ _ => hconnected⟩, fun _ => rfl⟩
  | storeConnected | endpointFound =>
      exact ⟨hs.of_same rfl (Nat.le_refl _) (Nat.le_refl _),
        ⟨fun _ => hk.before rfl, fun _ h => absurd h (by simp [Place.beforeConnect])⟩,
        fun _ => rfl⟩
  | readAsync | doneAsync =>
      have hconnected := hk.after rfl rfl
      refine ⟨⟨fun h => ?_, fun _ => hconnected, .inr hconnected⟩, inChain_of_not rfl,
        fun _ => rfl⟩
      exact hs.connecting h
  | readExchanged | readGoOn | readStop | readDeliver | readFail | doneDeliver | doneFail =>
      have hconnected := hk.after rfl rfl
      exact ⟨hs.of_same rfl (Nat.le_refl _) (Nat.le_refl _),
        ⟨fun h => absurd h Bool.false_ne_true, fun _ _ => hconnected⟩, fun _ => rfl⟩
  | _ => exact ⟨hs.of_same rfl (Nat.le_refl _) (Nat.le_refl _), inChain_of_not rfl, fun _ => rfl⟩

end SessionState

namespace Session

open SessionState

variable [DecidableEq T] {c : Session T β}

structure ChainInv (c : Session T β) : Prop where
  token : c.OneToken outstanding Place.inChain
  shared : c.shared.ChainOk
  chain : ∀ a, InChain c.shared (c.pc a)

theorem chainInv (hc : (sessionSystem T β).Reachable c) : ChainInv c := by
  apply hc.invariant
  · rintro c ⟨accepted, rfl⟩
    refine ⟨⟨Nat.le_refl _, fun _ _ => rfl, fun a b ha => absurd ha Bool.false_ne_true⟩,
      ⟨fun _ => rfl, fun h => absurd h (Nat.lt_irrefl 0), .inl rfl⟩, fun _ => inChain_of_not rfl⟩
  · rintro c ⟨a, e⟩ d hi hd
    obtain ⟨s', k', hact, rfl⟩ := Config.step_eq_some hd
    have hstep := localStep_of_act hact
    obtain ⟨hshared, hself, hsame⟩ :=
      chain_localStep hi.shared (hi.chain a) hi.token.count_eq_zero hstep
    refine ⟨hi.token.move (outstanding_localStep hstep), hshared,
      Config.forall_pc_move hself fun b hne => ?_⟩
    -- the others know what they knew, or are outside the chain
    cases ha : (c.pc a).inChain with
    | true => exact inChain_of_not (hi.token.not_holds hne ha)
    | false =>
        have hdata := hsame ha
        obtain ⟨hbefore, hafter⟩ := hi.chain b
        rw [← hdata] at hbefore hafter
        exact ⟨hbefore, hafter⟩

end Session

/-- However the activations of a session are interleaved, at most one of them is connecting or
reading, and none while a connect or a read is outstanding, of which there is at most one; so the
upcalls are the connect upcall, and read upcalls after it. -/
theorem reads_never_overlap [DecidableEq T] (c : Session T β)
    (hc : (sessionSystem T β).Reachable c) :
    c.shared.connects + c.shared.reads ≤ 1 ∧
    (0 < c.shared.connects + c.shared.reads → ∀ a, (c.pc a).inChain = false) ∧
    (∀ a b, (c.pc a).inChain = true → (c.pc b).inChain = true → a = b) ∧
    (c.shared.dataUpcalls = [] ∨
      ∃ n, c.shared.dataUpcalls = .connect :: List.replicate n .read) := by
  obtain ⟨htoken, hshared, -⟩ := Session.chainInv hc
  have hle : c.shared.connects + c.shared.reads ≤ c.shared.outstanding := by
    rw [SessionState.outstanding]
    omega
  exact ⟨Nat.le_trans hle htoken.count_le, fun h => htoken.nobody (Nat.lt_of_lt_of_le h hle),
    htoken.unique, hshared.always⟩

/-- A read completes while another activation writes. -/
def readWhileWriting : List (Bool × SessionEvent ℕ) :=
  [(false, .connect), (false, .connectDone true), (false, .run), (false, .run), (false, .run),
    (false, .run), (false, .read .async), (true, .write [7]), (false, .readDone true), (true, .run),
    (false, .read .upcall), (false, .run)]

theorem reads_never_overlap_writing : ∃ c : Session Bool ℕ,
    (sessionSystem Bool ℕ).Reachable c ∧ (c.pc false).inChain = true ∧
      c.shared.dataUpcalls = [.connect, .read] ∧
      ∀ a b, (c.pc a).inChain = true → (c.pc b).inChain = true → a = b := by
  obtain ⟨c, hreach, hp⟩ := Session.exists_reachable_of_exec (fun _ _ => True) false
    readWhileWriting (fun c => decide ((c.pc false).inChain = true ∧
      c.shared.dataUpcalls = [.connect, .read])) (by decide +kernel)
  obtain ⟨hchain, hdata⟩ := of_decide_eq_true hp
  exact ⟨c, hreach.of_restrict, hchain, hdata, (reads_never_overlap c hreach.of_restrict).2.2.1⟩

end Minapp
