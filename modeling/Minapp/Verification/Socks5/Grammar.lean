import Minapp.Model.Socks5
import Mathlib.Data.List.Infix

/-! The handshake as a grammar: what the bytes that a client sends mean, read from the front,
and how a client writes them. -/

namespace Minapp

namespace Socks5

/-! ## Reading -/

/-- The next `n` bytes, and what follows. -/
def takeBytes (n : ℕ) (input : List Byte) : Option (List Byte × List Byte) :=
  if input.length < n then none else some (input.take n, input.drop n)

/-- A string after its length byte. -/
def takeField : List Byte → Option (List Byte × List Byte)
  | [] => none
  | n :: input => takeBytes n.toNat input

/-- What is done once a part of the input is there. -/
def whenTaken (taken : Option (List Byte × List Byte))
    (k : List Byte → List Byte → List Socks5Action) : List Socks5Action :=
  match taken with
  | none => []
  | some (bytes, input) => k bytes input

def decodeV4 (address input : List Byte) : List Socks5Action :=
  whenTaken (takeBytes 2 input) fun bytes _ => [.connectV4 address (port bytes)]

def decodeV6 (address input : List Byte) : List Socks5Action :=
  whenTaken (takeBytes 2 input) fun bytes _ => [.connectV6 address (port bytes)]

def decodeDomain (domain input : List Byte) : List Socks5Action :=
  whenTaken (takeBytes 2 input) fun bytes _ => [.resolve domain (port bytes)]

def decodeRequest (input : List Byte) : List Socks5Action :=
  whenTaken (takeBytes 4 input) fun head input =>
    if byteAt head 0 ≠ 5 then [.throws "Unsupported SOCKS request VER"]
    else if byteAt head 1 ≠ 1 then [.throws "Unsupported SOCKS request CMD"]
    else if byteAt head 2 ≠ 0 then [.throws "Unsupported SOCKS request RSV"]
    else if byteAt head 3 = 1 then whenTaken (takeBytes 4 input) decodeV4
    else if byteAt head 3 = 4 then whenTaken (takeBytes 16 input) decodeV6
    else if byteAt head 3 = 3 then whenTaken (takeField input) decodeDomain
    else [.throws "Unsupported SOCKS request ATYP"]

def decodePassword (usr pwd input : List Byte) : List Socks5Action :=
  [.credentials usr pwd, .write [1, 0]] ++ decodeRequest input

def decodeUsername (usr input : List Byte) : List Socks5Action :=
  whenTaken (takeField input) (decodePassword usr)

def decodeLogin (input : List Byte) : List Socks5Action :=
  whenTaken (takeBytes 1 input) fun version input =>
    if byteAt version 0 ≠ 1 then [.throws "Unsupported USERNAME/PASSWORD VER"]
    else whenTaken (takeField input) decodeUsername

def decodeMethods (methods input : List Byte) : List Socks5Action :=
  if methods.any (·.toNat = 2) then .write [5, 2] :: decodeLogin input
  else if methods.any (·.toNat = 0) then .write [5, 0] :: decodeRequest input
  else [.write [5, 0xFF]]

/-- What the server does for what a client sends. -/
def decode (input : List Byte) : List Socks5Action :=
  whenTaken (takeBytes 1 input) fun version input =>
    if byteAt version 0 ≠ 5 then [.throws "Unsupported METHODS VER"]
    else whenTaken (takeField input) decodeMethods

/-! ## Writing -/

/-- A string that a length byte can announce. -/
abbrev Field := { bytes : List Byte // bytes.length < 256 }

abbrev Address (n : ℕ) := { bytes : List Byte // bytes.length = n }

inductive Target where
  | v4 (address : Address 4) (port : UInt16)
  | v6 (address : Address 16) (port : UInt16)
  | domain (name : Field) (port : UInt16)

/-- What a client sends that names a target: the methods it offers, its name and password if one
of them is the second, and the target. -/
inductive Handshake where
  | login (methods : Field) (offered : (2 : Byte) ∈ methods.1) (usr pwd : Field) (target : Target)
  | plain (methods : Field) (offered : (0 : Byte) ∈ methods.1) (login : (2 : Byte) ∉ methods.1)
      (target : Target)

def Field.encode (field : Field) : List Byte := UInt8.ofNat field.1.length :: field.1

def encodePort (port : UInt16) : List Byte :=
  [UInt8.ofNat (port.toNat / 256), UInt8.ofNat (port.toNat % 256)]

def Target.encode : Target → List Byte
  | .v4 address port => 1 :: address.1 ++ encodePort port
  | .v6 address port => 4 :: address.1 ++ encodePort port
  | .domain name port => 3 :: name.encode ++ encodePort port

def Handshake.encode : Handshake → List Byte
  | .login methods _ usr pwd target =>
    5 :: methods.encode ++ (1 :: usr.encode ++ (pwd.encode ++ ([5, 1, 0] ++ target.encode)))
  | .plain methods _ _ target => 5 :: methods.encode ++ ([5, 1, 0] ++ target.encode)

def Target.action : Target → Socks5Action
  | .v4 address port => .connectV4 address.1 port.toNat
  | .v6 address port => .connectV6 address.1 port.toNat
  | .domain name port => .resolve name.1 port.toNat

/-- What the server does for it. -/
def Handshake.actions : Handshake → List Socks5Action
  | .login _ _ usr pwd target =>
    [.write [5, 2], .credentials usr.1 pwd.1, .write [1, 0], target.action]
  | .plain _ _ _ target => [.write [5, 0], target.action]

/-! ## What is written is read -/

theorem takeBytes_append {bytes : List Byte} {n : ℕ} (h : bytes.length = n) (input : List Byte) :
    takeBytes n (bytes ++ input) = some (bytes, input) := by
  subst h
  simp [takeBytes]

theorem takeBytes_eq_some {n : ℕ} {input bytes rest : List Byte}
    (h : takeBytes n input = some (bytes, rest)) : bytes.length = n ∧ input = bytes ++ rest := by
  rw [takeBytes] at h
  split at h
  · cases h
  · rename_i hle
    obtain ⟨rfl, rfl⟩ := Prod.mk.inj (Option.some.inj h)
    exact ⟨List.length_take_of_le (Nat.not_lt.mp hle), (List.take_append_drop n input).symm⟩

theorem takeField_encode (field : Field) (input : List Byte) :
    takeField (field.encode ++ input) = some (field.1, input) := by
  have hlen : (UInt8.ofNat field.1.length).toNat = field.1.length := by
    rw [UInt8.toNat_ofNat']
    exact Nat.mod_eq_of_lt field.2
  exact takeBytes_append hlen.symm input

theorem takeField_eq_some {input bytes rest : List Byte}
    (h : takeField input = some (bytes, rest)) :
    ∃ field : Field, field.1 = bytes ∧ input = field.encode ++ rest := by
  cases input with
  | nil => cases h
  | cons n input =>
      obtain ⟨hlen, rfl⟩ := takeBytes_eq_some h
      refine ⟨⟨bytes, hlen ▸ n.toNat_lt⟩, rfl, ?_⟩
      have hn : UInt8.ofNat bytes.length = n := by
        rw [hlen]
        exact UInt8.ofNat_toNat
      simp [Field.encode, hn]

theorem port_encodePort (p : UInt16) : port (encodePort p) = p.toNat := by
  have hlt := p.toNat_lt
  have hhigh : (UInt8.ofNat (p.toNat / 256)).toNat = p.toNat / 256 := by
    rw [UInt8.toNat_ofNat']
    omega
  have hlow : (UInt8.ofNat (p.toNat % 256)).toNat = p.toNat % 256 := by
    rw [UInt8.toNat_ofNat']
    omega
  calc port (encodePort p)
      = (UInt8.ofNat (p.toNat / 256)).toNat * 256 + (UInt8.ofNat (p.toNat % 256)).toNat := rfl
    _ = p.toNat := by
      rw [hhigh, hlow]
      omega

theorem exists_encodePort {bytes : List Byte} (h : bytes.length = 2) :
    ∃ p : UInt16, encodePort p = bytes := by
  obtain ⟨a, b, rfl⟩ := List.length_eq_two.mp h
  have ha := a.toNat_lt
  have hb := b.toNat_lt
  have hport : (UInt16.ofNat (a.toNat * 256 + b.toNat)).toNat = a.toNat * 256 + b.toNat := by
    rw [UInt16.toNat_ofNat']
    omega
  refine ⟨UInt16.ofNat (a.toNat * 256 + b.toNat), ?_⟩
  have hhigh : (a.toNat * 256 + b.toNat) / 256 = a.toNat := by omega
  have hlow : (a.toNat * 256 + b.toNat) % 256 = b.toNat := by omega
  rw [encodePort, hport, hhigh, hlow, UInt8.ofNat_toNat, UInt8.ofNat_toNat]

@[simp] theorem whenTaken_none (k : List Byte → List Byte → List Socks5Action) :
    whenTaken none k = [] := rfl

@[simp] theorem whenTaken_some (bytes rest : List Byte)
    (k : List Byte → List Byte → List Socks5Action) :
    whenTaken (some (bytes, rest)) k = k bytes rest := rfl

theorem exists_of_mem_whenTaken {taken : Option (List Byte × List Byte)}
    {k : List Byte → List Byte → List Socks5Action} {a : Socks5Action}
    (h : a ∈ whenTaken taken k) :
    ∃ bytes rest, taken = some (bytes, rest) ∧ a ∈ k bytes rest := by
  cases taken with
  | none => cases h
  | some taken => exact ⟨taken.1, taken.2, rfl, h⟩

@[simp] theorem takeBytes_one (b : Byte) (input : List Byte) :
    takeBytes 1 (b :: input) = some ([b], input) :=
  takeBytes_append (show [b].length = 1 from rfl) input

@[simp] theorem takeBytes_four (a b c d : Byte) (input : List Byte) :
    takeBytes 4 (a :: b :: c :: d :: input) = some ([a, b, c, d], input) :=
  takeBytes_append (show [a, b, c, d].length = 4 from rfl) input

@[simp] theorem takeBytes_encodePort (p : UInt16) (input : List Byte) :
    takeBytes 2 (encodePort p ++ input) = some (encodePort p, input) := takeBytes_append rfl input

theorem decodeRequest_encode (target : Target) (rest : List Byte) :
    decodeRequest (5 :: 1 :: 0 :: (target.encode ++ rest)) = [target.action] := by
  cases target with
  | v4 address p =>
      simp [decodeRequest, Target.encode, byteAt, takeBytes_append address.2, decodeV4,
        port_encodePort, Target.action]
  | v6 address p =>
      simp [decodeRequest, Target.encode, byteAt, takeBytes_append address.2, decodeV6,
        port_encodePort, Target.action]
  | domain name p =>
      simp [decodeRequest, Target.encode, byteAt, takeField_encode, decodeDomain, port_encodePort,
        Target.action]

theorem any_toNat {methods : List Byte} {m : Byte} {n : ℕ} (hm : m.toNat = n) :
    methods.any (·.toNat = n) = true ↔ m ∈ methods := by
  subst hm
  rw [List.any_eq_true]
  constructor
  · rintro ⟨x, hx, heq⟩
    obtain rfl := UInt8.toNat_inj.mp (of_decide_eq_true heq)
    exact hx
  · exact fun hm => ⟨m, hm, decide_eq_true rfl⟩

theorem decodeLogin_encode (usr pwd : Field) (target : Target) (rest : List Byte) :
    decodeLogin (1 :: (usr.encode ++ (pwd.encode ++ 5 :: 1 :: 0 :: (target.encode ++ rest)))) =
      [.credentials usr.1 pwd.1, .write [1, 0], target.action] := by
  simp [decodeLogin, byteAt, takeField_encode, decodeUsername, decodePassword,
    decodeRequest_encode]

/-- The server does for a handshake what it asks for, whatever follows. -/
theorem decode_encode (handshake : Handshake) (rest : List Byte) :
    decode (handshake.encode ++ rest) = handshake.actions := by
  cases handshake with
  | login methods offered usr pwd target =>
      have hoffered : methods.1.any (·.toNat = 2) = true := (any_toNat rfl).mpr offered
      simp [decode, Handshake.encode, byteAt, takeField_encode, decodeMethods, hoffered,
        decodeLogin_encode, Handshake.actions]
  | plain methods offered login target =>
      have hlogin : methods.1.any (·.toNat = 2) = false := by
        rw [← Bool.not_eq_true]
        exact mt (any_toNat (m := 2) rfl).mp login
      have hoffered : methods.1.any (·.toNat = 0) = true := (any_toNat rfl).mpr offered
      simp [decode, Handshake.encode, byteAt, takeField_encode, decodeMethods, hlogin, hoffered,
        decodeRequest_encode, Handshake.actions]

/-! ## What is read was written -/

theorem eq_of_byteAt {b : Byte} {n : ℕ} (h : b.toNat = n) : b = UInt8.ofNat n := by
  rw [← h, UInt8.ofNat_toNat]

/-- The port that a target ends with. -/
theorem exists_of_mem_port {input : List Byte} {a : Socks5Action} {f : List Byte → Socks5Action}
    (h : a ∈ whenTaken (takeBytes 2 input) fun bytes _ => [f bytes]) :
    ∃ (p : UInt16) (rest : List Byte), input = encodePort p ++ rest := by
  obtain ⟨bytes, rest, htaken, -⟩ := exists_of_mem_whenTaken h
  obtain ⟨hlen, hinput⟩ := takeBytes_eq_some htaken
  obtain ⟨p, hp⟩ := exists_encodePort hlen
  exact ⟨p, rest, hp ▸ hinput⟩

theorem exists_of_mem_decodeRequest {input : List Byte} {target : Target}
    (hmem : target.action ∈ decodeRequest input) :
    ∃ (t : Target) (rest : List Byte), input = 5 :: 1 :: 0 :: (t.encode ++ rest) := by
  have hthrows : ∀ what, target.action ≠ .throws what := by
    intro what
    cases target <;> simp [Target.action]
  obtain ⟨head, input', htaken, h⟩ := exists_of_mem_whenTaken hmem
  obtain ⟨hlen, rfl⟩ := takeBytes_eq_some htaken
  obtain ⟨b₀, b₁, b₂, b₃, rfl⟩ : ∃ b₀ b₁ b₂ b₃, head = [b₀, b₁, b₂, b₃] := by
    match head, hlen with
    | [b₀, b₁, b₂, b₃], _ => exact ⟨b₀, b₁, b₂, b₃, rfl⟩
  simp only [byteAt, List.getD_cons_zero, List.getD_cons_succ] at h
  split_ifs at h with h₀ h₁ h₂ h₃ h₄ h₅
  all_goals first
    | exact absurd (List.mem_singleton.mp h) (hthrows _)
    | obtain rfl := eq_of_byteAt (not_not.mp h₀)
      obtain rfl := eq_of_byteAt (not_not.mp h₁)
      obtain rfl := eq_of_byteAt (not_not.mp h₂)
  · obtain rfl := eq_of_byteAt h₃
    obtain ⟨address, input, htaken, hport⟩ := exists_of_mem_whenTaken h
    obtain ⟨hlen, rfl⟩ := takeBytes_eq_some htaken
    obtain ⟨p, rest, rfl⟩ := exists_of_mem_port hport
    exact ⟨.v4 ⟨address, hlen⟩ p, rest, by simp [Target.encode]⟩
  · obtain rfl := eq_of_byteAt h₄
    obtain ⟨address, input, htaken, hport⟩ := exists_of_mem_whenTaken h
    obtain ⟨hlen, rfl⟩ := takeBytes_eq_some htaken
    obtain ⟨p, rest, rfl⟩ := exists_of_mem_port hport
    exact ⟨.v6 ⟨address, hlen⟩ p, rest, by simp [Target.encode]⟩
  · obtain rfl := eq_of_byteAt h₅
    obtain ⟨name, input, htaken, hport⟩ := exists_of_mem_whenTaken h
    obtain ⟨field, rfl, rfl⟩ := takeField_eq_some htaken
    obtain ⟨p, rest, rfl⟩ := exists_of_mem_port hport
    exact ⟨.domain field p, rest, by simp [Target.encode]⟩

theorem exists_of_mem_decodeLogin {input : List Byte} {target : Target}
    (hmem : target.action ∈ decodeLogin input) :
    ∃ (usr pwd : Field) (t : Target) (rest : List Byte),
      input = 1 :: (usr.encode ++ (pwd.encode ++ 5 :: 1 :: 0 :: (t.encode ++ rest))) := by
  obtain ⟨version, input', htaken, h⟩ := exists_of_mem_whenTaken hmem
  obtain ⟨hlen, rfl⟩ := takeBytes_eq_some htaken
  obtain ⟨b, rfl⟩ := List.length_eq_one_iff.mp hlen
  simp only [byteAt, List.getD_cons_zero] at h
  split_ifs at h with hb
  · cases target <;> simp [Target.action] at h
  · obtain rfl := eq_of_byteAt (not_not.mp hb)
    obtain ⟨usr, input, htaken, husr⟩ := exists_of_mem_whenTaken h
    obtain ⟨usr, rfl, rfl⟩ := takeField_eq_some htaken
    obtain ⟨pwd, input, htaken, hpwd⟩ := exists_of_mem_whenTaken husr
    obtain ⟨pwd, rfl, rfl⟩ := takeField_eq_some htaken
    have hrequest : target.action ∈ decodeRequest input := by
      rw [decodePassword] at hpwd
      cases target <;> simpa [Target.action] using hpwd
    obtain ⟨t, rest, rfl⟩ := exists_of_mem_decodeRequest hrequest
    exact ⟨usr, pwd, t, rest, by simp⟩

/-- What makes the server go to a target begins with a handshake. -/
theorem exists_handshake_of_mem {input : List Byte} {target : Target}
    (hmem : target.action ∈ decode input) :
    ∃ (handshake : Handshake) (rest : List Byte), input = handshake.encode ++ rest := by
  obtain ⟨version, input', htaken, h⟩ := exists_of_mem_whenTaken hmem
  obtain ⟨hlen, rfl⟩ := takeBytes_eq_some htaken
  obtain ⟨b, rfl⟩ := List.length_eq_one_iff.mp hlen
  simp only [byteAt, List.getD_cons_zero] at h
  split_ifs at h with hb
  · cases target <;> simp [Target.action] at h
  · obtain rfl := eq_of_byteAt (not_not.mp hb)
    obtain ⟨methods, input, htaken, hmethods⟩ := exists_of_mem_whenTaken h
    obtain ⟨methods, rfl, rfl⟩ := takeField_eq_some htaken
    rw [decodeMethods] at hmethods
    split_ifs at hmethods with hlogin hplain
    · have h : target.action ∈ decodeLogin input := by
        cases target <;> simpa [Target.action] using hmethods
      obtain ⟨usr, pwd, t, rest, rfl⟩ := exists_of_mem_decodeLogin h
      exact ⟨.login methods ((any_toNat rfl).mp hlogin) usr pwd t, rest,
        by simp [Handshake.encode]⟩
    · have h : target.action ∈ decodeRequest input := by
        cases target <;> simpa [Target.action] using hmethods
      obtain ⟨t, rest, rfl⟩ := exists_of_mem_decodeRequest h
      exact ⟨.plain methods ((any_toNat rfl).mp hplain) (mt (any_toNat rfl).mpr hlogin) t, rest,
        by simp [Handshake.encode]⟩
    · cases target <;> simp [Target.action] at hmethods

end Socks5

end Minapp
