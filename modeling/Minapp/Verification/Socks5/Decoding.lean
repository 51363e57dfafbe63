import Minapp.Verification.Receive.Retained
import Minapp.Verification.Socks5.Grammar

/-! # The SOCKS5 server reads the handshake

However the stream is cut into chunks, what the coroutine does in its upcalls, with the bytes
it finds in the buffer, is what the stream means. -/

namespace Minapp

/-- What the session reads for the coroutine to go on. -/
def Socks5Place.settings : Socks5Place → Settings
  | .start | .passwordVersion | .ended => ⟨.fixed, 0, 1, []⟩
  | .methods | .username | .password => ⟨.prefix8, .doNotConsumeBuffer, 256, []⟩
  | .request => ⟨.fixed, 0, 4, []⟩
  | .v4Address => ⟨.fixed, .doNotConsumeBuffer, 4, []⟩
  | .v6Address => ⟨.fixed, .doNotConsumeBuffer, 16, []⟩
  | .domain => ⟨.prefix8, .doNotConsumeBuffer, 257, []⟩
  | .v4Port | .v6Port | .domainPort => ⟨.fixed, .doNotConsumeBuffer, 2, []⟩

namespace Socks5

/-- A string with its length byte. -/
def takeFieldFrame : List Byte → Option (List Byte × List Byte)
  | [] => none
  | n :: input => (takeBytes n.toNat input).map fun taken => (n :: taken.1, taken.2)

/-- The next frame for the coroutine, and what follows it. -/
def frame (c : Socks5) (input : List Byte) : Option (List Byte × List Byte) :=
  match c.place.settings.protocol with
  | .fixed => takeBytes c.place.settings.readBufferSize input
  | _ => takeFieldFrame input

/-- What is done for the rest of the input. -/
def rest (c : Socks5) (input : List Byte) : List Socks5Action :=
  match c.place with
  | .start => decode input
  | .methods => whenTaken (takeField input) decodeMethods
  | .passwordVersion => decodeLogin input
  | .username => whenTaken (takeField input) decodeUsername
  | .password => whenTaken (takeField input) (decodePassword (c.whole.drop 2))
  | .request => decodeRequest input
  | .v4Address => whenTaken (takeBytes 4 input) decodeV4
  | .v4Port => decodeV4 (c.whole.drop 4) input
  | .v6Address => whenTaken (takeBytes 16 input) decodeV6
  | .v6Port => decodeV6 (c.whole.drop 4) input
  | .domain => whenTaken (takeField input) decodeDomain
  | .domainPort => decodeDomain (c.whole.drop 5) input
  | .ended => []

end Socks5

/-- What the frames so far have left in the buffer for the coroutine to go on. -/
def Socks5Place.Fits (whole : List Byte) : Socks5Place → Prop
  | .methods | .username => whole.length = 1
  | .password => whole.length = 2 + Socks5.byteAt whole 1
  | .v4Address | .v6Address | .domain => whole.length = 4
  | .v4Port => whole.length = 8
  | .v6Port => whole.length = 20
  | .domainPort => whole.length = 5 + Socks5.byteAt whole 4
  | .start | .passwordVersion | .request | .ended => True

namespace Socks5

/-- The session reads the next frame for the coroutine. -/
def awaiting (place : Socks5Place) (whole : List Byte) (actions : List Socks5Action) : Socks5 :=
  ⟨place, place.settings, whole, actions⟩

/-- The coroutine has been resumed for one frame after the other. -/
structure Valid (c : Socks5) : Prop where
  settings : c.place ≠ .ended → c.settings = c.place.settings
  fits : c.place.Fits c.whole

theorem Valid.eq_awaiting {c : Socks5} (hc : c.Valid) (hne : c.place ≠ .ended) :
    c = awaiting c.place c.whole c.actions := by
  have hset := hc.settings hne
  obtain ⟨place, settings, whole, actions⟩ := c
  change settings = place.settings at hset
  rw [hset]
  rfl

/-! ## One frame -/

/-- The coroutine does for a frame what comes first of `k`, and goes on with the rest. -/
def Proceeds (c : Socks5) (segment : List Byte) (k : List Byte → List Socks5Action) : Prop :=
  (c.read segment).Valid ∧ ∃ l, (c.read segment).actions = c.actions ++ l ∧
    ∀ input, k input = l ++ (c.read segment).rest input

theorem byteAt_append {p : List Byte} (q : List Byte) {i : ℕ} (h : i < p.length) :
    byteAt (p ++ q) i = byteAt p i := by
  rw [byteAt, byteAt, List.getD_eq_getElem?_getD, List.getD_eq_getElem?_getD,
    List.getElem?_append_left h]

section Frames

variable {c : Socks5} {segment whole : List Byte} {k : List Byte → List Socks5Action}
  {place : Socks5Place} {actions l : List Socks5Action}

theorem Proceeds.of_awaiting (hread : c.read segment = awaiting place whole actions)
    (hfits : place.Fits whole) (hactions : actions = c.actions ++ l)
    (hk : ∀ input, k input = l ++ (awaiting place whole actions).rest input) :
    c.Proceeds segment k := by
  rw [Proceeds, hread]
  exact ⟨⟨fun _ => rfl, hfits⟩, l, hactions, hk⟩

theorem Proceeds.of_ended {settings : Settings}
    (hread : c.read segment = ⟨.ended, settings, whole, c.actions ++ l⟩)
    (hk : ∀ input, k input = l) : c.Proceeds segment k := by
  rw [Proceeds, hread]
  exact ⟨⟨fun h => absurd rfl h, trivial⟩, l, rfl, fun input => (hk input).trans (by simp [rest])⟩

variable (whole segment actions)

theorem read_awaiting (place : Socks5Place) : (awaiting place whole actions).read segment =
    (awaiting place ((if place.settings.doNotConsume then whole else []) ++ segment)
      actions).resume ((if place.settings.doNotConsume then whole else []) ++ segment) segment :=
  rfl

/-- The part of the buffer that was complete before the last frame. -/
theorem take_whole (m : ℕ) {n : ℕ} (h : whole.length = m + n) :
    ((whole ++ segment).drop m).take n = whole.drop m := by
  rw [List.drop_append_of_le_length (by omega)]
  exact List.take_left' (by rw [List.length_drop]; omega)

theorem proceeds_start (hlen : segment.length = 1) :
    (awaiting .start whole actions).Proceeds segment fun input =>
      if byteAt segment 0 ≠ 5 then [.throws "Unsupported METHODS VER"]
      else whenTaken (takeField input) decodeMethods := by
  have hread : (awaiting .start whole actions).read segment =
      if byteAt segment 0 ≠ 5 then
        ⟨.ended, Socks5Place.settings .start, segment,
          actions ++ [.throws "Unsupported METHODS VER"]⟩
      else awaiting .methods segment actions := by
    rw [read_awaiting]
    rfl
  by_cases h : byteAt segment 0 = 5
  · rw [if_neg (not_not.mpr h)] at hread
    exact .of_awaiting hread hlen (List.append_nil _).symm fun input => if_neg (not_not.mpr h)
  · rw [if_pos h] at hread
    exact .of_ended hread fun input => if_pos h

theorem proceeds_methods (hfits : whole.length = 1) {n : Byte} {methods : List Byte}
    (hlen : methods.length = n.toNat) :
    (awaiting .methods whole actions).Proceeds (n :: methods) (decodeMethods methods) := by
  obtain ⟨v, rfl⟩ := List.length_eq_one_iff.mp hfits
  have hread : (awaiting .methods [v] actions).read (n :: methods) =
      if (methods.take n.toNat).any (·.toNat = 2) then
        awaiting .passwordVersion (v :: n :: methods) (actions ++ [.write [5, 2]])
      else if (methods.take n.toNat).any (·.toNat = 0) then
        awaiting .request (v :: n :: methods) (actions ++ [.write [5, 0]])
      else ⟨.ended, Socks5Place.settings .methods, v :: n :: methods,
        actions ++ [.write [5, 0xFF]]⟩ := by
    rw [read_awaiting, if_pos (by decide)]
    rfl
  rw [← hlen, List.take_length] at hread
  by_cases hlogin : methods.any (·.toNat = 2) = true
  · rw [if_pos hlogin] at hread
    exact .of_awaiting hread trivial rfl fun input => if_pos hlogin
  · rw [if_neg hlogin] at hread
    by_cases hplain : methods.any (·.toNat = 0) = true
    · rw [if_pos hplain] at hread
      exact .of_awaiting hread trivial rfl fun input => (if_neg hlogin).trans (if_pos hplain)
    · rw [if_neg hplain] at hread
      exact .of_ended hread fun input => (if_neg hlogin).trans (if_neg hplain)

theorem proceeds_passwordVersion (hlen : segment.length = 1) :
    (awaiting .passwordVersion whole actions).Proceeds segment fun input =>
      if byteAt segment 0 ≠ 1 then [.throws "Unsupported USERNAME/PASSWORD VER"]
      else whenTaken (takeField input) decodeUsername := by
  have hread : (awaiting .passwordVersion whole actions).read segment =
      if byteAt segment 0 ≠ 1 then
        ⟨.ended, Socks5Place.settings .passwordVersion, segment,
          actions ++ [.throws "Unsupported USERNAME/PASSWORD VER"]⟩
      else awaiting .username segment actions := by
    rw [read_awaiting]
    rfl
  by_cases h : byteAt segment 0 = 1
  · rw [if_neg (not_not.mpr h)] at hread
    exact .of_awaiting hread hlen (List.append_nil _).symm fun input => if_neg (not_not.mpr h)
  · rw [if_pos h] at hread
    exact .of_ended hread fun input => if_pos h

theorem proceeds_username (hfits : whole.length = 1) {n : Byte} {usr : List Byte}
    (hlen : usr.length = n.toNat) :
    (awaiting .username whole actions).Proceeds (n :: usr) (decodeUsername usr) := by
  obtain ⟨v, rfl⟩ := List.length_eq_one_iff.mp hfits
  have hread : (awaiting .username [v] actions).read (n :: usr) =
      awaiting .password (v :: n :: usr) actions := by
    rw [read_awaiting, if_pos (by decide)]
    rfl
  apply Proceeds.of_awaiting hread _ (List.append_nil _).symm fun input => rfl
  change usr.length + 1 + 1 = 2 + n.toNat
  omega

theorem proceeds_password (hfits : whole.length = 2 + byteAt whole 1) {n : Byte}
    {pwd : List Byte} (hlen : pwd.length = n.toNat) :
    (awaiting .password whole actions).Proceeds (n :: pwd) (decodePassword (whole.drop 2) pwd) := by
  have hread : (awaiting .password whole actions).read (n :: pwd) =
      awaiting .request (whole ++ n :: pwd)
        (actions ++ [.credentials (((whole ++ n :: pwd).drop 2).take (byteAt (whole ++ n :: pwd) 1))
          (pwd.take n.toNat)] ++ [.write [1, 0]]) := by
    rw [read_awaiting, if_pos (by decide)]
    rfl
  have hbyte : byteAt (whole ++ n :: pwd) 1 = byteAt whole 1 := byteAt_append _ (by omega)
  rw [hbyte, take_whole (n :: pwd) whole 2 hfits, ← hlen, List.take_length] at hread
  exact .of_awaiting hread trivial (List.append_assoc _ _ _) fun input => rfl

theorem proceeds_request (hlen : segment.length = 4) :
    (awaiting .request whole actions).Proceeds segment fun input =>
      if byteAt segment 0 ≠ 5 then [.throws "Unsupported SOCKS request VER"]
      else if byteAt segment 1 ≠ 1 then [.throws "Unsupported SOCKS request CMD"]
      else if byteAt segment 2 ≠ 0 then [.throws "Unsupported SOCKS request RSV"]
      else if byteAt segment 3 = 1 then whenTaken (takeBytes 4 input) decodeV4
      else if byteAt segment 3 = 4 then whenTaken (takeBytes 16 input) decodeV6
      else if byteAt segment 3 = 3 then whenTaken (takeField input) decodeDomain
      else [.throws "Unsupported SOCKS request ATYP"] := by
  have hread : (awaiting .request whole actions).read segment =
      if byteAt segment 0 ≠ 5 then ⟨.ended, Socks5Place.settings .request, segment,
        actions ++ [.throws "Unsupported SOCKS request VER"]⟩
      else if byteAt segment 1 ≠ 1 then ⟨.ended, Socks5Place.settings .request, segment,
        actions ++ [.throws "Unsupported SOCKS request CMD"]⟩
      else if byteAt segment 2 ≠ 0 then ⟨.ended, Socks5Place.settings .request, segment,
        actions ++ [.throws "Unsupported SOCKS request RSV"]⟩
      else if byteAt segment 3 = 1 then awaiting .v4Address segment actions
      else if byteAt segment 3 = 4 then awaiting .v6Address segment actions
      else if byteAt segment 3 = 3 then awaiting .domain segment actions
      else ⟨.ended, Socks5Place.settings .request, segment,
        actions ++ [.throws "Unsupported SOCKS request ATYP"]⟩ := by
    rw [read_awaiting]
    rfl
  split_ifs at hread ⊢
  · exact .of_ended hread fun _ => rfl
  · exact .of_ended hread fun _ => rfl
  · exact .of_ended hread fun _ => rfl
  · exact .of_awaiting hread hlen (List.append_nil _).symm fun _ => rfl
  · exact .of_awaiting hread hlen (List.append_nil _).symm fun _ => rfl
  · exact .of_awaiting hread hlen (List.append_nil _).symm fun _ => rfl
  · exact .of_ended hread fun _ => rfl

theorem proceeds_v4Address (hfits : whole.length = 4) (hlen : segment.length = 4) :
    (awaiting .v4Address whole actions).Proceeds segment (decodeV4 segment) := by
  have hread : (awaiting .v4Address whole actions).read segment =
      awaiting .v4Port (whole ++ segment) actions := by
    rw [read_awaiting, if_pos (by decide)]
    rfl
  apply Proceeds.of_awaiting hread _ (List.append_nil _).symm fun input => _
  · change (whole ++ segment).length = 8
    rw [List.length_append]
    omega
  · intro input
    change _ = decodeV4 ((whole ++ segment).drop 4) input
    rw [List.drop_left' hfits]

theorem proceeds_v6Address (hfits : whole.length = 4) (hlen : segment.length = 16) :
    (awaiting .v6Address whole actions).Proceeds segment (decodeV6 segment) := by
  have hread : (awaiting .v6Address whole actions).read segment =
      awaiting .v6Port (whole ++ segment) actions := by
    rw [read_awaiting, if_pos (by decide)]
    rfl
  apply Proceeds.of_awaiting hread _ (List.append_nil _).symm fun input => _
  · change (whole ++ segment).length = 20
    rw [List.length_append]
    omega
  · intro input
    change _ = decodeV6 ((whole ++ segment).drop 4) input
    rw [List.drop_left' hfits]

theorem proceeds_domain (hfits : whole.length = 4) {n : Byte} {name : List Byte}
    (hlen : name.length = n.toNat) :
    (awaiting .domain whole actions).Proceeds (n :: name) (decodeDomain name) := by
  obtain ⟨b₀, b₁, b₂, b₃, rfl⟩ : ∃ b₀ b₁ b₂ b₃, whole = [b₀, b₁, b₂, b₃] := by
    match whole, hfits with
    | [b₀, b₁, b₂, b₃], _ => exact ⟨b₀, b₁, b₂, b₃, rfl⟩
  have hread : (awaiting .domain [b₀, b₁, b₂, b₃] actions).read (n :: name) =
      awaiting .domainPort (b₀ :: b₁ :: b₂ :: b₃ :: n :: name) actions := by
    rw [read_awaiting, if_pos (by decide)]
    rfl
  apply Proceeds.of_awaiting hread _ (List.append_nil _).symm fun input => rfl
  change name.length + 1 + 1 + 1 + 1 + 1 = 5 + n.toNat
  omega

theorem proceeds_v4Port (hfits : whole.length = 8) :
    (awaiting .v4Port whole actions).Proceeds segment
      fun _ => [.connectV4 (whole.drop 4) (port segment)] := by
  have hread : (awaiting .v4Port whole actions).read segment =
      ⟨.ended, ⟨.any, 0, 65536, []⟩, whole ++ segment,
        actions ++ [.connectV4 (((whole ++ segment).drop 4).take 4) (port segment)]⟩ := by
    rw [read_awaiting, if_pos (by decide)]
    rfl
  rw [take_whole segment whole 4 hfits] at hread
  exact .of_ended hread fun _ => rfl

theorem proceeds_v6Port (hfits : whole.length = 20) :
    (awaiting .v6Port whole actions).Proceeds segment
      fun _ => [.connectV6 (whole.drop 4) (port segment)] := by
  have hread : (awaiting .v6Port whole actions).read segment =
      ⟨.ended, ⟨.any, 0, 65536, []⟩, whole ++ segment,
        actions ++ [.connectV6 (((whole ++ segment).drop 4).take 16) (port segment)]⟩ := by
    rw [read_awaiting, if_pos (by decide)]
    rfl
  rw [take_whole segment whole 4 hfits] at hread
  exact .of_ended hread fun _ => rfl

theorem proceeds_domainPort (hfits : whole.length = 5 + byteAt whole 4) :
    (awaiting .domainPort whole actions).Proceeds segment
      fun _ => [.resolve (whole.drop 5) (port segment)] := by
  have hread : (awaiting .domainPort whole actions).read segment =
      ⟨.ended, Socks5Place.settings .domainPort, whole ++ segment,
        actions ++ [.resolve (((whole ++ segment).drop 5).take (byteAt (whole ++ segment) 4))
          (port segment)]⟩ := by
    rw [read_awaiting, if_pos (by decide)]
    rfl
  rw [byteAt_append segment (by omega), take_whole segment whole 5 hfits] at hread
  exact .of_ended hread fun _ => rfl

end Frames

/-! ## Where the coroutine is -/

/-- The frame that the coroutine waits for is not there yet, and nothing is done; or it is, and
is what comes first. -/
def Advances (c : Socks5) (input : List Byte) : Prop :=
  c.frame input = none ∧ c.rest input = [] ∨
    ∃ segment input', c.frame input = some (segment, input') ∧ (c.read segment).Valid ∧
      ∃ l, (c.read segment).actions = c.actions ++ l ∧
        c.rest input = l ++ (c.read segment).rest input'

section Places

variable {c : Socks5} {k : List Byte → List Byte → List Socks5Action}

theorem advances_of_bytes {n : ℕ}
    (h : ∀ segment, segment.length = n → c.Proceeds segment (k segment))
    (hframe : ∀ input, c.frame input = takeBytes n input)
    (hrest : ∀ input, c.rest input = whenTaken (takeBytes n input) k) (input : List Byte) :
    c.Advances input := by
  rw [Advances, hframe, hrest]
  cases htaken : takeBytes n input with
  | none => exact .inl ⟨rfl, rfl⟩
  | some taken =>
      obtain ⟨segment, input'⟩ := taken
      obtain ⟨hvalid, l, hactions, hk⟩ := h segment (takeBytes_eq_some htaken).1
      exact .inr ⟨segment, input', rfl, hvalid, l, hactions, hk input'⟩

theorem advances_of_field
    (h : ∀ (n : Byte) (bytes : List Byte), bytes.length = n.toNat →
      c.Proceeds (n :: bytes) (k bytes))
    (hframe : ∀ input, c.frame input = takeFieldFrame input)
    (hrest : ∀ input, c.rest input = whenTaken (takeField input) k) (input : List Byte) :
    c.Advances input := by
  rw [Advances, hframe, hrest]
  cases input with
  | nil => exact .inl ⟨rfl, rfl⟩
  | cons n input =>
      rw [takeField, takeFieldFrame]
      cases htaken : takeBytes n.toNat input with
      | none => exact .inl ⟨rfl, rfl⟩
      | some taken =>
          obtain ⟨bytes, input'⟩ := taken
          obtain ⟨hvalid, l, hactions, hk⟩ := h n bytes (takeBytes_eq_some htaken).1
          exact .inr ⟨n :: bytes, input', rfl, hvalid, l, hactions, hk input'⟩

theorem advances_awaiting {place : Socks5Place} {whole : List Byte} (hfits : place.Fits whole)
    (hne : place ≠ .ended) (actions : List Socks5Action) (input : List Byte) :
    (awaiting place whole actions).Advances input := by
  cases place with
  | ended => exact absurd rfl hne
  | start =>
      exact advances_of_bytes (fun segment hlen => proceeds_start segment _ _ hlen)
        (fun _ => rfl) (fun _ => rfl) input
  | methods =>
      exact advances_of_field (fun n bytes hlen => proceeds_methods _ _ hfits hlen)
        (fun _ => rfl) (fun _ => rfl) input
  | passwordVersion =>
      exact advances_of_bytes (fun segment hlen => proceeds_passwordVersion segment _ _ hlen)
        (fun _ => rfl) (fun _ => rfl) input
  | username =>
      exact advances_of_field (fun n bytes hlen => proceeds_username _ _ hfits hlen)
        (fun _ => rfl) (fun _ => rfl) input
  | password =>
      exact advances_of_field (fun n bytes hlen => proceeds_password _ _ hfits hlen)
        (fun _ => rfl) (fun _ => rfl) input
  | request =>
      exact advances_of_bytes (fun segment hlen => proceeds_request segment _ _ hlen)
        (fun _ => rfl) (fun _ => rfl) input
  | v4Address =>
      exact advances_of_bytes (fun segment hlen => proceeds_v4Address segment _ _ hfits hlen)
        (fun _ => rfl) (fun _ => rfl) input
  | v4Port =>
      exact advances_of_bytes (fun segment hlen => proceeds_v4Port segment _ _ hfits)
        (fun _ => rfl) (fun _ => rfl) input
  | v6Address =>
      exact advances_of_bytes (fun segment hlen => proceeds_v6Address segment _ _ hfits hlen)
        (fun _ => rfl) (fun _ => rfl) input
  | v6Port =>
      exact advances_of_bytes (fun segment hlen => proceeds_v6Port segment _ _ hfits)
        (fun _ => rfl) (fun _ => rfl) input
  | domain =>
      exact advances_of_field (fun n bytes hlen => proceeds_domain _ _ hfits hlen)
        (fun _ => rfl) (fun _ => rfl) input
  | domainPort =>
      exact advances_of_bytes (fun segment hlen => proceeds_domainPort segment _ _ hfits)
        (fun _ => rfl) (fun _ => rfl) input

theorem Valid.advances (hc : c.Valid) (hne : c.place ≠ .ended) (input : List Byte) :
    c.Advances input := by
  rw [hc.eq_awaiting hne]
  exact advances_awaiting hc.fits hne c.actions input

end Places

end Socks5

end Minapp
