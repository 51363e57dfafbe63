import Minapp.Verification.Socks5.Decoding

/-! # A client of the SOCKS5 server is served as its stream asks

The session under the handler delivers the frames of the reference parser, and these are the
ones that the coroutine waits for. -/

namespace Minapp

namespace Socks5

variable (c : Socks5) (segment : List Byte)

theorem whole_resume (whole data : List Byte) : (c.resume whole data).whole = c.whole := by
  obtain ⟨place, settings, w, actions⟩ := c
  cases place <;> simp only [resume, throws, does, goesOn, protocol] <;> split_ifs <;> rfl

theorem whole_read : (c.read segment).whole = c.kept ++ segment := whole_resume _ _ _

variable {c}

theorem read_of_ended (hc : c.place = .ended) :
    (c.read segment).place = .ended ∧ (c.read segment).actions = c.actions := by
  obtain ⟨place, settings, whole, actions⟩ := c
  obtain rfl : place = .ended := hc
  exact ⟨rfl, rfl⟩

/-- The settings are those of the place, whatever the segments are. -/
theorem settings_read (hc : c.place ≠ .ended → c.settings = c.place.settings)
    (hne : (c.read segment).place ≠ .ended) :
    (c.read segment).settings = (c.read segment).place.settings := by
  have hplace : c.place ≠ .ended := fun hended => hne (read_of_ended segment hended).1
  have hset := hc hplace
  obtain ⟨place, settings, whole, actions⟩ := c
  obtain rfl : settings = place.settings := hset
  revert hne
  change ((awaiting place whole actions).read segment).place ≠ .ended →
    ((awaiting place whole actions).read segment).settings =
      ((awaiting place whole actions).read segment).place.settings
  rw [read_awaiting]
  cases place with
  | start | methods | passwordVersion | request =>
      simp only [resume, awaiting, throws, does, goesOn, protocol]
      split_ifs <;> first | exact fun _ => rfl | exact fun hne => absurd rfl hne
  | username | password | v4Address | v6Address | domain => exact fun _ => rfl
  | v4Port | v6Port | domainPort | ended => exact fun hne => absurd rfl hne

end Socks5

open Socks5

theorem socks5_append (delivered : List (List Byte)) (segment : List Byte) :
    socks5 (delivered ++ [segment]) = (socks5 delivered).read segment := by
  rw [socks5, List.foldl_append]
  rfl

theorem settings_socks5 (delivered : List (List Byte)) :
    (socks5 delivered).place ≠ .ended →
      (socks5 delivered).settings = (socks5 delivered).place.settings := by
  induction delivered using List.reverseRecOn with
  | nil => exact fun _ => rfl
  | append_singleton delivered segment ih =>
      rw [socks5_append]
      exact settings_read segment ih

/-- The handler, which goes on with frames of one byte when the coroutine has ended. -/
def socks5Framing : ReadHandler := fun delivered =>
  ⟨[], if (socks5 delivered).place = .ended then Socks5Place.settings .ended
    else (socks5 delivered).settings⟩

theorem settings_socks5Framing (delivered : List (List Byte)) :
    (socks5Framing delivered).settings = (socks5 delivered).place.settings := by
  by_cases h : (socks5 delivered).place = .ended
  · simp only [socks5Framing, h, if_true]
  · simp only [socks5Framing, h, if_false]
    exact settings_socks5 delivered h

theorem Socks5Place.framing (place : Socks5Place) :
    place.settings.Framing ∧ place.settings.ignoreProtocol = false := by
  cases place <;> decide

theorem plain_socks5Framing : socks5Framing.Plain where
  framing delivered := by
    rw [settings_socks5Framing]
    exact (Socks5Place.framing _).1
  consumes _ := rfl
  shown delivered := by
    rw [settings_socks5Framing]
    exact (Socks5Place.framing _).2

/-- What the session keeps for the coroutine. -/
def socks5Kept (delivered : List (List Byte)) : List Byte :=
  if (socks5 delivered).place = .ended then [] else (socks5 delivered).kept

theorem keeps_socks5Kept : socks5Framing.Keeps socks5Kept where
  nil := rfl
  snoc delivered segment := by
    rw [settings_socks5Framing, socks5Kept]
    by_cases h : (socks5 (delivered ++ [segment])).place = .ended
    · rw [if_pos h, h]
      rfl
    · have hne : (socks5 delivered).place ≠ .ended := by
        rw [socks5_append] at h
        exact fun hended => h (read_of_ended segment hended).1
      rw [if_neg h, kept, settings_socks5 _ h, socks5Kept, if_neg hne]
      rw [socks5_append, whole_read]

/-! ## The frames of the reference parser -/

/-- A frame of which the handler is shown everything, once it is there. -/
def Frame.ofTaken : Option (List Byte × List Byte) → Frame
  | none => .more
  | some (segment, _) => .frame segment.length 0 segment

section Frames

variable {s : Settings} {room : ℕ} (input : List Byte)

theorem fixedFrame_eq_ofTaken {n : ℕ} (hroom : n ≤ room) :
    fixedFrame room n 0 input = .ofTaken (takeBytes n input) := by
  rw [fixedFrame, if_neg (Nat.not_lt.mpr hroom), takeBytes]
  split
  · rfl
  · rename_i hlen
    rw [Frame.ofTaken, List.length_take_of_le (Nat.not_lt.mp hlen)]
    rfl

theorem parseFrame_fixed (hs : s.Framing) (hp : s.protocol = .fixed)
    (hroom : s.readBufferSize ≤ room) :
    parseFrame s room input = .ofTaken (takeBytes s.readBufferSize input) := by
  rw [parseFrame, if_pos hs, hp]
  exact fixedFrame_eq_ofTaken input hroom

theorem fieldValue_byte (n : Byte) : fieldValue s false [n] = n.toNat := by
  cases h : s.littleEndian <;> simp [fieldValue, fieldDigits, h]

/-- A field of one byte never exceeds the limits. -/
theorem parseFrame_field (hs : s.Framing) (hp : s.protocol = .prefix8)
    (hinclude : s.includePrefix = false) (hshown : s.ignoreProtocol = false)
    (hlimit : 256 ≤ s.readBufferSize) (hroom : 256 ≤ room) :
    parseFrame s room input = .ofTaken (takeFieldFrame input) := by
  have hvar : varField s = false := by simp [varField, hp, prefixSize]
  have hsize : fieldSize s input = 1 := by simp [fieldSize, hp, prefixSize]
  rw [parseFrame, if_pos hs, hp]
  simp only [prefixFrame, hvar, hsize, Bool.false_eq_true, false_and, if_false]
  rw [if_neg (by omega), if_neg (by omega)]
  cases input with
  | nil => rfl
  | cons n input =>
      have hn := n.toNat_lt
      have htotal : fieldTotal s false ((n :: input).take 1) = n.toNat + 1 := by
        simp [fieldTotal, hinclude, fieldValue_byte]
      rw [if_neg (by simp), fieldFrame, if_neg (by decide)]
      simp only [hinclude, hshown, htotal, Bool.false_eq_true, false_and, if_false]
      rw [if_neg (by omega), fixedFrame_eq_ofTaken _ (by omega), takeFieldFrame, takeBytes,
        takeBytes]
      by_cases hlen : input.length < n.toNat
      · have hlen' : (n :: input).length < n.toNat + 1 := Nat.succ_lt_succ hlen
        rw [if_pos hlen, if_pos hlen']
        rfl
      · have hlen' : ¬ (n :: input).length < n.toNat + 1 :=
          fun h => hlen (Nat.lt_of_succ_lt_succ h)
        rw [if_neg hlen, if_neg hlen']
        rfl

/-- The reference parser finds the frame that the coroutine waits for. -/
theorem Socks5.parseFrame_eq (c : Socks5) (hroom : 256 ≤ room) :
    parseFrame c.place.settings room input = .ofTaken (c.frame input) := by
  have hframing := c.place.framing
  rw [frame]
  cases hplace : c.place with
  | methods | username | password | domain =>
      rw [hplace] at hframing
      exact parseFrame_field input hframing.1 rfl (by decide) hframing.2 (by decide) hroom
  | _ =>
      rw [hplace] at hframing
      exact parseFrame_fixed input hframing.1 rfl (le_trans (by decide) hroom)

theorem Socks5.frame_eq_some {c : Socks5} {segment input' : List Byte}
    (h : c.frame input = some (segment, input')) : segment ≠ [] ∧ input = segment ++ input' := by
  have hbytes : ∀ {n}, 0 < n → takeBytes n input = some (segment, input') →
      segment ≠ [] ∧ input = segment ++ input' := by
    intro n hn h
    obtain ⟨hlen, hinput⟩ := takeBytes_eq_some h
    exact ⟨List.length_pos_iff.mp (hlen ▸ hn), hinput⟩
  have hfield : takeFieldFrame input = some (segment, input') →
      segment ≠ [] ∧ input = segment ++ input' := by
    intro h
    cases input with
    | nil => cases h
    | cons n input =>
        obtain ⟨⟨bytes, rest⟩, htaken, heq⟩ := Option.map_eq_some_iff.mp h
        obtain ⟨rfl, rfl⟩ := Prod.mk.inj heq
        obtain ⟨-, rfl⟩ := takeBytes_eq_some htaken
        exact ⟨List.cons_ne_nil _ _, rfl⟩
  rw [frame] at h
  cases hplace : c.place <;> rw [hplace] at h <;>
    first | exact hfield h | exact hbytes (by decide) h

end Frames

/-- Little is kept while the coroutine goes on. -/
theorem Socks5.Valid.length_kept {c : Socks5} (hc : c.Valid) (hne : c.place ≠ .ended) :
    c.kept.length ≤ 260 := by
  have hbyte : ∀ i, byteAt c.whole i < 256 := fun i => UInt8.toNat_lt _
  have hfits := hc.fits
  rw [kept]
  split
  · rename_i hdnc
    have h₁ := hbyte 1
    have h₄ := hbyte 4
    rw [hc.settings hne] at hdnc
    cases hplace : c.place <;> rw [hplace] at hfits hdnc <;>
      simp only [Socks5Place.Fits] at hfits <;> first | omega | exact absurd hdnc (by decide)
  · exact Nat.zero_le _

/-- What the reference parser decides where the coroutine goes on. -/
theorem parse_socks5 {r : ReferenceState} (hc : (socks5 r.delivered).Valid)
    (hne : (socks5 r.delivered).place ≠ .ended)
    (hr : r.retained = (socks5Kept r.delivered).length) (input : List Byte) :
    (referenceParser socks5Framing).parse r input =
      match (socks5 r.delivered).frame input with
      | none => .more
      | some (segment, _) => .item segment.length
          ⟨r.delivered ++ [segment], (socks5Kept (r.delivered ++ [segment])).length⟩ := by
  have hle : (socks5Kept r.delivered).length ≤ 260 := by
    rw [socks5Kept, if_neg hne]
    exact hc.length_kept hne
  have hroom : 256 ≤ maxSize - r.retained := by
    rw [maxSize]
    omega
  change r.decision socks5Framing (parseFrame (socks5Framing r.delivered).settings _ input) = _
  rw [settings_socks5Framing, Socks5.parseFrame_eq input _ hroom]
  cases (socks5 r.delivered).frame input with
  | none => rfl
  | some taken =>
      obtain ⟨segment, input'⟩ := taken
      have hkept := keeps_socks5Kept.snoc r.delivered segment
      have hafter : r.afterFrame socks5Framing segment.length 0 segment =
          ⟨r.delivered ++ [segment], (socks5Kept (r.delivered ++ [segment])).length⟩ := by
        rw [hkept, ReferenceState.afterFrame, hr]
        cases (socks5Framing (r.delivered ++ [segment])).settings.doNotConsume <;>
          simp [socks5Framing]
      exact congrArg (ParseStep.item segment.length) hafter

theorem exists_delivered_parseSteps (h : ReadHandler) (fuel : ℕ) (r : ReferenceState)
    (input : List Byte) :
    ∃ l, ((referenceParser h).parseSteps fuel r input).1.delivered = r.delivered ++ l := by
  induction fuel generalizing r input with
  | zero => exact ⟨[], (List.append_nil _).symm⟩
  | succ fuel ih =>
      rw [StreamParser.parseSteps]
      cases hp : (referenceParser h).parse r input with
      | more | stop => exact ⟨[], (List.append_nil _).symm⟩
      | item size next =>
          obtain ⟨l, hl⟩ := ih next (input.drop size)
          change r.decision h _ = _ at hp
          cases hf : parseFrame (h r.delivered).settings (maxSize - r.retained) input with
          | more | fail | tooLong =>
              rw [hf] at hp
              cases hp
          | frame total tail segment =>
              rw [hf] at hp
              obtain ⟨-, rfl⟩ := ParseStep.item.inj hp
              exact ⟨segment :: l, hl.trans (List.append_assoc _ _ _)⟩

/-- Nothing is done any more once the coroutine has ended. -/
theorem socks5_of_ended {delivered : List (List Byte)} (l : List (List Byte))
    (h : (socks5 delivered).place = .ended) :
    (socks5 (delivered ++ l)).place = .ended ∧
      (socks5 (delivered ++ l)).actions = (socks5 delivered).actions := by
  induction l using List.reverseRecOn with
  | nil =>
      rw [List.append_nil]
      exact ⟨h, rfl⟩
  | append_singleton l segment ih =>
      rw [← List.append_assoc, socks5_append]
      obtain ⟨hplace, hactions⟩ := read_of_ended segment ih.1
      exact ⟨hplace, hactions.trans ih.2⟩

/-- What the coroutine does for the frames of an input is what the input means. -/
theorem actions_parseAll (input : List Byte) {r : ReferenceState}
    (hc : (socks5 r.delivered).Valid) (hr : r.retained = (socks5Kept r.delivered).length) :
    (socks5 ((referenceParser socks5Framing).parseAll r input).1.delivered).actions =
      (socks5 r.delivered).actions ++ (socks5 r.delivered).rest input := by
  induction hn : input.length using Nat.strongRecOn generalizing r input with
  | ind n ih =>
      by_cases hended : (socks5 r.delivered).place = .ended
      · obtain ⟨l, hl⟩ := exists_delivered_parseSteps socks5Framing (input.length + 1) r input
        rw [StreamParser.parseAll, hl, (socks5_of_ended l hended).2, Socks5.rest, hended,
          List.append_nil]
      · have hparse := parse_socks5 hc hended hr input
        rcases hc.advances hended input with ⟨hframe, hrest⟩ |
          ⟨segment, input', hframe, hvalid, l, hactions, hrest⟩
        · rw [hframe] at hparse
          rw [(referenceParser socks5Framing).parseAll_of_more hparse, hrest, List.append_nil]
        · rw [hframe] at hparse
          obtain ⟨hne, rfl⟩ := Socks5.frame_eq_some input hframe
          have hlen : input'.length < n := by
            have hpos := List.length_pos_iff.mpr hne
            rw [← hn, List.length_append]
            omega
          rw [← socks5_append] at hvalid hactions hrest
          rw [(referenceParser socks5Framing).parseAll_of_item hparse, List.drop_left,
            ih _ hlen input' hvalid rfl rfl, hactions, hrest, List.append_assoc]

/-! ## The session -/

namespace ReadState

/-- The segments and the bytes so far, whatever the settings are. -/
structure SameHistory (s t : ReadState) : Prop where
  delivered : t.delivered = s.delivered
  received : t.received = s.received

theorem SameFrame.history {s t : ReadState} (h : SameFrame s t) : SameHistory s t :=
  ⟨h.delivered, h.received⟩

variable {s t : ReadState}

theorem sameHistory_readSome (s : ReadState) (n : ℕ) : SameHistory s (s.readSome n) := by
  rw [readSome]
  split
  · exact ⟨rfl, rfl⟩
  · exact (sameFrame_asyncRead _ _ _).history

theorem sameHistory_readDelim (s : ReadState) (delim : List Byte) :
    SameHistory s (s.readDelim delim) := by
  rw [readDelim]
  split
  · exact sameHistory_readSome _ _
  · exact ⟨rfl, rfl⟩

theorem sameHistory_read (s : ReadState) : SameHistory s s.read := by
  have hbegin : ∀ {u : ReadState}, SameHistory s.beginFrame u → SameHistory s u :=
    fun h => ⟨h.delivered, h.received⟩
  rw [read_eq]
  apply hbegin
  split
  case h_2 => exact sameHistory_readSome s.beginFrame _
  case h_3 => exact (sameFrame_readFixed s.beginFrame _).history
  case h_4 | h_5 | h_6 | h_7 | h_8 => exact sameHistory_readDelim s.beginFrame _
  all_goals exact ⟨rfl, rfl⟩

/-- Bytes are only added, and segments only by upcalls. -/
theorem history_step {h : ReadHandler} {e : ReadEvent} (ht : s.step h e = some t) :
    (∃ bytes, t.received = s.received ++ bytes) ∧
      ((∃ tail, s.control = .upcall tail ∧ t = s.handlerRead h tail) ∨
        t.delivered = s.delivered ∧ ∀ h', s.step h' e = some t) := by
  have hrun : ∀ {u : ReadState}, SameHistory s u → ∃ bytes, u.received = s.received ++ bytes :=
    fun hu => ⟨[], hu.received.trans (List.append_nil _).symm⟩
  cases step_cases ht with
  | read hc =>
      exact ⟨hrun (sameHistory_read s), .inr ⟨(sameHistory_read s).delivered, fun _ => ht⟩⟩
  | readPrefix hc =>
      rename_i len
      have hsame := (sameFrame_readPrefix s len).history
      exact ⟨hrun hsame, .inr ⟨hsame.delivered, fun _ => ht⟩⟩
  | completeUntil hc hu =>
      have hsame : SameHistory s t := by
        rw [completeUntil] at hu
        split at hu
        · obtain rfl := Option.some.inj hu
          exact ⟨rfl, rfl⟩
        · split at hu
          · obtain rfl := Option.some.inj hu
            exact ⟨rfl, rfl⟩
          · cases hu
      exact ⟨hrun hsame, .inr ⟨hsame.delivered, fun _ => ht⟩⟩
  | upcall hc => exact ⟨⟨[], (List.append_nil _).symm⟩, .inl ⟨_, hc, rfl⟩⟩
  | receive hw hlen hasked hne =>
      rename_i asked bytes
      refine ⟨⟨bytes, received_receive asked bytes hw⟩, .inr ⟨?_, fun _ => ht⟩⟩
      cases hc : s.control <;> simp only [waiting, hc, Bool.false_eq_true] at hw <;>
        simp only [receive, hc]
      case readSome n => rfl
      all_goals split <;> rfl

end ReadState

open ReadState

/-- The session is with the reference parser, and the coroutine with both. -/
structure Socks5Follows (s : ReadState) : Prop where
  valid : (socks5 s.delivered).Valid
  inv : s.Inv
  simulates : Simulates socks5Framing s
  retains : s.Retains socks5Kept

variable {s t : ReadState}

theorem Socks5Follows.decode_eq (hs : Socks5Follows s) (future : List Byte) :
    decode (s.received ++ future) =
      (socks5 s.delivered).actions ++
        (socks5 s.delivered).rest (s.inFrame.frameInput ++ future) := by
  have hreceived : s.inFrame.received = s.received := by
    rw [inFrame]
    split <;> rfl
  have hreference : s.inFrame.reference = ⟨s.delivered, (socks5Kept s.delivered).length⟩ := by
    rw [← hs.retains.start, reference, inFrame]
    split <;> rfl
  have hstart := actions_parseAll (s.received ++ future) (r := ⟨[], 0⟩)
    ⟨fun _ => rfl, trivial⟩ rfl
  have hres := hs.simulates.resumes future
  rw [hreceived, hreference] at hres
  rw [hres, actions_parseAll _ hs.valid rfl] at hstart
  exact hstart.symm

theorem not_lengthOverflow (hs : Simulates socks5Framing s) : ¬ s.LengthOverflow := by
  rintro ⟨-, hp, -⟩
  rw [hs.settings, settings_socks5Framing] at hp
  cases hplace : (socks5 s.delivered).place <;> rw [hplace] at hp <;> cases hp

/-- The segment of an upcall is the frame that the coroutine waits for. -/
theorem Socks5Follows.valid_upcall (hs : Socks5Follows s)
    (hne : (socks5 s.delivered).place ≠ .ended) {tail : ℕ} (hc : s.control = .upcall tail) :
    (socks5 (s.delivered ++ [s.buf.segment])).Valid := by
  have hin : s.inFrame = s := if_neg (by simp [hc])
  have hdec := hs.simulates.decides
  simp only [Decides, hc] at hdec
  have hparse := parse_frame (h := socks5Framing) hs.simulates.settings
  have hretained : s.reference.retained = (socks5Kept s.delivered).length := by
    rw [← hs.retains.start, hin]
    rfl
  rw [hdec, parse_socks5 (r := s.reference) hs.valid hne hretained] at hparse
  have hdelivered : s.reference.delivered = s.delivered := rfl
  rw [hdelivered] at hparse
  rcases hs.valid.advances hne s.frameInput with ⟨hframe, -⟩ | ⟨segment, input', hframe, hvalid, -⟩
  · rw [hframe] at hparse
    cases hparse
  · rw [hframe] at hparse
    obtain ⟨-, hnext⟩ := ParseStep.item.inj hparse
    have hsegment : s.delivered ++ [segment] = s.delivered ++ [s.buf.segment] :=
      congrArg ReferenceState.delivered hnext
    rw [← hsegment, socks5_append]
    exact hvalid

theorem Socks5Follows.step {e : ReadEvent} (hs : Socks5Follows s)
    (hne : (socks5 s.delivered).place ≠ .ended) (ht : s.step socks5Framing e = some t) :
    Socks5Follows t := by
  have hno := not_lengthOverflow hs.simulates
  refine ⟨?_, inv_step (fun segments => (plain_socks5Framing.framing segments).1) hs.inv hno ht,
    simulates_step plain_socks5Framing.framing hs.inv hs.simulates hno ht,
    retains_step plain_socks5Framing keeps_socks5Kept hs.inv hs.simulates hs.retains ht⟩
  rcases (history_step ht).2 with ⟨tail, hc, rfl⟩ | ⟨hdelivered, -⟩
  · exact hs.valid_upcall hne hc
  · rw [hdelivered]
    exact hs.valid

theorem socks5Follows_initial : Socks5Follows (initial socks5Handler) where
  valid := ⟨fun _ => rfl, trivial⟩
  inv := inv_initial (h := socks5Framing) fun segments => (plain_socks5Framing.framing segments).1
  simulates := simulates_initial socks5Framing
  retains := retains_initial (h := socks5Framing) keeps_socks5Kept

/-- The session follows the reference until the coroutine has ended, and what it has done then is
what the stream means, whatever is still to come. -/
def Socks5Serves (s : ReadState) : Prop :=
  (socks5 s.delivered).place ≠ .ended ∧ Socks5Follows s ∨
    (socks5 s.delivered).place = .ended ∧
      ∀ future, decode (s.received ++ future) = (socks5 s.delivered).actions

theorem Socks5Serves.step {e : ReadEvent} (hs : Socks5Serves s)
    (ht : s.step socks5Handler e = some t) : Socks5Serves t := by
  obtain ⟨⟨bytes, hbytes⟩, hstep⟩ := history_step ht
  rcases hs with ⟨hne, hs⟩ | ⟨hended, hs⟩
  · rcases hstep with ⟨tail, hc, rfl⟩ | ⟨-, hany⟩
    · have ht' : s.step socks5Framing .upcall = some (s.handlerRead socks5Framing tail) := by
        simp only [ReadState.step, hc]
      have hfollows := hs.step hne ht'
      have hdelivered : (s.handlerRead socks5Framing tail).delivered =
          (s.handlerRead socks5Handler tail).delivered := rfl
      by_cases hended : (socks5 (s.handlerRead socks5Handler tail).delivered).place = .ended
      · refine .inr ⟨hended, fun future => ?_⟩
        have hdecode := hfollows.decode_eq future
        rw [hdelivered, Socks5.rest, hended, List.append_nil] at hdecode
        exact hdecode
      · refine .inl ⟨hended, ?_⟩
        have hsame : s.handlerRead socks5Framing tail = s.handlerRead socks5Handler tail := by
          have hset : socks5Framing (s.delivered ++ [s.buf.segment]) =
              socks5Handler (s.delivered ++ [s.buf.segment]) :=
            congrArg (Reaction.mk []) (if_neg hended)
          rw [handlerRead, handlerRead, hset]
        rw [← hsame]
        exact hfollows
    · have hfollows := hs.step hne (hany socks5Framing)
      by_cases hended : (socks5 t.delivered).place = .ended
      · refine .inr ⟨hended, fun future => ?_⟩
        have hdecode := hfollows.decode_eq future
        rw [Socks5.rest, hended, List.append_nil] at hdecode
        exact hdecode
      · exact .inl ⟨hended, hfollows⟩
  · right
    have hdelivered : ∃ l, t.delivered = s.delivered ++ l := by
      rcases hstep with ⟨tail, -, rfl⟩ | ⟨hdelivered, -⟩
      · exact ⟨[s.buf.segment], rfl⟩
      · exact ⟨[], hdelivered.trans (List.append_nil _).symm⟩
    obtain ⟨l, hl⟩ := hdelivered
    obtain ⟨hplace, hactions⟩ := socks5_of_ended l hended
    rw [← hl] at hplace hactions
    refine ⟨hplace, fun future => ?_⟩
    rw [hactions, hbytes, List.append_assoc]
    exact hs _

theorem socks5Serves_of_reachable (h : (readSystem socks5Handler).Reachable s) :
    Socks5Serves s := by
  apply h.invariant (I := Socks5Serves)
  · rintro _ rfl
    exact .inl ⟨by simp [socks5, initial, connect], socks5Follows_initial⟩
  · exact fun s e t hs ht => hs.step ht

/-- What the session can do is the same under both handlers. -/
theorem Finished.socks5Framing {stream : List Byte} (hfin : s.Finished socks5Handler stream) :
    s.Finished socks5Framing stream := by
  refine ⟨hfin.1, ?_⟩
  intro e t ht hp
  rcases (history_step ht).2 with ⟨tail, hc, rfl⟩ | ⟨-, hany⟩
  · have ht' : s.step socks5Handler .upcall = some (s.handlerRead socks5Handler tail) := by
      simp only [ReadState.step, hc]
    exact hfin.2 _ _ ht' hp
  · exact hfin.2 _ _ (hany socks5Handler) hp

/-- Once the session can do nothing more over a stream all of it has been served. -/
theorem Socks5Follows.actions_of_finished {stream : List Byte} (hs : Socks5Follows s)
    (hfin : s.Finished socks5Handler stream) :
    (socks5 s.delivered).actions = decode stream := by
  have hout := outcome_of_finished hs.inv plain_socks5Framing.framing hs.simulates
    (Finished.socks5Framing hfin)
  have hdelivered : s.delivered =
      ((referenceParser socks5Framing).parseAll ⟨[], 0⟩ stream).1.delivered :=
    congrArg Prod.fst hout
  rw [hdelivered]
  exact actions_parseAll stream (r := ⟨[], 0⟩) ⟨fun _ => rfl, trivial⟩ rfl

theorem Socks5Serves.actions_isPrefix {stream : List Byte} (hs : Socks5Serves s)
    (hp : s.received <+: stream) : (socks5 s.delivered).actions <+: decode stream := by
  obtain ⟨future, rfl⟩ := hp
  rcases hs with ⟨-, hs⟩ | ⟨-, hs⟩
  · rw [hs.decode_eq]
    exact List.prefix_append _ _
  · rw [hs]

theorem Socks5Serves.actions_of_finished {stream : List Byte} (hs : Socks5Serves s)
    (hfin : s.Finished socks5Handler stream) :
    (socks5 s.delivered).actions = decode stream := by
  rcases hs with ⟨-, hs⟩ | ⟨-, hs⟩
  · exact hs.actions_of_finished hfin
  · obtain ⟨future, rfl⟩ := hfin.1
    exact (hs future).symm

/-- However the bytes of a client arrive, the server does nothing but what they ask for, and all
of it once it has read them; the coroutine finds in the buffer what it has asked to be kept. -/
theorem socks5_serves (stream : List Byte) (s : ReadState)
    (h : (readSystem socks5Handler).Reachable s) (hp : s.received <+: stream) :
    (socks5 s.delivered).actions <+: decode stream ∧
    (s.Finished socks5Handler stream → (socks5 s.delivered).actions = decode stream) ∧
    ∀ tail, s.control = .upcall tail → (socks5 s.delivered).place ≠ .ended →
      s.buf.whole = ((socks5 s.delivered).read s.buf.segment).whole := by
  have hs := socks5Serves_of_reachable h
  refine ⟨hs.actions_isPrefix hp, hs.actions_of_finished, ?_⟩
  intro tail hc hne
  rcases hs with ⟨-, hs⟩ | ⟨hended, -⟩
  · have hshown : s.settings.ignoreProtocol = false :=
      hs.simulates.settings ▸ plain_socks5Framing.shown _
    obtain ⟨-, hwhole⟩ := whole_of_upcall hshown hs.inv hs.simulates.decides hc
    rw [hwhole, hs.retains.bytes, whole_read, socks5Kept, if_neg hne]
  · exact absurd hended hne

/-- A greeting, and a request that arrives in two chunks. -/
def requestInTwo : List ReadEvent :=
  [.run, .receive 1 [5], .upcall, .run, .run, .receive 1 [1], .run, .receive 1 [0], .upcall, .run,
    .receive 4 [5, 1], .receive 2 [0, 1]]

theorem socks5_serves_request : ∃ s, (readSystem socks5Handler).Reachable s ∧
    s.received = [5, 1, 0, 5, 1, 0, 1] ∧ s.buf.whole = [5, 1, 0, 1] ∧
    (socks5 s.delivered).actions <+: decode [5, 1, 0, 5, 1, 0, 1] := by
  obtain ⟨s, hreach, hp⟩ := TransitionSystem.exists_reachable_of_exec
    (· = initial socks5Handler) (ReadState.step socks5Handler) requestInTwo
    (fun s => decide (s.received = [5, 1, 0, 5, 1, 0, 1] ∧ s.buf.whole = [5, 1, 0, 1])) rfl
    (by decide +kernel)
  obtain ⟨hreceived, hwhole⟩ := of_decide_eq_true hp
  exact ⟨s, hreach, hreceived, hwhole,
    (socks5_serves _ s hreach (hreceived ▸ List.prefix_rfl)).1⟩

/-! ## Handshakes -/

namespace Socks5

/-- All that a handshake makes the server do before it goes to the target. -/
theorem Handshake.exists_actions (handshake : Handshake) : ∃ (l : List Socks5Action)
    (target : Target), handshake.actions = l ++ [target.action] ∧
      ∀ t : Target, t.action ∉ l := by
  cases handshake with
  | login methods offered usr pwd target =>
      refine ⟨[.write [5, 2], .credentials usr.1 pwd.1, .write [1, 0]], target, rfl, ?_⟩
      intro t
      cases t <;> simp [Target.action]
  | plain methods offered login target =>
      refine ⟨[.write [5, 0]], target, rfl, ?_⟩
      intro t
      cases t <;> simp [Target.action]

theorem Handshake.actions_of_isPrefix {handshake : Handshake} {l : List Socks5Action}
    (hp : l <+: handshake.actions) {t : Target} (ht : t.action ∈ l) : l = handshake.actions := by
  obtain ⟨init, target, hactions, hnone⟩ := handshake.exists_actions
  rw [hactions] at hp ⊢
  rcases List.prefix_concat_iff.mp hp with heq | hp
  · exact heq
  · exact absurd (hp.subset ht) (hnone t)

end Socks5

/-- The server goes to a target only for a client that has sent a whole handshake, and then it
has done all that the handshake asks for and nothing else; and when the session can do nothing
more over a stream that begins with one, this is done. -/
theorem socks5_accepts (s : ReadState) (h : (readSystem socks5Handler).Reachable s) :
    (∀ target : Target, target.action ∈ (socks5 s.delivered).actions →
      ∃ handshake : Handshake, handshake.encode <+: s.received ∧
        (socks5 s.delivered).actions = handshake.actions) ∧
    ∀ (handshake : Handshake) (future : List Byte),
      s.Finished socks5Handler (handshake.encode ++ future) →
        (socks5 s.delivered).actions = handshake.actions := by
  have hs := socks5Serves_of_reachable h
  constructor
  · intro target hmem
    have hpre := hs.actions_isPrefix (List.prefix_refl s.received)
    obtain ⟨handshake, rest, hreceived⟩ := exists_handshake_of_mem (hpre.subset hmem)
    rw [hreceived, decode_encode] at hpre
    exact ⟨handshake, hreceived ▸ List.prefix_append _ _, handshake.actions_of_isPrefix hpre hmem⟩
  · intro handshake future hfin
    rw [hs.actions_of_finished hfin, decode_encode]

/-- A login without a password, for a domain of one letter. -/
def loginHandshake : Handshake :=
  .login ⟨[0, 2], by decide⟩ (by decide) ⟨[97], by decide⟩ ⟨[], by decide⟩
    (.domain ⟨[98], by decide⟩ 80)

def loginInChunks : List ReadEvent :=
  [.run, .receive 1 [5], .upcall, .run, .run, .receive 1 [2], .run, .receive 2 [0], .receive 1 [2],
    .upcall, .run, .receive 1 [1], .upcall, .run, .run, .receive 1 [1], .run, .receive 1 [97],
    .upcall, .run, .run, .receive 1 [0], .run, .upcall, .run, .receive 4 [5, 1, 0, 3], .upcall,
    .run, .run, .receive 1 [1], .run, .receive 1 [98], .upcall, .run, .receive 2 [0, 80], .upcall,
    .run]

theorem socks5_accepts_login : ∃ s, (readSystem socks5Handler).Reachable s ∧
    s.Finished socks5Handler loginHandshake.encode ∧
    (socks5 s.delivered).actions = loginHandshake.actions := by
  obtain ⟨s, hreach, hp⟩ := TransitionSystem.exists_reachable_of_exec
    (· = initial socks5Handler) (ReadState.step socks5Handler) loginInChunks
    (fun s => decide (s.waiting = true ∧ s.control ≠ .readSome 0 ∧
      s.step socks5Handler .run = none ∧ s.received = loginHandshake.encode)) rfl
    (by decide +kernel)
  obtain ⟨hw, hne, hrun, hreceived⟩ := of_decide_eq_true hp
  have hfin : s.Finished socks5Handler loginHandshake.encode :=
    hreceived ▸ finished_of_waiting hw hne hrun
  exact ⟨s, hreach, hfin,
    (socks5_accepts s hreach).2 loginHandshake [] ((List.append_nil _).symm ▸ hfin)⟩

end Minapp
