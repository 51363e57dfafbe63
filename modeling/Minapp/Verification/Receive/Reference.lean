import Minapp.Library.StreamParser
import Minapp.Verification.Receive.Prefix

/-! The reference parser of a received stream: how each protocol frames the bytes it is
given, with no buffer and no asynchronous operation. -/

namespace Minapp

open FirstOccurrence

/-- What a protocol finds at the start of its input. -/
inductive Frame where
  /-- The input is too short to decide. -/
  | more
  /-- The input violates the protocol. -/
  | fail
  /-- The frame does not fit the vector. -/
  | tooLong
  /-- A frame of `total` bytes, of which the handler is not shown the last `tail`. -/
  | frame (total tail : ℕ) (segment : List Byte)
  deriving DecidableEq, Repr

/-- Whether a protocol frames its input, and every frame takes at least a byte. -/
def Settings.frames (s : Settings) : Bool :=
  match s.protocol with
  | .none | .any | .other _ => false
  | .fixed => 0 < s.readBufferSize
  | .delim => s.delimiter ≠ []
  | _ => true

/-- The settings the reference parser is defined for. -/
def Settings.Framing (s : Settings) : Prop := s.readBufferSize ≤ maxSize ∧ s.frames = true

instance (s : Settings) : Decidable s.Framing := inferInstanceAs (Decidable (_ ∧ _))

/-- The next `total` bytes, the first `skip` of which are not part of the segment. -/
def fixedFrame (room total skip : ℕ) (input : List Byte) : Frame :=
  if room < total then .tooLong
  else if input.length < total then .more
  else .frame total 0 ((input.take total).drop skip)

/-- Everything up to the first occurrence of the delimiter that ends within the limit. -/
def delimFrame (s : Settings) (delim : List Byte) (room : ℕ) (input : List Byte) : Frame :=
  let limit := min room s.readBufferSize
  match firstEnd delim (input.take limit) with
  | some total =>
    let tail := if s.ignoreProtocol then delim.length else 0
    .frame total tail (input.take (total - tail))
  | none => if limit ≤ input.length then .fail else .more

/-- The frame that a complete length field of `n` bytes announces. -/
def fieldFrame (s : Settings) (var : Bool) (n room : ℕ) (input : List Byte) : Frame :=
  if 8 + var.toNat < n then .fail
  else if s.includePrefix ∧ fieldValue s var (input.take n) < n then .fail
  else if s.readBufferSize < fieldTotal s var (input.take n) then .fail
  else fixedFrame room (fieldTotal s var (input.take n)) (if s.ignoreProtocol then n else 0) input

/-- A length field, then as many bytes as it announces. A varint is read one byte after
the other, so that it meets the end of the vector before a smaller limit. -/
def prefixFrame (s : Settings) (room : ℕ) (input : List Byte) : Frame :=
  let var := varField s
  let n := fieldSize s input
  if var ∧ room < min n s.readBufferSize then .tooLong
  else if s.readBufferSize < n then .fail
  else if room < n then .tooLong
  else if input.length < n then .more
  else fieldFrame s var n room input

/-- The next frame, when the vector has room for `room` more bytes. -/
def parseFrame (s : Settings) (room : ℕ) (input : List Byte) : Frame :=
  if s.Framing then
    match s.protocol with
    | .none | .any | .other _ => .more
    | .fixed => fixedFrame room s.readBufferSize 0 input
    | .delim => delimFrame s s.delimiter room input
    | .delimZero => delimFrame s [0] room input
    | .delimCr => delimFrame s [13] room input
    | .delimLf => delimFrame s [10] room input
    | .delimCrlf => delimFrame s crlf room input
    | .prefix8 | .prefix16 | .prefix32 | .prefix64 | .prefixVar => prefixFrame s room input
  else .more

/-! ## Decisions do not depend on later input -/

variable {s : Settings} {room : ℕ} {input : List Byte}

theorem fixedFrame_append {total skip : ℕ} (ys : List Byte)
    (h : fixedFrame room total skip input ≠ .more) :
    fixedFrame room total skip (input ++ ys) = fixedFrame room total skip input := by
  unfold fixedFrame at *
  by_cases hroom : room < total
  · rw [if_pos hroom, if_pos hroom]
  · rw [if_neg hroom] at h ⊢
    rw [if_neg hroom]
    by_cases hlen : input.length < total
    · rw [if_pos hlen] at h
      exact absurd rfl h
    · have hle := Nat.le_of_not_lt hlen
      rw [if_neg hlen, if_neg (by rw [List.length_append]; omega),
        List.take_append_of_le_length hle]

theorem fixedFrame_bounds {total skip n tail : ℕ} {segment : List Byte}
    (h : fixedFrame room total skip input = .frame n tail segment) :
    n = total ∧ total ≤ input.length := by
  rw [fixedFrame] at h
  split_ifs at h with hroom hlen
  obtain ⟨rfl, -⟩ := Frame.frame.inj h
  exact ⟨rfl, Nat.le_of_not_lt hlen⟩

theorem delimFrame_append {delim : List Byte} (ys : List Byte)
    (h : delimFrame s delim room input ≠ .more) :
    delimFrame s delim room (input ++ ys) = delimFrame s delim room input := by
  unfold delimFrame at *
  simp only at h ⊢
  by_cases hlen : min room s.readBufferSize ≤ input.length
  · -- the whole searched part is known
    have hlen' : min room s.readBufferSize ≤ (input ++ ys).length := by
      rw [List.length_append]
      omega
    rw [List.take_append_of_le_length hlen, if_pos hlen, if_pos hlen']
    cases hf : firstEnd delim (input.take (min room s.readBufferSize)) with
    | none => rfl
    | some total =>
        have hb := firstEnd_bounds hf
        rw [List.length_take] at hb
        simp only
        rw [List.take_append_of_le_length (by omega)]
  · rw [if_neg hlen] at h ⊢
    cases hf : firstEnd delim (input.take (min room s.readBufferSize)) with
    | none =>
        rw [hf] at h
        exact absurd rfl h
    | some total =>
        have hb := firstEnd_bounds hf
        have htake : (input ++ ys).take (min room s.readBufferSize) =
            input.take (min room s.readBufferSize) ++
              ys.take (min room s.readBufferSize - input.length) := by
          rw [List.take_append, List.take_of_length_le (l := input) (by omega)]
        rw [List.length_take] at hb
        rw [htake, firstEnd_append _ hf]
        simp only
        rw [List.take_append_of_le_length (by omega)]

theorem delimFrame_bounds {delim : List Byte} {n tail : ℕ} {segment : List Byte}
    (hne : delim ≠ []) (h : delimFrame s delim room input = .frame n tail segment) :
    0 < n ∧ n ≤ input.length := by
  rw [delimFrame] at h
  simp only at h
  cases hf : firstEnd delim (input.take (min room s.readBufferSize)) with
  | none =>
      rw [hf] at h
      simp only at h
      split at h <;> simp at h
  | some total =>
      rw [hf] at h
      obtain ⟨rfl, -⟩ := Frame.frame.inj h
      have hb := firstEnd_bounds hf
      have hpos := List.length_pos_iff.mpr hne
      rw [List.length_take] at hb
      omega

theorem fieldFrame_append {var : Bool} {n : ℕ} (ys : List Byte) (hn : n ≤ input.length)
    (h : fieldFrame s var n room input ≠ .more) :
    fieldFrame s var n room (input ++ ys) = fieldFrame s var n room input := by
  unfold fieldFrame at *
  rw [List.take_append_of_le_length hn]
  split_ifs at h ⊢ <;> first | rfl | exact fixedFrame_append ys h

theorem le_fieldTotal {var : Bool} {n : ℕ} (hn : n ≤ input.length)
    (hbad : ¬ (s.includePrefix = true ∧ fieldValue s var (input.take n) < n)) :
    n ≤ fieldTotal s var (input.take n) := by
  rw [fieldTotal]
  rw [List.length_take_of_le hn]
  split
  · rename_i hi
    exact Nat.le_of_not_lt fun hv => hbad ⟨hi, hv⟩
  · exact Nat.le_add_left _ _

theorem fieldFrame_bounds {var : Bool} {n total tail : ℕ} {segment : List Byte}
    (hn : n ≤ input.length) (h : fieldFrame s var n room input = .frame total tail segment) :
    n ≤ total ∧ total ≤ input.length := by
  rw [fieldFrame] at h
  by_cases hlong : 8 + var.toNat < n
  · rw [if_pos hlong] at h
    exact absurd h (by simp)
  · by_cases hbad : s.includePrefix ∧ fieldValue s var (input.take n) < n
    · rw [if_neg hlong, if_pos hbad] at h
      exact absurd h (by simp)
    · rw [if_neg hlong, if_neg hbad] at h
      split at h
      · exact absurd h (by simp)
      · obtain ⟨rfl, hle⟩ := fixedFrame_bounds h
        exact ⟨le_fieldTotal hn hbad, hle⟩

/-- A field beyond the limit fails, whatever its value. -/
theorem fieldFrame_of_limit {var : Bool} {n : ℕ} (hn : n ≤ input.length)
    (hlim : s.readBufferSize < n) : fieldFrame s var n room input = .fail := by
  rw [fieldFrame]
  split
  · rfl
  · split
    · rfl
    · exact if_pos (hlim.trans_le (le_fieldTotal hn ‹_›))

/-- A complete field that fits the vector decides by its value. -/
theorem prefixFrame_of_complete (hn : fieldSize s input ≤ input.length)
    (hroom : fieldSize s input ≤ room) :
    prefixFrame s room input = fieldFrame s (varField s) (fieldSize s input) room input := by
  unfold prefixFrame
  simp only
  rw [if_neg (by rintro ⟨-, hr⟩; omega)]
  split
  · exact (fieldFrame_of_limit hn ‹_›).symm
  · rw [if_neg (by omega), if_neg (by omega)]

/-- While the modular limit test is the one over integers, `parseField` decides as the
reference does. -/
theorem fieldFrame_eq_parseField {var : Bool} {n : ℕ} (hn : n ≤ input.length) (ys : List Byte)
    (hw : n ≤ 8 + var.toNat → (s.readBufferSize < wrap (fieldTotal s var (input.take n)) ↔
      s.readBufferSize < fieldTotal s var (input.take n))) :
    fieldFrame s var n room (input ++ ys) =
      match parseField s var input n with
      | .body l d => fixedFrame room (l + d) (if s.ignoreProtocol then l else 0) (input ++ ys)
      | _ => .fail := by
  rw [fieldFrame]
  rw [List.take_append_of_le_length hn]
  by_cases hlong : 8 + var.toNat < n
  · rw [if_pos hlong, parseField_of_long hlong]
  · have h8 := Nat.le_of_not_lt hlong
    rw [if_neg hlong, parseField_eq hn h8]
    by_cases hbad : s.includePrefix ∧ fieldValue s var (input.take n) < n
    · rw [if_pos hbad, if_pos hbad]
    · rw [if_neg hbad, if_neg hbad]
      by_cases hlim : s.readBufferSize < fieldTotal s var (input.take n)
      · rw [if_pos hlim, if_pos ((hw h8).mpr hlim)]
      · rw [if_neg hlim, if_neg (mt (hw h8).mp hlim)]
        simp only
        rw [Nat.add_sub_cancel' (le_fieldTotal hn hbad)]

theorem prefixFrame_append (ys : List Byte) (h : prefixFrame s room input ≠ .more) :
    prefixFrame s room (input ++ ys) = prefixFrame s room input := by
  -- a longer input only lengthens a varint that has not ended
  have hn := fieldSize_le_append s input ys
  unfold prefixFrame at *
  simp only at h ⊢
  by_cases hlen : input.length < fieldSize s input
  · split_ifs at h with h₁ h₂ h₃
    · rw [if_pos h₁, if_pos ⟨h₁.1, by have := h₁.2; omega⟩]
    · rw [if_neg h₁, if_pos h₂, if_neg, if_pos (by omega)]
      rintro ⟨hv, hr⟩
      exact h₁ ⟨hv, by omega⟩
    · -- only a field of fixed size can reach beyond the vector here
      have hfixed : fieldSize s (input ++ ys) = fieldSize s input := by
        rcases varField_or_fieldSize s input with ⟨hv, -⟩ | ⟨-, n, hp, -⟩
        · exact absurd ⟨hv, by omega⟩ h₁
        · simp only [fieldSize, hp, Option.getD_some]
      rw [hfixed, if_neg h₁, if_neg h₂, if_pos h₃, if_neg h₁, if_neg h₂, if_pos h₃]
    · exact absurd rfl h
  · have hle := Nat.le_of_not_lt hlen
    rw [fieldSize_append ys hle]
    split_ifs at h ⊢ with h₁ h₂ h₃ h₄
    · rfl
    · rfl
    · rfl
    · rw [List.length_append] at h₄
      omega
    · exact fieldFrame_append ys hle h

theorem prefixFrame_bounds {n tail : ℕ} {segment : List Byte}
    (h : prefixFrame s room input = .frame n tail segment) : 0 < n ∧ n ≤ input.length := by
  have hpos := fieldSize_pos s input
  unfold prefixFrame at h
  simp only at h
  split_ifs at h with h₁ h₂ h₃ h₄
  have := fieldFrame_bounds (Nat.le_of_not_lt h₄) h
  omega

theorem parseFrame_append (ys : List Byte) (h : parseFrame s room input ≠ .more) :
    parseFrame s room (input ++ ys) = parseFrame s room input := by
  unfold parseFrame at *
  by_cases hf : s.Framing
  · rw [if_pos hf] at h ⊢
    rw [if_pos hf]
    cases hp : s.protocol <;> rw [hp] at h <;>
      first
      | rfl
      | exact fixedFrame_append ys h
      | exact delimFrame_append ys h
      | exact prefixFrame_append ys h
  · rw [if_neg hf, if_neg hf]

theorem parseFrame_bounds {n tail : ℕ} {segment : List Byte}
    (h : parseFrame s room input = .frame n tail segment) : 0 < n ∧ n ≤ input.length := by
  rw [parseFrame] at h
  split at h
  · rename_i hf
    cases hp : s.protocol <;> rw [hp] at h <;>
      simp only [Settings.Framing, Settings.frames, hp, Bool.false_eq_true, and_false,
        decide_eq_true_eq] at hf
    case fixed =>
      obtain ⟨rfl, hle⟩ := fixedFrame_bounds h
      exact ⟨hf.2, hle⟩
    case delim => exact delimFrame_bounds hf.2 h
    case delimZero | delimCr | delimLf => exact delimFrame_bounds (List.cons_ne_nil _ _) h
    case delimCrlf => exact delimFrame_bounds (by simp [crlf]) h
    all_goals exact prefixFrame_bounds h
  · exact absurd h (by simp)

/-! ## Parsing a stream under a handler -/

/-- What the reference parser knows between two frames: the segments delivered, and how
many bytes before the next frame the external input retains. -/
structure ReferenceState where
  delivered : List (List Byte)
  retained : ℕ
  deriving DecidableEq, Repr

/-- Why framing ends. -/
inductive Verdict where
  | failed
  | threw
  | overrun
  deriving DecidableEq, Repr

/-- The state after a frame of `total` bytes, as the handler reacts to its segment. -/
def ReferenceState.afterFrame (h : ReadHandler) (r : ReferenceState) (total tail : ℕ)
    (segment : List Byte) : ReferenceState :=
  let delivered := r.delivered ++ [segment]
  let kept := (h delivered).consumes.foldl (· - ·) (r.retained + (total - tail)) + tail
  { delivered, retained := if (h delivered).settings.doNotConsume then kept else 0 }

/-- What a frame means for the rest of the stream. -/
def ReferenceState.decision (h : ReadHandler) (r : ReferenceState) :
    Frame → ParseStep ReferenceState Verdict
  | .more => .more
  | .fail => .stop .failed
  | .tooLong => .stop .threw
  | .frame total tail segment => .item total (r.afterFrame h total tail segment)

/-- The reference parser of the frames a handler asks for. -/
def referenceParser (h : ReadHandler) : StreamParser ReferenceState Byte Verdict where
  parse r input :=
    r.decision h (parseFrame (h r.delivered).settings (maxSize - r.retained) input)
  stable := by
    intro r xs ys hne
    rw [parseFrame_append ys]
    intro hm
    rw [hm] at hne
    exact hne rfl
  bounds := by
    intro r xs n t hp
    cases hf : parseFrame (h r.delivered).settings (maxSize - r.retained) xs with
    | more | fail | tooLong =>
        rw [hf] at hp
        exact absurd hp (by simp [ReferenceState.decision])
    | frame total tail segment =>
        rw [hf] at hp
        obtain ⟨rfl, -⟩ := ParseStep.item.inj hp
        exact parseFrame_bounds hf

/-- The segments of a stream, and why framing ends if it does before the stream does. -/
def referenceParse (h : ReadHandler) (stream : List Byte) : List (List Byte) × Option Verdict :=
  let result := (referenceParser h).parseAll ⟨[], 0⟩ stream
  (result.1.delivered, result.2)

theorem referenceParse_ne_overrun (h : ReadHandler) (stream : List Byte) :
    (referenceParse h stream).2 ≠ some .overrun := by
  intro hv
  obtain ⟨r, input, hstop⟩ := (referenceParser h).exists_stop_of_parseSteps hv
  change r.decision h (parseFrame _ _ input) = .stop .overrun at hstop
  cases hf : parseFrame (h r.delivered).settings (maxSize - r.retained) input <;>
    rw [hf] at hstop <;> simp [ReferenceState.decision] at hstop

end Minapp
