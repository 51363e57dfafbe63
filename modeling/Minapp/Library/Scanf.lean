import Mathlib.Algebra.Group.Nat.Defs
import Mathlib.Algebra.Ring.Int.Defs
import Mathlib.Data.List.TakeWhile

/-! `sscanf` of the C standard, with the conversions of hexadecimal integers and of sets of
characters that are not assigned. -/

namespace Scanf

inductive Directive where
  /-- `%X` with a field width. -/
  | hex (width : ℕ)
  /-- `%*[set]`. -/
  | skip (set : List UInt8)
  deriving DecidableEq, Repr

/-- What a directive comes to: the input is at its end, or does not match, or is matched up to
a rest. -/
inductive Outcome (α : Type*) where
  | inputFailure
  | matchingFailure
  | matched (value : α) (rest : List UInt8)
  deriving DecidableEq, Repr

/-- `isspace`. -/
def isSpace (c : UInt8) : Bool := c == 32 || 9 ≤ c && c ≤ 13

def isSign (c : UInt8) : Bool := c == 43 || c == 45

def hexDigit (c : UInt8) : Option ℕ :=
  if 48 ≤ c ∧ c ≤ 57 then some (c.toNat - 48)
  else if 65 ≤ c ∧ c ≤ 70 then some (c.toNat - 55)
  else if 97 ≤ c ∧ c ≤ 102 then some (c.toNat - 87)
  else none

def isHex (c : UInt8) : Bool := (hexDigit c).isSome

/-- The number that digits stand for. -/
def number (digits : List UInt8) : ℕ :=
  digits.foldl (fun n c => 16 * n + (hexDigit c).getD 0) 0

/-- `0x` or `0X`. -/
def hasRadix (s : List UInt8) : Bool :=
  s.head? == some 48 && ((s.drop 1).head? == some 120 || (s.drop 1).head? == some 88)

/-- Digits with or without the radix before them: how many characters are, or begin, such a
number, and the number if they are one. -/
def magnitude (s : List UInt8) : ℕ × Option ℕ :=
  let radix := if hasRadix s then 2 else 0
  let digits := (s.drop radix).takeWhile isHex
  (radix + digits.length, if digits = [] then none else some (number digits))

/-- The same with a sign. -/
def integer : List UInt8 → ℕ × Option ℤ
  | [] => (0, none)
  | c :: s =>
    if isSign c then
      ((magnitude s).1 + 1, (magnitude s).2.map fun n : ℕ => if c = 45 then -(n : ℤ) else n)
    else ((magnitude (c :: s)).1, (magnitude (c :: s)).2.map Int.ofNat)

/-- `%X`: white space is skipped, and the longest input within the width that is or begins an
integer is read. The integer is stored in an `unsigned` of 32 bits. -/
def scanHex (width : ℕ) (s : List UInt8) : Outcome ℕ :=
  let s := s.dropWhile isSpace
  if s = [] then .inputFailure
  else
    let item := integer (s.take width)
    match item.2 with
    | some v => .matched (v % 2 ^ 32).toNat (s.drop item.1)
    | none => .matchingFailure

/-- `%*[set]`: as many characters of the set as there are, at least one. -/
def scanSkip (set s : List UInt8) : Outcome Unit :=
  if s = [] then .inputFailure
  else if s.takeWhile (set.contains ·) = [] then .matchingFailure
  else .matched () (s.dropWhile (set.contains ·))

/-- The directives are executed until one fails. The result is the number of values assigned,
or `EOF` if the input ended before a conversion had completed, with the values. -/
def run : List Directive → List UInt8 → Bool → List ℕ → ℤ × List ℕ
  | [], _, _, values => (values.length, values)
  | .hex width :: ds, s, completed, values =>
    match scanHex width s with
    | .inputFailure => (if completed then values.length else -1, values)
    | .matchingFailure => (values.length, values)
    | .matched v rest => run ds rest true (values ++ [v])
  | .skip set :: ds, s, completed, values =>
    match scanSkip set s with
    | .inputFailure => (if completed then values.length else -1, values)
    | .matchingFailure => (values.length, values)
    | .matched _ rest => run ds rest true values

def sscanf (s : List UInt8) (format : List Directive) : ℤ × List ℕ := run format s false []

/-! ## Formats that are matched as a whole -/

/-- The values, if every directive is matched. -/
def matchAll : List Directive → List UInt8 → Option (List ℕ)
  | [], _ => some []
  | .hex width :: ds, s =>
    match scanHex width s with
    | .matched v rest => (matchAll ds rest).map (v :: ·)
    | _ => none
  | .skip set :: ds, s =>
    match scanSkip set s with
    | .matched _ rest => matchAll ds rest
    | _ => none

/-- The number of values a format assigns. -/
def assigned (ds : List Directive) : ℕ :=
  ds.countP fun
    | .hex _ => true
    | .skip _ => false

variable {ds : List Directive} {s : List UInt8} {completed : Bool} {values vs : List ℕ}

theorem run_of_matchAll (h : matchAll ds s = some vs) :
    run ds s completed values = (((values ++ vs).length : ℤ), values ++ vs) := by
  induction ds generalizing s completed values vs with
  | nil =>
      obtain rfl := Option.some.inj h
      rw [run, List.append_nil]
  | cons d ds ih =>
      cases d with
      | hex width =>
          rw [matchAll] at h
          rw [run]
          cases hscan : scanHex width s with
          | inputFailure => simp [hscan] at h
          | matchingFailure => simp [hscan] at h
          | matched v rest =>
              simp only [hscan] at h ⊢
              obtain ⟨ws, hws, rfl⟩ := Option.map_eq_some_iff.mp h
              rw [ih hws, List.append_assoc]
              rfl
      | skip set =>
          rw [matchAll] at h
          rw [run]
          cases hscan : scanSkip set s with
          | inputFailure => simp [hscan] at h
          | matchingFailure => simp [hscan] at h
          | matched v rest =>
              simp only [hscan] at h ⊢
              exact ih h

theorem length_of_matchAll (h : matchAll ds s = some vs) : vs.length = assigned ds := by
  induction ds generalizing s vs with
  | nil =>
      obtain rfl := Option.some.inj h
      rfl
  | cons d ds ih =>
      cases d with
      | hex width =>
          rw [matchAll] at h
          split at h
          · obtain ⟨ws, hws, rfl⟩ := Option.map_eq_some_iff.mp h
            rw [List.length_cons, ih hws, assigned, assigned, List.countP_cons_of_pos rfl]
          · exact absurd h (by simp)
      | skip set =>
          rw [matchAll] at h
          split at h
          · rw [ih h, assigned, assigned, List.countP_cons_of_neg (by simp)]
          · exact absurd h (by simp)

/-- A format that ends in an assignment has assigned fewer values when a directive fails. -/
theorem run_lt_of_matchAll (h : matchAll ds s = none)
    (hlast : ∃ width, ds.getLast? = some (.hex width)) :
    (run ds s completed values).1 < values.length + assigned ds := by
  induction ds generalizing s completed values with
  | nil => exact absurd h (by simp [matchAll])
  | cons d ds ih =>
      -- something is left to assign from here on
      have hpos : 0 < assigned (d :: ds) := by
        obtain ⟨width, hlast⟩ := hlast
        exact List.countP_pos_iff.mpr ⟨_, List.mem_of_getLast? hlast, rfl⟩
      have hlast' : ∀ rest, matchAll ds rest = none → ∃ width, ds.getLast? = some (.hex width) := by
        intro rest hnone
        cases ds with
        | nil => exact absurd hnone (by simp [matchAll])
        | cons d' ds => simpa [List.getLast?_cons_cons] using hlast
      cases d with
      | hex width =>
          rw [matchAll] at h
          rw [run]
          cases hscan : scanHex width s with
          | inputFailure =>
              simp only
              split <;> omega
          | matchingFailure =>
              simp only
              omega
          | matched v rest =>
              simp only [hscan, Option.map_eq_none_iff] at h ⊢
              have hlt := @ih rest true (values ++ [v]) h (hlast' rest h)
              rw [List.length_append, List.length_singleton] at hlt
              rw [assigned, List.countP_cons_of_pos rfl]
              rw [assigned] at hlt
              omega
      | skip set =>
          rw [matchAll] at h
          rw [run]
          cases hscan : scanSkip set s with
          | inputFailure =>
              simp only
              split <;> omega
          | matchingFailure =>
              simp only
              omega
          | matched v rest =>
              simp only [hscan] at h ⊢
              have hlt := @ih rest true values h (hlast' rest h)
              rwa [assigned, List.countP_cons_of_neg (by simp)]

/-- All values are assigned exactly if every directive is matched. -/
theorem sscanf_eq (hlast : ∃ width, ds.getLast? = some (.hex width)) :
    (∃ vs, matchAll ds s = some vs ∧ sscanf s ds = ((assigned ds : ℤ), vs)) ∨
      matchAll ds s = none ∧ (sscanf s ds).1 < assigned ds := by
  cases h : matchAll ds s with
  | none =>
      refine .inr ⟨rfl, ?_⟩
      have hlt : (run ds s false []).1 < [].length + assigned ds := run_lt_of_matchAll h hlast
      simpa [sscanf] using hlt
  | some vs =>
      refine .inl ⟨vs, rfl, ?_⟩
      rw [sscanf, run_of_matchAll h, List.nil_append, length_of_matchAll h]

/-! ## Characters -/

section Characters

variable {c : UInt8} {m : ℕ}

theorem hexDigit_lt (h : hexDigit c = some m) : m < 16 := by
  unfold hexDigit at h
  simp only [UInt8.le_iff_toNat_le, UInt8.toNat_ofNat] at h
  split_ifs at h <;> obtain rfl := Option.some.inj h <;> omega

theorem isHex_of_hexDigit (h : hexDigit c = some m) : isHex c = true := by
  rw [isHex, h]
  rfl

theorem hexDigit_of_isHex (h : isHex c = true) : ∃ m, hexDigit c = some m :=
  Option.isSome_iff_exists.mp h

theorem not_isSign_of_hexDigit (h : hexDigit c = some m) : isSign c = false := by
  rw [Bool.eq_false_iff]
  intro hs
  simp only [isSign, Bool.or_eq_true, beq_iff_eq] at hs
  rcases hs with rfl | rfl <;> simp [hexDigit] at h

theorem not_isSpace_of_isSign (h : isSign c = true) : isSpace c = false := by
  simp only [isSign, Bool.or_eq_true, beq_iff_eq] at h
  rcases h with rfl | rfl <;> decide

theorem not_isSpace_of_hexDigit (h : hexDigit c = some m) : isSpace c = false := by
  rw [Bool.eq_false_iff]
  intro hs
  simp only [isSpace, Bool.or_eq_true, beq_iff_eq, Bool.and_eq_true, decide_eq_true_eq,
    UInt8.le_iff_toNat_le, UInt8.toNat_ofNat] at hs
  unfold hexDigit at h
  simp only [UInt8.le_iff_toNat_le, UInt8.toNat_ofNat] at h
  rcases hs with rfl | hs
  · simp at h
  · split_ifs at h <;> omega

end Characters

/-! ## Fields of two characters -/

/-- What `%2X` reads as the value `v`, if `rest` follows it. -/
inductive Field : List UInt8 → ℕ → List UInt8 → Prop where
  | blank {c text v rest} : isSpace c = true → Field text v rest → Field (c :: text) v rest
  | two {h l m n rest} : hexDigit h = some m → hexDigit l = some n →
      Field [h, l] (16 * m + n) rest
  /-- One digit is read only if the next character could not belong to the integer. -/
  | one {h m rest} : hexDigit h = some m →
      (∀ c ∈ rest.head?, isHex c = false ∧ ¬ (h = 48 ∧ (c = 120 ∨ c = 88))) → Field [h] m rest
  | plus {l n rest} : hexDigit l = some n → Field [43, l] n rest
  | minus {l n rest} : hexDigit l = some n → Field [45, l] (-(n : ℤ) % 2 ^ 32).toNat rest

section Hex

variable {c h l : UInt8} {m n v width : ℕ} {rest text : List UInt8}

theorem toNat_emod (h : v < 2 ^ 32) : ((v : ℤ) % 2 ^ 32).toNat = v := by
  omega

theorem scanHex_blank (hc : isSpace c = true) : scanHex width (c :: s) = scanHex width s := by
  rw [scanHex, scanHex, List.dropWhile_cons_of_pos hc]

theorem scanHex_of_not_isSpace (hc : isSpace c = false) :
    scanHex width (c :: s) =
      match (integer ((c :: s).take width)).2 with
      | some v => .matched (v % 2 ^ 32).toNat ((c :: s).drop (integer ((c :: s).take width)).1)
      | none => .matchingFailure := by
  rw [scanHex, List.dropWhile_cons_of_neg (by simp [hc])]
  simp only [reduceCtorEq, if_false]

theorem hasRadix_cons_cons :
    hasRadix (h :: l :: s) = true ↔ h = 48 ∧ (l = 120 ∨ l = 88) := by
  simp [hasRadix]

/-- A magnitude without a radix is all its digits. -/
theorem magnitude_of_not_hasRadix (hs : hasRadix s = false) :
    magnitude s = ((s.takeWhile isHex).length,
      if s.takeWhile isHex = [] then none else some (number (s.takeWhile isHex))) := by
  simp [magnitude, hs]

theorem magnitude_of_not_isHex (hc : isHex c = false) : magnitude (c :: s) = (0, none) := by
  have hradix : hasRadix (c :: s) = false := by
    rw [Bool.eq_false_iff]
    intro hr
    obtain rfl : c = 48 := by simpa using (Bool.and_eq_true_iff.mp hr).1
    exact absurd hc (by decide)
  rw [magnitude_of_not_hasRadix hradix, List.takeWhile_cons_of_neg (by simp [hc])]
  rfl

theorem magnitude_one (hh : hexDigit h = some m) : magnitude [h] = (1, some m) := by
  rw [magnitude_of_not_hasRadix (by simp [hasRadix]),
    List.takeWhile_cons_of_pos (isHex_of_hexDigit hh)]
  simp [number, hh]

theorem magnitude_one_of_not_isHex (hh : hexDigit h = some m) (hl : isHex l = false)
    (hradix : hasRadix [h, l] = false) : magnitude [h, l] = (1, some m) := by
  rw [magnitude_of_not_hasRadix hradix, List.takeWhile_cons_of_pos (isHex_of_hexDigit hh),
    List.takeWhile_cons_of_neg (by simp [hl])]
  simp [number, hh]

theorem magnitude_two (hh : hexDigit h = some m) (hl : hexDigit l = some n) :
    magnitude [h, l] = (2, some (16 * m + n)) := by
  have hradix : hasRadix [h, l] = false := by
    rw [Bool.eq_false_iff]
    intro hr
    obtain ⟨-, rfl | rfl⟩ := hasRadix_cons_cons.mp hr <;> simp [hexDigit] at hl
  rw [magnitude_of_not_hasRadix hradix, List.takeWhile_cons_of_pos (isHex_of_hexDigit hh),
    List.takeWhile_cons_of_pos (isHex_of_hexDigit hl)]
  simp [number, hh, hl]

theorem magnitude_radix (hradix : hasRadix [h, l] = true) : magnitude [h, l] = (2, none) := by
  rw [magnitude, hradix]
  rfl

/-! Each rule of `Field` is what is read. -/

theorem scanHex_two (hh : hexDigit h = some m) (hl : hexDigit l = some n) :
    scanHex 2 (h :: l :: rest) = .matched (16 * m + n) rest := by
  have hm := hexDigit_lt hh
  have hn := hexDigit_lt hl
  rw [scanHex_of_not_isSpace (not_isSpace_of_hexDigit hh)]
  simp only [List.take_succ_cons, List.take_zero, integer, not_isSign_of_hexDigit hh,
    Bool.false_eq_true, if_false, magnitude_two hh hl, Option.map_some, List.drop_succ_cons,
    List.drop_zero, Outcome.matched.injEq, and_true]
  exact toNat_emod (by omega)

theorem scanHex_one (hh : hexDigit h = some m)
    (hrest : ∀ c ∈ rest.head?, isHex c = false ∧ ¬ (h = 48 ∧ (c = 120 ∨ c = 88))) :
    scanHex 2 (h :: rest) = .matched m rest := by
  have hm := hexDigit_lt hh
  have hmagnitude : magnitude ((h :: rest).take 2) = (1, some m) := by
    cases rest with
    | nil => exact magnitude_one hh
    | cons c rest =>
        obtain ⟨hc, hradix⟩ := hrest c rfl
        apply magnitude_one_of_not_isHex hh hc
        rw [Bool.eq_false_iff]
        exact fun hr => hradix (hasRadix_cons_cons.mp hr)
  rw [List.take_succ_cons] at hmagnitude
  rw [scanHex_of_not_isSpace (not_isSpace_of_hexDigit hh)]
  simp only [List.take_succ_cons, integer, not_isSign_of_hexDigit hh, Bool.false_eq_true, if_false,
    hmagnitude, Option.map_some, List.drop_succ_cons, List.drop_zero, Outcome.matched.injEq,
    and_true]
  exact toNat_emod (by omega)

theorem scanHex_sign (hc : isSign c = true) (hl : hexDigit l = some n) :
    scanHex 2 (c :: l :: rest) =
      .matched ((if c = 45 then -(n : ℤ) else n) % 2 ^ 32).toNat rest := by
  rw [scanHex_of_not_isSpace (not_isSpace_of_isSign hc)]
  simp only [List.take_succ_cons, List.take_zero, integer, hc, if_true, magnitude_one hl,
    Option.map_some, List.drop_succ_cons, List.drop_zero]

theorem scanHex_of_field (hf : Field text v rest) : scanHex 2 (text ++ rest) = .matched v rest := by
  induction hf with
  | blank hc _ ih => rwa [List.cons_append, scanHex_blank hc]
  | two hh hl => exact scanHex_two hh hl
  | one hh hrest => exact scanHex_one hh hrest
  | @plus l n rest hl =>
      have hn := hexDigit_lt hl
      have hscan := @scanHex_sign 43 l n rest (by decide) hl
      rw [if_neg (by decide), toNat_emod (by omega)] at hscan
      exact hscan
  | @minus l n rest hl =>
      have hscan := @scanHex_sign 45 l n rest (by decide) hl
      rwa [if_pos rfl] at hscan

/-- Behind a sign there is a digit. -/
theorem field_of_isSign (hc : isSign c = true) (hs : scanHex 2 (c :: s) = .matched v rest) :
    ∃ text, c :: s = text ++ rest ∧ Field text v rest := by
  have hspace := not_isSpace_of_isSign hc
  cases s with
  | nil => simp [scanHex_of_not_isSpace hspace, integer, hc, magnitude, hasRadix] at hs
  | cons l s =>
      cases hl : isHex l with
      | false =>
          simp [scanHex_of_not_isSpace hspace, integer, hc, magnitude_of_not_isHex hl] at hs
      | true =>
          obtain ⟨n, hl⟩ := hexDigit_of_isHex hl
          have hn := hexDigit_lt hl
          rw [scanHex_sign hc hl] at hs
          obtain ⟨rfl, rfl⟩ := Outcome.matched.inj hs
          refine ⟨[c, l], rfl, ?_⟩
          simp only [isSign, Bool.or_eq_true, beq_iff_eq] at hc
          rcases hc with rfl | rfl
          · rw [if_neg (by decide), toNat_emod (by omega)]
            exact .plus hl
          · rw [if_pos rfl]
            exact .minus hl

/-- Behind a digit there is another one, or something that does not go on with the number. -/
theorem field_of_hexDigit (hm : hexDigit c = some m)
    (hs : scanHex 2 (c :: s) = .matched v rest) :
    ∃ text, c :: s = text ++ rest ∧ Field text v rest := by
  cases s with
  | nil =>
      rw [scanHex_one hm (by simp)] at hs
      obtain ⟨rfl, rfl⟩ := Outcome.matched.inj hs
      exact ⟨[c], rfl, .one hm (by simp)⟩
  | cons l s =>
      cases hl : isHex l with
      | true =>
          obtain ⟨n, hn⟩ := hexDigit_of_isHex hl
          rw [scanHex_two hm hn] at hs
          obtain ⟨rfl, rfl⟩ := Outcome.matched.inj hs
          exact ⟨[c, l], rfl, .two hm hn⟩
      | false =>
          cases hradix : hasRadix [c, l] with
          | true =>
              simp [scanHex_of_not_isSpace (not_isSpace_of_hexDigit hm), integer,
                not_isSign_of_hexDigit hm, magnitude_radix hradix] at hs
          | false =>
              have hrest : ∀ d ∈ (l :: s).head?, isHex d = false ∧
                  ¬ (c = 48 ∧ (d = 120 ∨ d = 88)) := by
                intro d hd
                obtain rfl := Option.some.inj hd
                refine ⟨hl, fun hr => ?_⟩
                rw [hasRadix_cons_cons.mpr hr] at hradix
                exact Bool.noConfusion hradix
              rw [scanHex_one hm hrest] at hs
              obtain ⟨rfl, rfl⟩ := Outcome.matched.inj hs
              exact ⟨[c], rfl, .one hm hrest⟩

/-- Nothing else is read. -/
theorem field_of_scanHex (hs : scanHex 2 s = .matched v rest) :
    ∃ text, s = text ++ rest ∧ Field text v rest := by
  induction s with
  | nil => exact absurd hs (by simp [scanHex])
  | cons c s ih =>
      cases hspace : isSpace c with
      | true =>
          rw [scanHex_blank hspace] at hs
          obtain ⟨text, rfl, hf⟩ := ih hs
          exact ⟨c :: text, rfl, .blank hspace hf⟩
      | false =>
          cases hsign : isSign c with
          | true => exact field_of_isSign hsign hs
          | false =>
              cases hc : isHex c with
              | false =>
                  simp [scanHex_of_not_isSpace hspace, integer, hsign,
                    magnitude_of_not_isHex hc] at hs
              | true =>
                  obtain ⟨m, hm⟩ := hexDigit_of_isHex hc
                  exact field_of_hexDigit hm hs

theorem scanHex_iff :
    scanHex 2 s = .matched v rest ↔ ∃ text, s = text ++ rest ∧ Field text v rest := by
  constructor
  · exact field_of_scanHex
  · rintro ⟨text, rfl, hf⟩
    exact scanHex_of_field hf

end Hex

/-! ## Characters of a set -/

/-- What `%*[set]` reads, if `rest` follows it: at least one character, and all there are. -/
structure Skipped (set text rest : List UInt8) : Prop where
  nonempty : text ≠ []
  mem : ∀ c ∈ text, c ∈ set
  all : ∀ c ∈ rest.head?, c ∉ set

theorem scanSkip_iff {set rest : List UInt8} :
    scanSkip set s = .matched () rest ↔ ∃ text, s = text ++ rest ∧ Skipped set text rest := by
  constructor
  · intro hs
    rw [scanSkip] at hs
    split_ifs at hs with hnil hnone
    obtain ⟨-, rfl⟩ := Outcome.matched.inj hs
    refine ⟨_, (List.takeWhile_append_dropWhile).symm, hnone, ?_, ?_⟩
    · intro c hc
      simpa using List.mem_takeWhile_imp hc
    · intro c hc
      have := List.head?_dropWhile_not (set.contains ·) s
      rw [Option.mem_def.mp hc] at this
      simpa using this
  · rintro ⟨text, rfl, hnonempty, hmem, hall⟩
    have htake : (text ++ rest).takeWhile (set.contains ·) = text := by
      rw [List.takeWhile_append_of_pos (by simpa using hmem)]
      cases rest with
      | nil => simp
      | cons c rest =>
          rw [List.takeWhile_cons_of_neg (by simpa using hall c rfl), List.append_nil]
    have hdrop : (text ++ rest).dropWhile (set.contains ·) = rest := by
      rw [List.dropWhile_append_of_pos (by simpa using hmem)]
      cases rest with
      | nil => rfl
      | cons c rest => rw [List.dropWhile_cons_of_neg (by simpa using hall c rfl)]
    rw [scanSkip, if_neg (by simp [hnonempty]), htake, if_neg hnonempty, hdrop]

end Scanf
