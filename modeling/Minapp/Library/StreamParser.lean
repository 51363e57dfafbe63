import Mathlib.Data.List.Infix

/-! Parsers of a stream of items whose decisions do not depend on how much of the stream
is known beyond them, and their iteration over an input. -/

/-- What a parser decides about the start of its input. -/
inductive ParseStep (σ ε : Type*) where
  /-- The input is too short to decide. -/
  | more
  /-- Parsing ends here. -/
  | stop (reason : ε)
  /-- An item of `size` elements, and the state to parse the next one in. -/
  | item (size : ℕ) (next : σ)
  deriving DecidableEq, Repr

/-- A parser in states `σ` of inputs over `α`. A decision is kept when the input grows,
and an item is a nonempty part of the input. -/
structure StreamParser (σ α ε : Type*) where
  parse : σ → List α → ParseStep σ ε
  stable : ∀ s xs ys, parse s xs ≠ .more → parse s (xs ++ ys) = parse s xs
  bounds : ∀ s xs n t, parse s xs = .item n t → 0 < n ∧ n ≤ xs.length

namespace StreamParser

variable {σ α ε : Type*} (p : StreamParser σ α ε)

/-- Parses at most `fuel` items: the state reached, and why parsing ended there, if for
another reason than the end of the input. -/
def parseSteps : ℕ → σ → List α → σ × Option ε
  | 0, s, _ => (s, none)
  | fuel + 1, s, xs =>
    match p.parse s xs with
    | .more => (s, none)
    | .stop reason => (s, some reason)
    | .item size next => parseSteps fuel next (xs.drop size)

/-- Parses a whole input. -/
def parseAll (s : σ) (xs : List α) : σ × Option ε := p.parseSteps (xs.length + 1) s xs

/-- More steps than the input has elements change nothing. -/
theorem parseSteps_congr {f g : ℕ} {s : σ} {xs : List α} (hf : xs.length < f)
    (hg : xs.length < g) : p.parseSteps f s xs = p.parseSteps g s xs := by
  induction f generalizing g s xs with
  | zero => exact absurd hf (Nat.not_lt_zero _)
  | succ f ih =>
      cases g with
      | zero => exact absurd hg (Nat.not_lt_zero _)
      | succ g =>
          simp only [parseSteps]
          cases hp : p.parse s xs with
          | more => rfl
          | stop reason => rfl
          | item size next =>
              have hb := p.bounds _ _ _ _ hp
              have hlen : (xs.drop size).length < xs.length := by
                simp only [List.length_drop]
                omega
              exact ih (by omega) (by omega)

theorem parseAll_of_more {s : σ} {xs : List α} (h : p.parse s xs = .more) :
    p.parseAll s xs = (s, none) := by
  simp only [parseAll, parseSteps, h]

theorem parseAll_of_stop {s : σ} {xs : List α} {reason : ε} (h : p.parse s xs = .stop reason) :
    p.parseAll s xs = (s, some reason) := by
  simp only [parseAll, parseSteps, h]

theorem parseAll_of_item {s next : σ} {xs : List α} {size : ℕ}
    (h : p.parse s xs = .item size next) :
    p.parseAll s xs = p.parseAll next (xs.drop size) := by
  have hb := p.bounds _ _ _ _ h
  have hlen : (xs.drop size).length < xs.length := by
    simp only [List.length_drop]
    omega
  calc
    p.parseAll s xs = p.parseSteps xs.length next (xs.drop size) := by
      simp only [parseAll, parseSteps, h]
    _ = p.parseAll next (xs.drop size) := p.parseSteps_congr hlen (Nat.lt_succ_self _)

/-- A reason for which parsing ends is one that some step gives. -/
theorem exists_stop_of_parseSteps {fuel : ℕ} {s : σ} {xs : List α} {reason : ε}
    (h : (p.parseSteps fuel s xs).2 = some reason) : ∃ t ys, p.parse t ys = .stop reason := by
  induction fuel generalizing s xs with
  | zero => exact absurd h (by simp [parseSteps])
  | succ fuel ih =>
      rw [parseSteps] at h
      cases hp : p.parse s xs with
      | more =>
          rw [hp] at h
          exact absurd h (by simp)
      | stop reason' =>
          rw [hp] at h
          obtain rfl := Option.some.inj h
          exact ⟨s, xs, hp⟩
      | item size next =>
          rw [hp] at h
          exact ih h

end StreamParser
