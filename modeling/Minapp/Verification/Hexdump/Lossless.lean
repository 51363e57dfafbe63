import Minapp.Library.Hexadecimal
import Minapp.Library.Scanf
import Minapp.Model.Hexdump

/-! # What a dump shows

Every line is made of the bytes it stands for, a full one and the last one alike, as long as
the counters reach their bounds. -/

namespace Minapp.Hexdump

open CountedLoop Hexadecimal

/-! ## Lines -/

variable (signed : Bool) (o : Options)

/-- The columns of a byte. -/
def hexColumn (c : Byte) : List Byte :=
  [tableDigit o.uppercase (c >>> 4).toNat, tableDigit o.uppercase (c &&& 0x0f).toNat, 32]

/-- The line of some bytes, filled up with blanks to the width. -/
def lineOf (chunk : List Byte) : List Byte :=
  [124, 32] ++ (chunk.flatMap (hexColumn o) ++
    List.replicate (3 * (o.bytesPerLine.toNat - chunk.length)) 32) ++ [124] ++
    (chunk.map (printable signed o) ++
      List.replicate (o.bytesPerLine.toNat - chunk.length) 32) ++ [124, 10]

/-- The bytes that columns of two digits and a blank show. -/
def decodeColumns : List Byte → List Byte
  | high :: low :: _ :: rest =>
    (decodePair Scanf.hexDigit high low).toList ++ decodeColumns rest
  | _ => []

/-- The bytes in the hexadecimal columns of a line. -/
def hexColumns (line : List Byte) : List Byte :=
  decodeColumns ((line.drop 2).take (3 * o.bytesPerLine.toNat))

/-- The text columns of a line. -/
def textColumns (line : List Byte) : List Byte :=
  (line.drop (3 + 3 * o.bytesPerLine.toNat)).take o.bytesPerLine.toNat

variable {signed o} {chunk rest : List Byte}

theorem hexDigit_tableDigit (uppercase : Bool) :
    ∀ n < 16, Scanf.hexDigit (tableDigit uppercase n) = some n := by
  cases uppercase <;> decide

theorem decodeColumns_append (chunk rest : List Byte) :
    decodeColumns (chunk.flatMap (hexColumn o) ++ rest) = chunk ++ decodeColumns rest := by
  induction chunk with
  | nil => rfl
  | cons c chunk ih =>
      simp only [List.flatMap_cons, hexColumn, List.cons_append, List.nil_append, decodeColumns,
        decodePair_digits (hexDigit_tableDigit o.uppercase) c, Option.toList_some]
      rw [← ih]

theorem decodeColumns_blank (n : ℕ) : decodeColumns (List.replicate (3 * n) 32) = [] := by
  induction n with
  | zero => rfl
  | succ n ih =>
      rw [Nat.mul_succ, List.replicate_succ, List.replicate_succ, List.replicate_succ,
        decodeColumns, ih]
      rfl

theorem length_flatMap_hexColumn (chunk : List Byte) :
    (chunk.flatMap (hexColumn o)).length = 3 * chunk.length := by
  induction chunk with
  | nil => rfl
  | cons c chunk ih =>
      rw [List.flatMap_cons, List.length_append, ih, List.length_cons]
      simp only [hexColumn, List.length_cons, List.length_nil]
      omega

theorem length_lineOf (h : chunk.length ≤ o.bytesPerLine.toNat) :
    (lineOf signed o chunk).length = 4 * o.bytesPerLine.toNat + 5 := by
  simp only [lineOf, List.length_append, length_flatMap_hexColumn, List.length_replicate,
    List.length_map, List.length_cons, List.length_nil]
  omega

theorem hexColumns_lineOf (h : chunk.length ≤ o.bytesPerLine.toNat) :
    hexColumns o (lineOf signed o chunk) = chunk := by
  have hlen : (chunk.flatMap (hexColumn o) ++
      List.replicate (3 * (o.bytesPerLine.toNat - chunk.length)) 32).length =
        3 * o.bytesPerLine.toNat := by
    rw [List.length_append, length_flatMap_hexColumn, List.length_replicate]
    omega
  rw [hexColumns, lineOf]
  simp only [List.append_assoc, List.cons_append, List.nil_append, List.drop_succ_cons,
    List.drop_zero]
  rw [← List.append_assoc, List.take_append_of_le_length hlen.ge, List.take_of_length_le hlen.le,
    decodeColumns_append, decodeColumns_blank, List.append_nil]

theorem textColumns_lineOf (h : chunk.length ≤ o.bytesPerLine.toNat) :
    textColumns o (lineOf signed o chunk) = chunk.map (printable signed o) ++
      List.replicate (o.bytesPerLine.toNat - chunk.length) 32 := by
  have hlen : ([124, 32] ++ (chunk.flatMap (hexColumn o) ++
      List.replicate (3 * (o.bytesPerLine.toNat - chunk.length)) 32) ++ [(124 : Byte)]).length =
        3 + 3 * o.bytesPerLine.toNat := by
    simp only [List.length_append, length_flatMap_hexColumn, List.length_replicate,
      List.length_cons, List.length_nil]
    omega
  have htext : (chunk.map (printable signed o) ++
      List.replicate (o.bytesPerLine.toNat - chunk.length) 32).length = o.bytesPerLine.toNat := by
    rw [List.length_append, List.length_map, List.length_replicate]
    omega
  rw [textColumns, lineOf, List.append_assoc, ← hlen, List.drop_left,
    List.take_append_of_le_length htext.ge, List.take_of_length_le htext.le]

/-! ## The loops -/

variable {fuel : ℕ} {memory : List Byte} {s : State}

theorem take_succ_drop {i : ℕ} {c : Byte} {p : ℕ} (h : memory[p + i]? = some c) :
    (memory.drop p).take (i + 1) = (memory.drop p).take i ++ [c] := by
  rw [List.take_add_one, List.getElem?_drop, h]
  rfl

variable (memory) in
theorem getElem?_of_lt {i : ℕ} (h : i < memory.length) : ∃ c, memory[i]? = some c :=
  ⟨_, List.getElem?_eq_getElem h⟩

/-- The hexadecimal columns of the next `n` bytes. -/
theorem loop_putHex {n : ℕ} (hn : n < 2 ^ 32) (hfuel : n < fuel) (hs : s.p + n ≤ memory.length) :
    unsignedLoop n (putHex o memory) fuel s =
      some (s.putc (((memory.drop s.p).take n).flatMap (hexColumn o))) := by
  refine forLoop_eq (fun i => s.putc (((memory.drop s.p).take i).flatMap (hexColumn o))) hn ?_
    hfuel (by simp [State.putc])
  intro i hi
  obtain ⟨c, hc⟩ := getElem?_of_lt memory (i := s.p + i) (by omega)
  rw [putHex, State.putc, hc, Option.map_some, take_succ_drop hc, List.flatMap_append]
  simp [State.putc, hexColumn]

/-- The text of the next `n` bytes, which `p` is moved past. -/
theorem loop_putText {n : ℕ} (hn : n < 2 ^ 32) (hfuel : n < fuel)
    (hs : s.p + n ≤ memory.length) :
    unsignedLoop n (putText signed o memory) fuel s =
      some ({ s with p := s.p + n }.putc
        (((memory.drop s.p).take n).map (printable signed o))) := by
  refine forLoop_eq (s := s) (fun i => { s with p := s.p + i }.putc
    (((memory.drop s.p).take i).map (printable signed o))) hn ?_ hfuel (by simp [State.putc])
  intro i hi
  obtain ⟨c, hc⟩ := getElem?_of_lt memory (i := s.p + i) (by omega)
  rw [putText, State.putc, hc, Option.map_some, take_succ_drop hc, List.map_append]
  simp [State.putc, Nat.add_assoc]

theorem loop_putBlank {n : ℕ} (hn : n < 2 ^ 32) (hfuel : n < fuel) :
    unsignedLoop n putBlank fuel s = some (s.putc (List.replicate n 32)) := by
  refine forLoop_eq (fun i => s.putc (List.replicate i 32)) hn ?_ hfuel (by simp [State.putc])
  intro i hi
  simp [putBlank, State.putc, List.replicate_succ']

/-- The next bytes of the memory, as many as a line has. -/
def chunkAt (o : Options) (memory : List Byte) (i : ℕ) : List Byte :=
  (memory.drop (i * o.bytesPerLine.toNat)).take o.bytesPerLine.toNat

theorem dumpLine_eq (j : ℕ) (hfuel : o.bytesPerLine.toNat < fuel)
    (hs : s.p + o.bytesPerLine.toNat ≤ memory.length) :
    dumpLine signed o fuel memory j s =
      some ({ s with p := s.p + o.bytesPerLine.toNat }.putc
        (lineOf signed o ((memory.drop s.p).take o.bytesPerLine.toNat))) := by
  have hlt : o.bytesPerLine.toNat < 2 ^ 32 := o.bytesPerLine.toNat_lt
  have hlen : ((memory.drop s.p).take o.bytesPerLine.toNat).length = o.bytesPerLine.toNat := by
    rw [List.length_take, List.length_drop]
    omega
  simp only [dumpLine, Option.bind_eq_bind, State.putc]
  rw [loop_putHex hlt hfuel (by exact hs)]
  simp only [Option.bind_some, State.putc]
  rw [loop_putText hlt hfuel (by exact hs)]
  simp [State.putc, lineOf, hlen]

theorem dumpLast_eq {n : ℕ} (hn : n < o.bytesPerLine.toNat)
    (hblank : 3 * (o.bytesPerLine.toNat - n) < 2 ^ 32)
    (hfuel : 3 * o.bytesPerLine.toNat < fuel) (hs : s.p + n = memory.length) :
    dumpLast signed o fuel memory n s =
      some ({ s with p := s.p + n }.putc (lineOf signed o (memory.drop s.p))) := by
  have hlt : o.bytesPerLine.toNat < 2 ^ 32 := o.bytesPerLine.toNat_lt
  have hlen : (memory.drop s.p).length = n := by
    rw [List.length_drop]
    omega
  have hwrap : wrap (3 * (o.bytesPerLine.toNat - n)) = 3 * (o.bytesPerLine.toNat - n) :=
    Nat.mod_eq_of_lt (by omega)
  have htake : (memory.drop s.p).take n = memory.drop s.p := List.take_of_length_le hlen.le
  simp only [dumpLast, Option.bind_eq_bind, State.putc, hwrap]
  rw [loop_putHex (by omega) (by omega) (by exact hs.le)]
  simp only [Option.bind_some, State.putc]
  rw [loop_putBlank hblank (by omega)]
  simp only [Option.bind_some, State.putc]
  rw [loop_putText (by omega) (by omega) (by exact hs.le)]
  simp only [Option.bind_some, State.putc]
  rw [loop_putBlank (by omega) (by omega)]
  simp [State.putc, lineOf, hlen, htake]

/-! ## Dumps -/

/-- The first lines, which are full. -/
def fullLines (signed : Bool) (o : Options) (memory : List Byte) (n : ℕ) : List (List Byte) :=
  (List.range n).map fun i => lineOf signed o (chunkAt o memory i)

theorem fullLines_succ (n : ℕ) : fullLines signed o memory (n + 1) =
    fullLines signed o memory n ++ [lineOf signed o (chunkAt o memory n)] := by
  rw [fullLines, List.range_succ, List.map_append]
  rfl

theorem loop_dumpLine {n : ℕ} (hn : n < 2 ^ 32) (hfuel : n < fuel)
    (hline : o.bytesPerLine.toNat < fuel) (hs : n * o.bytesPerLine.toNat ≤ memory.length) :
    unsignedLoop n (dumpLine signed o fuel memory) fuel ⟨0, []⟩ =
      some ⟨n * o.bytesPerLine.toNat, (fullLines signed o memory n).flatten⟩ := by
  refine forLoop_eq (s := ⟨0, []⟩)
    (fun i => State.mk (i * o.bytesPerLine.toNat) (fullLines signed o memory i).flatten)
    hn ?_ hfuel (by simp [fullLines])
  intro i hi
  have hle : (i + 1) * o.bytesPerLine.toNat ≤ n * o.bytesPerLine.toNat :=
    Nat.mul_le_mul_right _ hi
  rw [Nat.succ_mul] at hle
  rw [dumpLine_eq i hline (by simp only; omega), fullLines_succ, List.flatten_append, Nat.succ_mul]
  simp [State.putc, chunkAt]

/-- Lines that show a memory: regular ones, as many as it takes, whose hexadecimal columns are
the bytes, and whose text columns are their text with blanks behind it. -/
structure Shows (signed : Bool) (o : Options) (memory : List Byte) (lines : List (List Byte)) :
    Prop where
  length_eq : lines.length = (memory.length + o.bytesPerLine.toNat - 1) / o.bytesPerLine.toNat
  regular : ∀ line ∈ lines,
    line.length = 4 * o.bytesPerLine.toNat + 5 ∧ line.getLast? = some 10
  hex_eq : lines.flatMap (hexColumns o) = memory
  text_eq : lines.flatMap (textColumns o) = memory.map (printable signed o) ++
    List.replicate (lines.length * o.bytesPerLine.toNat - memory.length) 32

theorem regular_lineOf (h : chunk.length ≤ o.bytesPerLine.toNat) :
    (lineOf signed o chunk).length = 4 * o.bytesPerLine.toNat + 5 ∧
      (lineOf signed o chunk).getLast? = some 10 := by
  refine ⟨length_lineOf h, ?_⟩
  rw [lineOf, List.getLast?_append]
  rfl

theorem length_chunkAt {i n : ℕ} (hi : i < n) (hs : n * o.bytesPerLine.toNat ≤ memory.length) :
    (chunkAt o memory i).length = o.bytesPerLine.toNat := by
  have hle : (i + 1) * o.bytesPerLine.toNat ≤ n * o.bytesPerLine.toNat :=
    Nat.mul_le_mul_right _ hi
  rw [Nat.succ_mul] at hle
  rw [chunkAt, List.length_take, List.length_drop]
  omega

theorem take_succ_mul (n : ℕ) : memory.take ((n + 1) * o.bytesPerLine.toNat) =
    memory.take (n * o.bytesPerLine.toNat) ++ chunkAt o memory n := by
  rw [Nat.succ_mul, List.take_add, chunkAt]

variable (signed) in
/-- The full lines show the memory as far as they go. -/
theorem fullLines_shows {n : ℕ} (hs : n * o.bytesPerLine.toNat ≤ memory.length) :
    (∀ line ∈ fullLines signed o memory n,
        line.length = 4 * o.bytesPerLine.toNat + 5 ∧ line.getLast? = some 10) ∧
      (fullLines signed o memory n).flatMap (hexColumns o) =
        memory.take (n * o.bytesPerLine.toNat) ∧
      (fullLines signed o memory n).flatMap (textColumns o) =
        (memory.take (n * o.bytesPerLine.toNat)).map (printable signed o) := by
  induction n with
  | zero => simp [fullLines]
  | succ n ih =>
      have hlen := length_chunkAt (o := o) (Nat.lt_succ_self n) hs
      rw [Nat.succ_mul] at hs
      obtain ⟨hregular, hhex, htext⟩ := ih (by omega)
      rw [fullLines_succ]
      refine ⟨?_, ?_, ?_⟩
      · intro line hline
        rcases List.mem_append.mp hline with hline | hline
        · exact hregular line hline
        · rw [List.mem_singleton.mp hline]
          exact regular_lineOf hlen.le
      · rw [List.flatMap_append, hhex, List.flatMap_singleton, hexColumns_lineOf hlen.le,
          take_succ_mul]
      · rw [List.flatMap_append, htext, List.flatMap_singleton, textColumns_lineOf hlen.le, hlen,
          Nat.sub_self, take_succ_mul, List.map_append]
        exact congrArg _ (List.append_nil _)

/-- All lines: the last one is of what is left behind the full ones. -/
def allLines (signed : Bool) (o : Options) (memory : List Byte) : List (List Byte) :=
  let n := memory.length / o.bytesPerLine.toNat
  fullLines signed o memory n ++
    if 0 < memory.length % o.bytesPerLine.toNat then
      [lineOf signed o (memory.drop (n * o.bytesPerLine.toNat))]
    else []

theorem allLines_shows (h : 0 < o.bytesPerLine.toNat) :
    Shows signed o memory (allLines signed o memory) := by
  have hdiv := Nat.div_add_mod' memory.length o.bytesPerLine.toNat
  have hmod := Nat.mod_lt memory.length h
  generalize hn : memory.length / o.bytesPerLine.toNat = n at hdiv
  generalize hr : memory.length % o.bytesPerLine.toNat = r at hdiv hmod
  have hlen : (memory.drop (n * o.bytesPerLine.toNat)).length = r := by
    rw [List.length_drop]
    omega
  have hle : n * o.bytesPerLine.toNat ≤ memory.length := by omega
  obtain ⟨hregular, hhex, htext⟩ := fullLines_shows signed hle
  have hfull : (fullLines signed o memory n).length = n := by simp [fullLines]
  rw [allLines]
  simp only [hn, hr]
  by_cases hpos : 0 < r
  · rw [if_pos hpos]
    refine ⟨?_, ?_, ?_, ?_⟩
    · rw [List.length_append, hfull, List.length_singleton]
      refine (Nat.div_eq_of_lt_le ?_ ?_).symm
      · rw [Nat.succ_mul]
        omega
      · rw [Nat.succ_mul, Nat.succ_mul]
        omega
    · intro line hline
      rcases List.mem_append.mp hline with hline | hline
      · exact hregular line hline
      · rw [List.mem_singleton.mp hline]
        exact regular_lineOf (by omega)
    · rw [List.flatMap_append, hhex, List.flatMap_singleton, hexColumns_lineOf (by omega),
        List.take_append_drop]
    · rw [List.flatMap_append, htext, List.flatMap_singleton, textColumns_lineOf (by omega), hlen,
        ← List.append_assoc, ← List.map_append, List.take_append_drop, List.length_append, hfull,
        List.length_singleton, Nat.succ_mul]
      congr 2
      omega
  · rw [if_neg hpos, List.append_nil]
    have htake : memory.take (n * o.bytesPerLine.toNat) = memory :=
      List.take_of_length_le (by omega)
    rw [htake] at hhex htext
    refine ⟨?_, hregular, hhex, ?_⟩
    · rw [hfull]
      refine (Nat.div_eq_of_lt_le ?_ ?_).symm
      · omega
      · rw [Nat.succ_mul]
        omega
    · rw [htext, hfull, show n * o.bytesPerLine.toNat - memory.length = 0 by omega]
      exact (List.append_nil _).symm

/-- The bounds of the counters that a dump of `size` bytes needs. -/
def CountersSuffice (o : Options) (size : ℕ) : Prop :=
  size / o.bytesPerLine.toNat < 2 ^ 32 ∧
    (size % o.bytesPerLine.toNat = 0 ∨
      3 * (o.bytesPerLine.toNat - size % o.bytesPerLine.toNat) < 2 ^ 32)

instance (o : Options) (size : ℕ) : Decidable (CountersSuffice o size) :=
  inferInstanceAs (Decidable (_ ∧ _))

theorem dump_eq (h : 0 < o.bytesPerLine.toNat) (hcounters : CountersSuffice o memory.length)
    (hlines : memory.length / o.bytesPerLine.toNat < fuel)
    (hline : 3 * o.bytesPerLine.toNat < fuel) :
    dump signed o fuel memory memory.length = some (allLines signed o memory).flatten := by
  obtain ⟨hbound, hblank⟩ := hcounters
  have hdiv := Nat.div_add_mod' memory.length o.bytesPerLine.toNat
  have hmod := Nat.mod_lt memory.length h
  rw [dump, allLines, Option.bind_eq_bind,
    loop_dumpLine hbound hlines (by omega) (Nat.div_mul_le_self _ _)]
  simp only [Option.bind_some]
  by_cases hpos : 0 < memory.length % o.bytesPerLine.toNat
  · rw [if_pos hpos, if_pos hpos, dumpLast_eq hmod (hblank.resolve_left (by omega)) hline
      (by simp only; omega)]
    simp [State.putc]
  · simp [hpos]

/-- A counter of 32 bits that does not reach its bound goes on for ever. -/
theorem dump_eq_none (h : ¬ CountersSuffice o memory.length) :
    dump signed o fuel memory memory.length = none := by
  rw [dump, Option.bind_eq_bind]
  by_cases hbound : memory.length / o.bytesPerLine.toNat < 2 ^ 32
  · have hrest : ¬ (memory.length % o.bytesPerLine.toNat = 0 ∨ 3 * (o.bytesPerLine.toNat -
        memory.length % o.bytesPerLine.toNat) < 2 ^ 32) := fun hrest => h ⟨hbound, hrest⟩
    rw [not_or] at hrest
    have hlt : o.bytesPerLine.toNat < 2 ^ 32 := o.bytesPerLine.toNat_lt
    have hwrap : wrap (3 * (o.bytesPerLine.toNat - memory.length % o.bytesPerLine.toNat)) =
        3 * (o.bytesPerLine.toNat - memory.length % o.bytesPerLine.toNat) :=
      Nat.mod_eq_of_lt (by omega)
    have hlast : ∀ s, dumpLast signed o fuel memory
        (memory.length % o.bytesPerLine.toNat) s = none := by
      intro s
      simp only [dumpLast, Option.bind_eq_bind, hwrap]
      cases unsignedLoop (memory.length % o.bytesPerLine.toNat) (putHex o memory) fuel
          (s.putc [124, 32]) with
      | none => rfl
      | some t =>
          rw [Option.bind_some, unsignedLoop,
            forLoop_of_wrap (by decide) (Nat.le_of_not_lt hrest.2)]
          rfl
    cases unsignedLoop (memory.length / o.bytesPerLine.toNat) (dumpLine signed o fuel memory) fuel
        ⟨0, []⟩ with
    | none => rfl
    | some t =>
        simp only [Option.bind_some, if_pos (Nat.pos_of_ne_zero hrest.1), hlast]
        rfl
  · rw [unsignedLoop, forLoop_of_wrap (by decide) (Nat.le_of_not_lt hbound)]
    rfl

/-- A dump of the whole memory comes to an end, reading nothing else, and shows the memory. -/
def DumpShows (signed : Bool) (o : Options) (memory : List Byte) : Prop :=
  ∃ fuel lines, (∀ more, fuel ≤ more →
    dump signed o more memory memory.length = some lines.flatten) ∧ Shows signed o memory lines

/-- A dump is lossless and regular exactly if its counters reach their bounds. -/
theorem dumpShows_iff (h : 0 < o.bytesPerLine.toNat) :
    DumpShows signed o memory ↔ CountersSuffice o memory.length := by
  constructor
  · rintro ⟨fuel, lines, hdump, -⟩
    by_contra hcounters
    have hsome := hdump fuel le_rfl
    rw [dump_eq_none hcounters] at hsome
    exact absurd hsome (by simp)
  · intro hcounters
    refine ⟨memory.length + 3 * o.bytesPerLine.toNat + 1, allLines signed o memory, ?_,
      allLines_shows h⟩
    intro more hmore
    have hle := Nat.div_le_self memory.length o.bytesPerLine.toNat
    exact dump_eq h hcounters (by omega) (by omega)

/-- Two lines of three bytes. -/
theorem dumpShows_three : DumpShows true { bytesPerLine := 2 } [1, 65, 200] :=
  (dumpShows_iff (by decide)).mpr (by decide)

/-- The blanks behind one byte on a line of `2 ^ 31` never end. -/
theorem not_dumpShows_wide : ¬ DumpShows true { bytesPerLine := 2147483648 } [0] := by
  rintro ⟨fuel, lines, hdump, -⟩
  have hsome := hdump fuel le_rfl
  rw [dump_eq_none (by decide)] at hsome
  exact absurd hsome (by simp)

end Minapp.Hexdump
