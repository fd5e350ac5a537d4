import Mathlib.Data.Nat.Digits.Defs
import Protocell.Cell.State

/-!
# Proofs/Numerals — numbers in a queue of bytes

A cell reads a number digit by digit and keeps no more of it than a byte can hold.  What it keeps is
the cap of the number read so far (`readDigits_append`): a cap followed by a digit is the cap of the
longer number (`addDigit_capped`), so nothing is lost by capping early, and a number that is 255 by
itself goes on like any other.

A number is written with a line feed behind it.  Reading stops in front of the line feed and skips
it the next time, so a reader of many numbers always stands behind the digits of one and before what
separates it from the next (`reads_of_input`).
-/

namespace Protocell.CellState

variable {blanks digits rest : List UInt8}

theorem isSeparator_iff {b : UInt8} : isSeparator b = true ↔ b ∈ [32, 9, 10, 12, 13] := by
  simp [isSeparator, or_assoc]

theorem isSeparator_of_isDigit {b : UInt8} (hb : isDigit b = true) : isSeparator b = false := by
  have hblank : ∀ b ∈ ([32, 9, 10, 12, 13] : List UInt8), isDigit b = false := by simp [isDigit]
  rw [← Bool.not_eq_true, isSeparator_iff]
  intro hmem
  rw [hblank b hmem] at hb
  cases hb

theorem isDigit_iff {b : UInt8} : isDigit b = true ↔ 48 ≤ b ∧ b ≤ 57 := by
  simp [isDigit]

/-- **The number that a row of decimal digits denotes**, however long the row is. -/
def number (digits : List UInt8) : ℕ := Nat.ofDigits 10 (digits.reverse.map fun b => b.toNat - 48)

theorem number_concat (digits : List UInt8) (b : UInt8) :
    number (digits ++ [b]) = 10 * number digits + (b.toNat - 48) := by
  simp [number, Nat.ofDigits_cons, Nat.add_comm]

/-! ## Reading -/

/-- A number as far as a byte can hold it. -/
def capped (n : ℕ) : UInt8 := UInt8.ofNat (min 255 n)

@[simp] theorem toNat_capped (n : ℕ) : (capped n).toNat = min 255 n :=
  UInt8.toNat_ofNat_of_lt' (Nat.lt_succ_of_le (Nat.min_le_left 255 n))

/-- **A digit behind a cap gives the cap of the longer number.** -/
theorem addDigit_capped (n : ℕ) {b : UInt8} (hb : isDigit b = true) :
    addDigit (capped n) b = capped (10 * n + (b.toNat - 48)) := by
  have hdigit : (b - 48).toNat = b.toNat - 48 := UInt8.toNat_sub_of_le _ _ (isDigit_iff.mp hb).1
  have hcap : min 255 (min 255 (10 * min 255 n) + (b.toNat - 48))
      = min 255 (10 * n + (b.toNat - 48)) := by omega
  rw [addDigit, toNat_capped, hdigit, hcap, capped]

/-- **Behind some digits a reader holds the cap of their number**, and it reads on to the end of the
row. -/
theorem readDigits_append (hdigits : ∀ b ∈ digits, isDigit b = true)
    (hrest : ∀ b ∈ rest.head?, isDigit b = false) (before : List UInt8) :
    readDigits (capped (number before)) (digits ++ rest) =
      (capped (number (before ++ digits)), rest) := by
  induction digits generalizing before with
  | nil =>
    rw [List.nil_append, List.append_nil]
    cases rest with
    | nil => rfl
    | cons b rest => simp [readDigits, hrest b rfl]
  | cons b digits ih =>
    obtain ⟨hb, hdigits⟩ := List.forall_mem_cons.mp hdigits
    rw [List.cons_append, readDigits, if_pos hb, addDigit_capped _ hb, ← number_concat, ih hdigits,
      List.append_assoc, List.singleton_append]

/-- **Reading a number skips blanks and takes the digits behind them.** -/
theorem readNumber_append (hblanks : ∀ b ∈ blanks, isSeparator b = true)
    (hnext : ∀ b ∈ (digits ++ rest).head?, isSeparator b = false)
    (hdigits : ∀ b ∈ digits, isDigit b = true) (hrest : ∀ b ∈ rest.head?, isDigit b = false) :
    readNumber (blanks ++ (digits ++ rest)) = (capped (number digits), rest) := by
  have hskip : (digits ++ rest).dropWhile isSeparator = digits ++ rest := by
    cases hqueue : digits ++ rest with
    | nil => rfl
    | cons b queue => exact List.dropWhile_cons_of_neg (by simp [hnext b (by rw [hqueue]; rfl)])
  rw [readNumber, List.dropWhile_append_of_pos hblanks, hskip]
  exact readDigits_append hdigits hrest []

/-- A queue begins with a longest row of bytes that pass a test. -/
theorem exists_longest_row (p : UInt8 → Bool) (queue : List UInt8) :
    ∃ row rest, queue = row ++ rest ∧ (∀ b ∈ row, p b = true) ∧ ∀ b ∈ rest.head?, p b = false := by
  refine ⟨_, _, List.takeWhile_append_dropWhile.symm, List.all_eq_true.mp List.all_takeWhile, ?_⟩
  intro b hb
  have hhead := List.head?_dropWhile_not p queue
  rwa [Option.mem_def.mp hb] at hhead

/-- **Decimal input is parsed exactly.**  Reading a number takes off the queue all blanks at its
start and all digits behind them, and leaves the rest and everything else as it was.  It gives the
number that the digits denote, which is zero if there are none, or 255 if that is less. -/
theorem read_byte_takes_number (s : CellState) :
    ∃ blanks digits rest, s.input = blanks ++ (digits ++ rest) ∧
      (∀ b ∈ blanks, b ∈ [32, 9, 10, 12, 13]) ∧
      (∀ b ∈ (digits ++ rest).head?, b ∉ [32, 9, 10, 12, 13]) ∧
      (∀ b ∈ digits, 48 ≤ b ∧ b ≤ 57) ∧
      (∀ b ∈ rest.head?, ¬(48 ≤ b ∧ b ≤ 57)) ∧
      (s.read .byte).1.toNat = min 255 (number digits) ∧
      (s.read .byte).2 = { s with input := rest } := by
  obtain ⟨blanks, queue, hinput, hblanks, hnext⟩ := exists_longest_row isSeparator s.input
  obtain ⟨digits, rest, rfl, hdigits, hrest⟩ := exists_longest_row isDigit queue
  have hread := readNumber_append hblanks hnext hdigits hrest
  rw [← hinput] at hread
  refine ⟨blanks, digits, rest, hinput, fun b hb => isSeparator_iff.mp (hblanks b hb),
    fun b hb => ?_,
    fun b hb => isDigit_iff.mp (hdigits b hb), fun b hb => ?_, ?_, ?_⟩
  · rw [← isSeparator_iff, hnext b hb]
    exact Bool.false_ne_true
  · rw [← isDigit_iff, hrest b hb]
    exact Bool.false_ne_true
  · rw [read, hread]
    exact toNat_capped _
  · rw [read, hread]
    rfl

/-- What blanks and digits stand for may be cut short by other bytes, which stay. -/
example :
    (({ input := [32, 9, 48, 51, 48, 48, 120, 55] } : CellState).read .byte).1 = 255 := by decide

/-! ## Writing -/

theorem isDigit_of_mem_decimal {n : ℕ} {c : Char} (hc : c ∈ Text.decimal n) :
    isDigit (UInt8.ofNat c.toNat) = true := by
  have hdigit := Text.isDigit_of_mem_decimal hc
  simp only [Char.isDigit, Bool.and_eq_true, decide_eq_true_eq] at hdigit
  obtain ⟨hlow, hhigh⟩ := hdigit
  have hlow : 48 ≤ c.toNat := hlow
  have hhigh : c.toNat ≤ 57 := hhigh
  have hbyte : (UInt8.ofNat c.toNat).toNat = c.toNat :=
    UInt8.toNat_ofNat_of_lt' (show c.toNat < 256 by omega)
  rw [isDigit_iff, UInt8.le_iff_toNat_le, UInt8.le_iff_toNat_le, hbyte]
  exact ⟨hlow, hhigh⟩

/-- **A written number denotes what was written.** -/
theorem number_decimal (n : ℕ) :
    number ((Text.decimal n).map fun c => UInt8.ofNat c.toNat) = n := by
  have hdigit : ∀ d < 10, (UInt8.ofNat (Nat.digitChar d).toNat).toNat - 48 = d := by decide
  induction n using Nat.strongRecOn with
  | ind n ih =>
    rw [Text.decimal]
    rcases Nat.lt_or_ge n 10 with hlt | hge
    · have hone := number_concat [] (UInt8.ofNat (Nat.digitChar n).toNat)
      rw [Nat.toDigits_of_lt_base hlt]
      exact hone.trans ((Nat.zero_add _).trans (hdigit n hlt))
    · have hhigh := ih (n / 10) (Nat.div_lt_self (by omega) (by decide))
      rw [Text.decimal] at hhigh
      rw [Nat.toDigits_of_base_le (by decide) hge, List.map_append, List.map_singleton,
        number_concat, hhigh, hdigit _ (Nat.mod_lt n (by decide))]
      omega

/-- **A written number is read back**, and the reader stops in front of its line feed. -/
theorem readNumber_encode (hblanks : ∀ b ∈ blanks, isSeparator b = true) (v : UInt8)
    (rest : List UInt8) :
    readNumber (blanks ++ (encode v .byte ++ rest)) = (v, 10 :: rest) := by
  let digits := (Text.decimal v.toNat).map fun c => UInt8.ofNat c.toNat
  have hdigits : ∀ b ∈ digits, isDigit b = true :=
    List.forall_mem_map.mpr fun c hc => isDigit_of_mem_decimal hc
  have hnext : ∀ b ∈ (digits ++ 10 :: rest).head?, isSeparator b = false := by
    have hpos : digits ≠ [] := by simp [digits, Text.decimal]
    obtain ⟨b, digits', heq⟩ := List.exists_cons_of_ne_nil hpos
    rw [heq] at hdigits ⊢
    intro b' hb'
    obtain rfl := Option.some.inj hb'
    exact isSeparator_of_isDigit (hdigits b List.mem_cons_self)
  have hcap : capped v.toNat = v := by
    rw [capped, Nat.min_eq_right (Nat.le_of_lt_succ v.toNat_lt), UInt8.ofNat_toNat]
  have hread := readNumber_append hblanks hnext hdigits fun b hb => by
    rw [← Option.some.inj hb]
    rfl
  rw [number_decimal, hcap] at hread
  rw [encode, List.append_assoc]
  exact hread

theorem output_foldl_write (vs : List UInt8) (s : CellState) :
    (vs.foldl (fun s v => s.write v .byte) s).output.toList =
      s.output.toList ++ vs.flatMap fun v => encode v .byte := by
  induction vs generalizing s with
  | nil => simp
  | cons v vs ih =>
    rw [List.foldl_cons, ih, List.flatMap_cons, ← List.append_assoc, write, Array.toList_appendList]

theorem input_foldl_feed (chunks : List (List UInt8)) (s : CellState) :
    (chunks.foldl feed s).input = s.input ++ chunks.flatten := by
  induction chunks generalizing s with
  | nil => simp
  | cons chunk chunks ih => simp [ih, feed]

/-- What the next `n` reads of numbers give. -/
def reads : ℕ → CellState → List UInt8
  | 0, _ => []
  | n + 1, s => (s.read .byte).1 :: reads n (s.read .byte).2

theorem reads_succ {s : CellState} {v : UInt8} (hread : readNumber s.input = (v, rest)) (n : ℕ) :
    s.reads (n + 1) = v :: reads n { s with input := rest } := by
  rw [reads, read, hread]
  rfl

/-- **Behind some blanks a reader reads the numbers that are left**, and zeros after them. -/
theorem reads_of_input {s : CellState} (hblanks : ∀ b ∈ blanks, isSeparator b = true)
    {vs : List UInt8} (hinput : s.input = blanks ++ vs.flatMap fun v => encode v .byte) (n : ℕ) :
    s.reads n = vs.take n ++ List.replicate (n - vs.length) 0 := by
  induction n generalizing s blanks vs with
  | zero => simp [reads]
  | succ n ih =>
    cases vs with
    | nil =>
      have hnone : ∀ b ∈ [], isSeparator b = true := nofun
      have hread : readNumber s.input = (0, []) := by
        rw [hinput]
        exact @readNumber_append blanks [] [] hblanks nofun nofun nofun
      rw [reads_succ hread, @ih _ _ hnone [] rfl]
      simp [List.replicate_succ]
    | cons v vs =>
      have hread : readNumber s.input = (v, 10 :: vs.flatMap fun v => encode v .byte) := by
        rw [hinput, List.flatMap_cons]
        exact readNumber_encode hblanks v _
      have hfeed : ∀ b ∈ [10], isSeparator b = true := by simp [isSeparator]
      rw [reads_succ hread, ih hfeed rfl, List.take_succ_cons, List.length_cons,
        Nat.add_sub_add_right, List.cons_append]

/-- **Decimal output reads back.**  Numbers are written one after the other by a cell that has
written nothing, and all of it is fed in any pieces to a cell that has nothing to read.  Then that
cell reads the numbers in their order, and zero each time after the last. -/
theorem reads_of_written (vs : List UInt8) {writer reader : CellState}
    (hwriter : writer.output = #[]) (hreader : reader.input = []) {chunks : List (List UInt8)}
    (hchunks : chunks.flatten = (vs.foldl (fun s v => s.write v .byte) writer).takeOutput.1)
    (n : ℕ) :
    (chunks.foldl feed reader).reads n = vs.take n ++ List.replicate (n - vs.length) 0 := by
  have hnone : ∀ b ∈ [], isSeparator b = true := nofun
  refine reads_of_input hnone ?_ n
  rw [input_foldl_feed, hreader, hchunks, takeOutput, output_foldl_write, hwriter]
  rfl

/-- The least and the greatest number and some between, fed in pieces that cut two of them. -/
theorem reads_of_four_written :
    ([[48, 10, 50], [], [53, 53, 10, 49], [50, 10, 55, 10]].foldl feed { energy := 9 }).reads 6 =
      [0, 255, 12, 7, 0, 0] :=
  @reads_of_written [0, 255, 12, 7] {} _ rfl rfl _ (by decide) 6

end Protocell.CellState
