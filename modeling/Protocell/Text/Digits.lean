/-!
# Text/Digits — numbers in decimal and hexadecimal

Reading takes digits of any number and gives an unbounded value; whoever reads decides on the range.
Only the ASCII digits count.
-/

namespace Protocell.Text

/-- The value of a hexadecimal digit of either case. -/
def hexValue? (c : Char) : Option Nat :=
  if c.isDigit then some (c.toNat - '0'.toNat)
  else if 'a' ≤ c ∧ c ≤ 'f' then some (c.toNat - 'a'.toNat + 10)
  else if 'A' ≤ c ∧ c ≤ 'F' then some (c.toNat - 'A'.toNat + 10)
  else none

/-- Whether `c` is a hexadecimal digit. -/
def isHexDigit (c : Char) : Bool := (hexValue? c).isSome

/-- The number that a row of hexadecimal digits denotes. -/
def hexNumber (cs : List Char) : Nat := cs.foldl (fun n c => 16 * n + (hexValue? c).getD 0) 0

/-- The number that a row of decimal digits denotes. -/
def decimalNumber (cs : List Char) : Nat := Nat.ofDigitChars 10 cs 0

/-- A number in decimal, without leading zeros. -/
def decimal (n : Nat) : List Char := Nat.toDigits 10 n

/-- A byte as two hexadecimal digits, letters in lower case. -/
def lowerHex (b : UInt8) : List Char :=
  [Nat.digitChar (b.toNat / 16), Nat.digitChar (b.toNat % 16)]

/-- A byte as two hexadecimal digits, letters in upper case. -/
def upperHex (b : UInt8) : List Char := (lowerHex b).map Char.toUpper

theorem decimalNumber_decimal (n : Nat) : decimalNumber (decimal n) = n :=
  Nat.ofDigitChars_toDigits (by decide) (by decide)

theorem isDigit_of_mem_decimal {n : Nat} {c : Char} (h : c ∈ decimal n) : c.isDigit = true :=
  Nat.isDigit_of_mem_toDigits (by decide) (by decide) h

/-- Reading the two digits of a byte gives it back. -/
theorem hexNumber_lowerHex (b : UInt8) : hexNumber (lowerHex b) = b.toNat := by
  have hdigit : ∀ n < 16, (hexValue? (Nat.digitChar n)).getD 0 = n := by decide
  have hlt := b.toNat_lt
  rw [lowerHex, hexNumber, List.foldl_cons, List.foldl_cons, List.foldl_nil,
    hdigit _ (by omega), hdigit _ (by omega)]
  omega

/-- Letters of either case are read. -/
theorem hexNumber_upperHex (b : UInt8) : hexNumber (upperHex b) = b.toNat := by
  have hdigit : ∀ n < 16, (hexValue? (Nat.digitChar n).toUpper).getD 0 = n := by decide
  have hlt := b.toNat_lt
  rw [upperHex, lowerHex, List.map_cons, List.map_singleton, hexNumber, List.foldl_cons,
    List.foldl_cons, List.foldl_nil, hdigit _ (by omega), hdigit _ (by omega)]
  omega

/-- Letters of either case are the same digit. -/
theorem hexValue?_toLower (c : Char) : hexValue? c.toLower = hexValue? c := by
  by_cases hc : 65 ≤ c.toNat ∧ c.toNat ≤ 90
  · have hletter : ∀ n ≤ 90, 65 ≤ n →
        hexValue? (Char.ofNat n).toLower = hexValue? (Char.ofNat n) := by
      decide
    have h := hletter c.toNat hc.2 hc.1
    rwa [Char.ofNat_toNat] at h
  · have hlower : c.toLower = c := dif_neg hc
    rw [hlower]

theorem hexNumber_map_toLower (cs : List Char) :
    hexNumber (cs.map Char.toLower) = hexNumber cs := by
  rw [hexNumber, List.foldl_map]
  simp only [hexValue?_toLower]
  rfl

theorem hexNumber_toDigits (n : Nat) : hexNumber (Nat.toDigits 16 n) = n := by
  induction n using Nat.strongRecOn with
  | ind n ih =>
    have hdigit : ∀ k < 16, (hexValue? (Nat.digitChar k)).getD 0 = k := by decide
    rcases Nat.lt_or_ge n 16 with hlt | hge
    · rw [Nat.toDigits_of_lt_base hlt, hexNumber, List.foldl_cons, List.foldl_nil, hdigit n hlt,
        Nat.mul_zero, Nat.zero_add]
    · have hhigh := ih (n / 16) (Nat.div_lt_self (by omega) (by decide))
      rw [hexNumber] at hhigh
      rw [Nat.toDigits_of_base_le (by decide) hge, hexNumber, List.foldl_append, hhigh,
        List.foldl_cons, List.foldl_nil, hdigit _ (Nat.mod_lt n (by decide))]
      omega

theorem isHexDigit_of_mem_toDigits {n : Nat} {c : Char} (h : c ∈ Nat.toDigits 16 n) :
    isHexDigit c = true := by
  have hdigit : ∀ k < 16, isHexDigit (Nat.digitChar k) = true := by decide
  induction n using Nat.strongRecOn with
  | ind n ih =>
    rcases Nat.lt_or_ge n 16 with hlt | hge
    · rw [Nat.toDigits_of_lt_base hlt, List.mem_singleton] at h
      exact h ▸ hdigit n hlt
    · rw [Nat.toDigits_of_base_le (by decide) hge, List.mem_append, List.mem_singleton] at h
      rcases h with h | rfl
      · exact ih (n / 16) (Nat.div_lt_self (by omega) (by decide)) h
      · exact hdigit _ (Nat.mod_lt n (by decide))

end Protocell.Text
