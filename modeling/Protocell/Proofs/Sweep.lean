import Mathlib.Data.List.GetD
import Protocell.Listing
import Protocell.Program.Basic

/-!
# Proofs/Sweep — the positions that a listing comes by

A listing goes from opcode to opcode, and which positions it comes by is settled by the opcodes
alone (`Sweeps`).  From a position that it comes by, it is the listing of what is left
(`Sweeps.listing_eq`), and of the lines of a bank there is one at each such position (`sweeps_iff`).
Cutting the bank off behind a position does not change whether the sweep comes by it
(`sweeps_take_iff`).
-/

namespace Protocell

/-- The number of bytes on the line of an opcode. -/
def lineWidth (s : InstructionSet) (opcode : UInt8) : ℕ := (s.decode opcode).elim 1 Form.width

/-- **A sweep over bytes that has come to one position comes to another**, from opcode to opcode. -/
inductive Sweeps (s : InstructionSet) (bytes : List UInt8) : ℕ → ℕ → Prop
  | refl (pos : ℕ) : Sweeps s bytes pos pos
  | step {pos n : ℕ} {opcode : UInt8} (hbyte : bytes[pos]? = some opcode)
      (hrest : Sweeps s bytes (pos + lineWidth s opcode) n) : Sweeps s bytes pos n

variable {s : InstructionSet} {bytes : List UInt8} {pos n : ℕ} {opcode : UInt8}

theorem lineWidth_eq (s : InstructionSet) (opcode : UInt8) :
    lineWidth s opcode = 1 + (s.decode opcode).elim 0 Form.literalCount := by
  rw [lineWidth]
  cases s.decode opcode <;> rfl

theorem lineWidth_pos (s : InstructionSet) (opcode : UInt8) : 0 < lineWidth s opcode := by
  rw [lineWidth_eq]
  exact Nat.add_pos_left Nat.one_pos _

/-! ## Lines -/

theorem listingFrom_eq_drop (s : InstructionSet) (pos skip : ℕ) (bytes : List UInt8) :
    listingFrom s pos skip bytes = listingFrom s (pos + skip) 0 (bytes.drop skip) := by
  induction bytes generalizing pos skip with
  | nil => rw [List.drop_nil, listingFrom, listingFrom]
  | cons b bytes ih =>
    cases skip with
    | zero => rfl
    | succ skip =>
      rw [listingFrom, ih, List.drop_succ_cons]
      congr 1
      omega

/-- **A sweep at an opcode shows its line and goes on behind it.** -/
theorem listingFrom_of_getElem? (hbyte : bytes[pos]? = some opcode) :
    listingFrom s pos 0 (bytes.drop pos)
      = ListingLine.ofOpcode s pos opcode (bytes.drop (pos + 1)) ::
        listingFrom s (pos + lineWidth s opcode) 0 (bytes.drop (pos + lineWidth s opcode)) := by
  obtain ⟨hlt, rfl⟩ := List.getElem?_eq_some_iff.mp hbyte
  have hliterals : (ListingLine.ofOpcode s pos bytes[pos] (bytes.drop (pos + 1))).literals.length
      = (s.decode bytes[pos]).elim 0 Form.literalCount := by
    rw [ListingLine.ofOpcode, List.length_map, List.length_range]
  rw [List.drop_eq_getElem_cons hlt, listingFrom, listingFrom_eq_drop, hliterals, List.drop_drop,
    lineWidth_eq, Nat.add_assoc]

theorem listingFrom_of_length_le (hle : bytes.length ≤ pos) :
    listingFrom s pos 0 (bytes.drop pos) = [] := by
  rw [List.drop_eq_nil_of_le hle, listingFrom]

namespace Sweeps

theorem le (h : Sweeps s bytes pos n) : pos ≤ n := by
  induction h with
  | refl => exact Nat.le_refl _
  | step _ _ ih => exact Nat.le_trans (Nat.le_add_right _ _) ih

/-- **From a position that a sweep comes by, it is the listing of what is left**, and the lines
before it stand at lower offsets. -/
theorem listing_eq (h : Sweeps s bytes pos n) (hsize : bytes.length ≤ bankSize) :
    ∃ earlier, listingFrom s pos 0 (bytes.drop pos)
        = earlier ++ listingFrom s n 0 (bytes.drop n) ∧
      ∀ line ∈ earlier, line.offset.toNat < n := by
  induction h with
  | refl => exact ⟨[], rfl, fun _ hmem => absurd hmem List.not_mem_nil⟩
  | @step pos n opcode hbyte hrest ih =>
    obtain ⟨earlier, heq, hearlier⟩ := ih
    obtain ⟨hlt, -⟩ := List.getElem?_eq_some_iff.mp hbyte
    refine ⟨ListingLine.ofOpcode s pos opcode (bytes.drop (pos + 1)) :: earlier, ?_, ?_⟩
    · rw [listingFrom_of_getElem? hbyte, heq, List.cons_append]
    · refine List.forall_mem_cons.mpr ⟨?_, hearlier⟩
      rw [ListingLine.ofOpcode, UInt8.toNat_ofNat_of_lt' (Nat.lt_of_lt_of_le hlt hsize)]
      exact Nat.lt_of_lt_of_le (Nat.lt_add_of_pos_right (lineWidth_pos s opcode)) hrest.le

/-- **A sweep comes by the lines that it shows.** -/
theorem of_mem_listingFrom (hsize : bytes.length ≤ bankSize) {line : ListingLine}
    (h : line ∈ listingFrom s pos 0 (bytes.drop pos)) :
    Sweeps s bytes pos line.offset.toNat ∧ line.offset.toNat < bytes.length := by
  -- By induction on the number of bytes that are left.
  induction hleft : bytes.length - pos using Nat.strongRecOn generalizing pos with
  | ind left ih =>
    rcases hbyte : bytes[pos]? with - | opcode
    · rw [listingFrom_of_length_le (List.getElem?_eq_none_iff.mp hbyte)] at h
      cases h
    · obtain ⟨hlt, -⟩ := List.getElem?_eq_some_iff.mp hbyte
      rw [listingFrom_of_getElem? hbyte] at h
      rcases List.mem_cons.mp h with rfl | h
      · rw [ListingLine.ofOpcode, UInt8.toNat_ofNat_of_lt' (Nat.lt_of_lt_of_le hlt hsize)]
        exact ⟨.refl pos, hlt⟩
      · have hpos := lineWidth_pos s opcode
        obtain ⟨hrest, hstored⟩ := ih _ (by omega) h rfl
        exact ⟨.step hbyte hrest, hstored⟩

end Sweeps

/-- **The lines of a bank stand at the positions that a sweep from its start comes by.** -/
theorem sweeps_iff (hsize : bytes.length ≤ bankSize) {offset : UInt8} :
    (∃ line ∈ listing s bytes, line.offset = offset) ↔
      Sweeps s bytes 0 offset.toNat ∧ offset.toNat < bytes.length := by
  constructor
  · rintro ⟨line, hline, rfl⟩
    exact Sweeps.of_mem_listingFrom hsize hline
  · rintro ⟨hsweeps, hlt⟩
    obtain ⟨earlier, heq, -⟩ := hsweeps.listing_eq hsize
    rw [listingFrom_of_getElem? (List.getElem?_eq_getElem hlt)] at heq
    exact ⟨_, heq ▸ List.mem_append_right _ List.mem_cons_self, UInt8.ofNat_toNat⟩

/-- **What is behind a position does not matter to whether a sweep comes by it.** -/
theorem sweeps_take_iff {stop : ℕ} (hn : n ≤ stop) :
    Sweeps s (bytes.take stop) pos n ↔ Sweeps s bytes pos n := by
  have hbyte {pos m : ℕ} {opcode : UInt8} (hrest : pos + lineWidth s opcode ≤ m) (hm : m ≤ stop) :
      (bytes.take stop)[pos]? = bytes[pos]? :=
    List.getElem?_take_of_lt
      (Nat.lt_of_lt_of_le (Nat.lt_add_of_pos_right (lineWidth_pos s opcode))
        (Nat.le_trans hrest hm))
  constructor
  · intro h
    induction h with
    | refl => exact .refl _
    | step hstored hrest ih => exact .step (hbyte hrest.le hn ▸ hstored) (ih hn)
  · intro h
    induction h with
    | refl => exact .refl _
    | step hstored hrest ih => exact .step ((hbyte hrest.le hn).trans hstored) (ih hn)

end Protocell
