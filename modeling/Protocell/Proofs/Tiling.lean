import Mathlib.Algebra.BigOperators.Group.List.Basic
import Protocell.Proofs.Sweep
import Protocell.Proofs.Variants

/-!
# Proofs/Tiling — a listing tiles its bank

A sweep passes each byte once: a line begins where the one before it ends, at a byte that is there,
and holds an opcode with as many literals as the opcode has inline slots (`exists_opcode_of_split`).
So the lines one after another are the bank again.  Only the last instruction may want literals from
behind the last byte, and these are listed as zeros (`exists_flatMap_bytes_eq`).
-/

namespace Protocell

/-- The number of bytes on some lines. -/
def totalWidth (lines : List ListingLine) : ℕ := (lines.map fun l => l.bytes.length).sum

variable {s : InstructionSet} {bytes rest : List UInt8} {pos : ℕ} {opcode : UInt8}

theorem totalWidth_cons (l : ListingLine) (lines : List ListingLine) :
    totalWidth (l :: lines) = l.bytes.length + totalWidth lines := List.sum_cons

theorem totalWidth_append (lines more : List ListingLine) :
    totalWidth (lines ++ more) = totalWidth lines + totalWidth more := by
  rw [totalWidth, List.map_append, List.sum_append, totalWidth, totalWidth]

theorem length_flatMap_bytes (lines : List ListingLine) :
    (lines.flatMap ListingLine.bytes).length = totalWidth lines := List.length_flatMap

/-! ## One line -/

theorem length_literals_ofOpcode :
    (ListingLine.ofOpcode s pos opcode rest).literals.length
      = (s.decode opcode).elim 0 Form.literalCount := by
  rw [ListingLine.ofOpcode, List.length_map, List.length_range]

theorem length_bytes_ofOpcode :
    (ListingLine.ofOpcode s pos opcode rest).bytes.length = lineWidth s opcode := by
  rw [ListingLine.bytes, List.length_cons, length_literals_ofOpcode, lineWidth_eq, Nat.add_comm]

/-- A line holds a literal for each set bit of the variant. -/
theorem length_literals_eq_popCount :
    (ListingLine.ofOpcode s pos opcode rest).literals.length
      = (s.decode opcode).elim 0 fun f => popCount f.variant := by
  rw [length_literals_ofOpcode]
  rcases hdecode : s.decode opcode with - | f
  · rfl
  · exact InstructionSet.literalCount_eq_popCount hdecode

/-- No line holds more than four literals. -/
theorem InstructionSet.Lawful.length_literals_le (hs : s.Lawful) :
    (ListingLine.ofOpcode s pos opcode rest).literals.length ≤ maxArity := by
  rw [length_literals_ofOpcode]
  rcases hdecode : s.decode opcode with - | f
  · exact Nat.zero_le _
  · obtain ⟨i, hfind, rfl⟩ := Option.map_eq_some_iff.mp hdecode
    exact Nat.le_trans (Form.literalCount_le _) (hs.arity_le i (List.mem_of_find?_eq_some hfind))

/-- Reading bytes with zeros behind them. -/
theorem map_getD_range (rest : List UInt8) (n : ℕ) :
    (List.range n).map (fun i => rest.getD i 0)
      = rest.take n ++ List.replicate (n - rest.length) 0 := by
  refine List.ext_getElem ?_ fun i hi _ => ?_
  · rw [List.length_map, List.length_range, List.length_append, List.length_take,
      List.length_replicate]
    omega
  · rw [List.length_map, List.length_range] at hi
    rw [List.getElem_map, List.getElem_range, List.getElem_append]
    split
    · rename_i hlt
      rw [List.length_take] at hlt
      rw [List.getElem_take, List.getD_eq_getElem _ _ (by omega)]
    · rename_i hge
      rw [List.length_take] at hge
      rw [List.getElem_replicate, List.getD_eq_default _ _ (by omega)]

/-- The bytes of a line are the opcode and those behind it, with zeros where there are none. -/
theorem bytes_ofOpcode :
    (ListingLine.ofOpcode s pos opcode rest).bytes
      = opcode :: (rest.take ((s.decode opcode).elim 0 Form.literalCount) ++
        List.replicate ((s.decode opcode).elim 0 Form.literalCount - rest.length) 0) := by
  rw [ListingLine.bytes, ListingLine.ofOpcode, map_getD_range]

/-! ## All lines -/

/-- **Each line is that of the byte which the lines before it come up to**, and the lines behind it
are the listing of what is left. -/
theorem exists_opcode_of_split {earlier later : List ListingLine} {l : ListingLine}
    (h : listingFrom s pos 0 (bytes.drop pos) = earlier ++ l :: later) :
    ∃ opcode, bytes[pos + totalWidth earlier]? = some opcode ∧
      l = ListingLine.ofOpcode s (pos + totalWidth earlier) opcode
        (bytes.drop (pos + totalWidth earlier + 1)) ∧
      later = listingFrom s (pos + totalWidth earlier + lineWidth s opcode) 0
        (bytes.drop (pos + totalWidth earlier + lineWidth s opcode)) := by
  induction earlier generalizing pos with
  | nil =>
    rcases hbyte : bytes[pos]? with - | opcode
    · rw [listingFrom_of_length_le (List.getElem?_eq_none_iff.mp hbyte)] at h
      cases h
    · rw [listingFrom_of_getElem? hbyte] at h
      obtain ⟨hline, hlater⟩ := List.cons.inj h
      exact ⟨opcode, hbyte, hline.symm, hlater.symm⟩
  | cons k earlier ih =>
    rcases hbyte : bytes[pos]? with - | opcode
    · rw [listingFrom_of_length_le (List.getElem?_eq_none_iff.mp hbyte)] at h
      cases h
    · rw [listingFrom_of_getElem? hbyte] at h
      obtain ⟨rfl, htail⟩ := List.cons.inj h
      have hrest := ih htail
      rwa [Nat.add_assoc pos, ← length_bytes_ofOpcode, ← totalWidth_cons] at hrest

/-- There is a line for a position just if there is a byte. -/
theorem listingFrom_eq_nil_iff :
    listingFrom s pos 0 (bytes.drop pos) = [] ↔ bytes.length ≤ pos := by
  refine ⟨fun h => Nat.le_of_not_lt fun hlt => ?_, listingFrom_of_length_le⟩
  rw [listingFrom_of_getElem? (List.getElem?_eq_getElem hlt)] at h
  cases h

/-- The case of a whole listing. -/
theorem exists_opcode_of_listing {earlier later : List ListingLine} {l : ListingLine}
    (h : listing s bytes = earlier ++ l :: later) :
    ∃ opcode, bytes[totalWidth earlier]? = some opcode ∧
      l = ListingLine.ofOpcode s (totalWidth earlier) opcode
        (bytes.drop (totalWidth earlier + 1)) ∧
      later = listingFrom s (totalWidth earlier + lineWidth s opcode) 0
        (bytes.drop (totalWidth earlier + lineWidth s opcode)) := by
  have hfrom : listingFrom s 0 0 (bytes.drop 0) = earlier ++ l :: later := h
  have hsplit := exists_opcode_of_split hfrom
  rwa [Nat.zero_add] at hsplit

/-- **A line is the last one just if the bytes end with it.** -/
theorem eq_nil_iff_of_listing {earlier later : List ListingLine} {l : ListingLine}
    (h : listing s bytes = earlier ++ l :: later) :
    later = [] ↔ bytes.length ≤ totalWidth earlier + l.bytes.length := by
  obtain ⟨opcode, -, rfl, rfl⟩ := exists_opcode_of_listing h
  rw [listingFrom_eq_nil_iff, length_bytes_ofOpcode]

/-- A sweep makes no more lines than there are bytes. -/
theorem length_listingFrom_le (s : InstructionSet) (pos skip : ℕ) (bytes : List UInt8) :
    (listingFrom s pos skip bytes).length ≤ bytes.length := by
  induction bytes generalizing pos skip with
  | nil => exact Nat.le_refl 0
  | cons b bytes ih =>
    cases skip with
    | zero => exact Nat.succ_le_succ (ih _ _)
    | succ skip => exact Nat.le_succ_of_le (ih _ _)

/-- **The lines of a sweep hold the bytes in order, and behind them nothing but zeros.** -/
theorem exists_flatMap_bytes_eq (s : InstructionSet) (bytes : List UInt8) (pos : ℕ) :
    ∃ missing, (listingFrom s pos 0 (bytes.drop pos)).flatMap ListingLine.bytes
      = bytes.drop pos ++ List.replicate missing 0 := by
  -- By induction on the number of bytes that are left.
  induction hleft : bytes.length - pos using Nat.strongRecOn generalizing pos with
  | ind left ih =>
    rcases hbyte : bytes[pos]? with - | opcode
    · have hle := List.getElem?_eq_none_iff.mp hbyte
      rw [listingFrom_of_length_le hle, List.drop_eq_nil_of_le hle]
      exact ⟨0, rfl⟩
    · obtain ⟨hlt, hget⟩ := List.getElem?_eq_some_iff.mp hbyte
      have hwidth := lineWidth_eq s opcode
      generalize hcount : (s.decode opcode).elim 0 Form.literalCount = count at hwidth
      rw [listingFrom_of_getElem? hbyte, List.flatMap_cons, bytes_ofOpcode, hcount,
        List.drop_eq_getElem_cons hlt, hget]
      rcases Nat.le_total (bytes.drop (pos + 1)).length count with hcut | hwhole
      · -- The line takes all that is left, so it is the last one.
        have hend : bytes.length ≤ pos + lineWidth s opcode := by
          rw [List.length_drop] at hcut
          omega
        rw [listingFrom_of_length_le hend, List.take_of_length_le hcut, List.flatMap_nil,
          List.append_nil]
        exact ⟨_, rfl⟩
      · obtain ⟨missing, hrest⟩ := ih _ (by omega) (pos + lineWidth s opcode) rfl
        have hjoin : (bytes.drop (pos + 1)).take count ++ bytes.drop (pos + 1 + count)
            = bytes.drop (pos + 1) := by
          rw [← List.drop_drop (i := count) (j := pos + 1), List.take_append_drop]
        refine ⟨missing, ?_⟩
        rw [hrest, Nat.sub_eq_zero_of_le hwhole, List.replicate_zero, List.append_nil, hwidth,
          ← Nat.add_assoc, List.cons_append, ← List.append_assoc, hjoin, List.cons_append]

/-- **What the lines have too much, the last one has as literals**: its opcode is there. -/
theorem le_length_literals {missing : ℕ}
    (htotal : totalWidth (listing s bytes) = bytes.length + missing) {earlier : List ListingLine}
    {l : ListingLine} (h : listing s bytes = earlier ++ [l]) : missing ≤ l.literals.length := by
  have hwidth : l.bytes.length = l.literals.length + 1 := rfl
  have hsum := totalWidth_append earlier [l]
  rw [← h, htotal, totalWidth_cons, hwidth] at hsum
  obtain ⟨opcode, hbyte, -⟩ := exists_opcode_of_listing h
  have hlt := (List.getElem?_eq_some_iff.mp hbyte).1
  simp only [totalWidth, List.map_nil, List.sum_nil] at hsum hlt
  omega

/-- **Lines tile some bytes**: they cut them into unassigned bytes and instructions with their
literals. -/
structure Tiles (s : InstructionSet) (lines : List ListingLine) (bytes : List UInt8) : Prop where
  /-- The lines hold the bytes in order.  At most four zeros follow, for literals of the last line
  that are not there. -/
  bytes_eq : ∃ missing ≤ 4,
    lines.flatMap ListingLine.bytes = bytes ++ List.replicate missing 0 ∧
      ∀ earlier l, lines = earlier ++ [l] → missing ≤ l.literals.length
  /-- A line begins where those before it end, at a byte that is there. -/
  start : ∀ earlier l later, lines = earlier ++ l :: later →
    l.offset.toNat = totalWidth earlier ∧ bytes[totalWidth earlier]? = some l.opcode
  /-- A line holds an unassigned byte, or an opcode with a literal for each set bit of its
  variant. -/
  content : ∀ l ∈ lines, l.form = s.decode l.opcode ∧
    l.literals.length = l.form.elim 0 fun f => popCount f.variant
  /-- The sweep comes to an end: it makes no more lines than there are bytes. -/
  length_le : lines.length ≤ bytes.length

/-- **The listing of a bank tiles it**, for every instruction set and all bytes that fit in a
bank. -/
theorem listing_tiles_bank {ds : List Definition} {as : List (String × String)} {s : InstructionSet}
    (hs : InstructionSet.build ds as = .ok s) {bytes : List UInt8}
    (hsize : bytes.length ≤ bankSize) :
    Tiles s (listing s bytes) bytes := by
  have hlawful := InstructionSet.lawful_of_build hs
  obtain ⟨missing, hbytes⟩ := exists_flatMap_bytes_eq s bytes 0
  rw [List.drop_zero] at hbytes
  have htotal : totalWidth (listing s bytes) = bytes.length + missing := by
    rw [← length_flatMap_bytes, listing, hbytes, List.length_append, List.length_replicate]
  refine ⟨⟨missing, ?_, hbytes, fun _ _ => le_length_literals htotal⟩,
    fun earlier l later h => ?_, fun l hl => ?_,
    length_listingFrom_le s 0 0 bytes⟩
  · rcases List.eq_nil_or_concat (listing s bytes) with hnil | ⟨earlier, l, hlast⟩
    · have hnone : bytes.length + missing = 0 := htotal ▸ congrArg totalWidth hnil
      omega
    · rw [List.concat_eq_append] at hlast
      obtain ⟨opcode, -, hline, -⟩ := exists_opcode_of_listing hlast
      exact Nat.le_trans (le_length_literals htotal hlast) (hline ▸ hlawful.length_literals_le)
  · obtain ⟨opcode, hbyte, rfl, -⟩ := exists_opcode_of_listing h
    have hlt := (List.getElem?_eq_some_iff.mp hbyte).1
    exact ⟨UInt8.toNat_ofNat_of_lt' (Nat.lt_of_lt_of_le hlt hsize), hbyte⟩
  · obtain ⟨earlier, later, h⟩ := List.append_of_mem hl
    obtain ⟨opcode, -, rfl, -⟩ := exists_opcode_of_listing h
    exact ⟨rfl, length_literals_eq_popCount⟩

/-- An unassigned byte and a store with three inline slots of which two are missing. -/
theorem tiles_with_missing_literals :
    ((InstructionSet.standard.decode 130).map Form.slots = some [true, true, true]) ∧
      Tiles .standard (listing .standard [255, 130, 1]) [255, 130, 1] ∧
      (listing .standard [255, 130, 1]).map ListingLine.bytes = [[255], [130, 1, 0, 0]] := by
  refine ⟨?_, listing_tiles_bank InstructionSet.build_standard (by decide), ?_⟩ <;> decide +kernel

end Protocell
