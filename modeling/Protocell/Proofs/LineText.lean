import Protocell.Memory
import Protocell.Proofs.Faults
import Protocell.Proofs.Tiling

/-!
# Proofs/LineText — the text of a line tells its bytes

The text of a line is a word, the mnemonic or `.dat`, and then its slots.  No blank is in the word,
and the slots begin with one, so that the first blank of the text tells the two apart
(`eq_of_append_slotsText_eq`).  The slots show which of them are inline, and every literal in two
digits (`slotsText_inj`).

In a built set no two instructions have one mnemonic.  If none of these has a blank or is `.dat`,
then the text of a line tells the opcode and the literals (`bytes_eq_of_text_eq`).  The lines of a
bank hold its bytes and nothing but zeros behind them, so that the texts of all lines tell the bank,
up to zeros at its end (`bytes_eq_of_texts_eq`).
-/

namespace Protocell

theorem Text.upperHex_injective : Function.Injective Text.upperHex := by
  intro b c h
  have hnumber := congrArg hexNumber h
  rw [hexNumber_upperHex, hexNumber_upperHex] at hnumber
  exact UInt8.toNat_inj.mp hnumber

/-! ## Slots and words -/

theorem slotsText_cons_ne_nil (inline : Bool) (slots : List Bool) (literals : List UInt8) :
    slotsText (inline :: slots) literals ≠ [] := by
  cases inline <;> cases literals <;> exact List.cons_ne_nil _ _

theorem slotsText_stacked (slots : List Bool) (literals : List UInt8) :
    slotsText (false :: slots) literals = ' ' :: '_' :: slotsText slots literals := by
  cases literals <;> rfl

/-- An inline slot that has its literal. -/
theorem exists_slotsText_inline {slots : List Bool} {literals : List UInt8}
    (hcount : literals.length = (true :: slots).count true) :
    ∃ v rest, literals = v :: rest ∧ rest.length = slots.count true ∧
      slotsText (true :: slots) literals
        = ' ' :: '$' :: (Text.upperHex v ++ slotsText slots rest) := by
  rw [List.count_cons_self] at hcount
  obtain ⟨v, rest, rfl⟩ := List.exists_cons_of_length_eq_add_one hcount
  exact ⟨v, rest, rfl, Nat.succ.inj hcount, rfl⟩

/-- **Slots are known by their text**, with their literals. -/
theorem slotsText_inj {slots slots' : List Bool} {literals literals' : List UInt8}
    (hcount : literals.length = slots.count true) (hcount' : literals'.length = slots'.count true)
    (h : slotsText slots literals = slotsText slots' literals') :
    slots = slots' ∧ literals = literals' := by
  induction slots generalizing slots' literals literals' with
  | nil =>
    obtain rfl := List.length_eq_zero_iff.mp hcount
    cases slots' with
    | nil => exact ⟨rfl, (List.length_eq_zero_iff.mp hcount').symm⟩
    | cons inline' slots' => exact absurd h.symm (slotsText_cons_ne_nil inline' slots' literals')
  | cons inline slots ih =>
    cases slots' with
    | nil => exact absurd h (slotsText_cons_ne_nil inline slots literals)
    | cons inline' slots' =>
      cases inline with
      | false =>
        rw [slotsText_stacked] at h
        cases inline' with
        | false =>
          rw [slotsText_stacked] at h
          have hrest : literals.length = slots.count true := hcount
          have hrest' : literals'.length = slots'.count true := hcount'
          obtain ⟨rfl, rfl⟩ := ih hrest hrest' (List.cons.inj (List.cons.inj h).2).2
          exact ⟨rfl, rfl⟩
        | true =>
          obtain ⟨v', rest', rfl, -, htext'⟩ := exists_slotsText_inline hcount'
          rw [htext'] at h
          cases (List.cons.inj (List.cons.inj h).2).1
      | true =>
        obtain ⟨v, rest, rfl, hrest, htext⟩ := exists_slotsText_inline hcount
        rw [htext] at h
        cases inline' with
        | false =>
          rw [slotsText_stacked] at h
          cases (List.cons.inj (List.cons.inj h).2).1
        | true =>
          obtain ⟨v', rest', rfl, hrest', htext'⟩ := exists_slotsText_inline hcount'
          rw [htext'] at h
          obtain ⟨hdigits, hslots⟩ :=
            List.append_inj (List.cons.inj (List.cons.inj h).2).2 rfl
          obtain ⟨rfl, rfl⟩ := ih hrest hrest' hslots
          exact ⟨rfl, congrArg (· :: rest) (Text.upperHex_injective hdigits)⟩

/-- The word before slots ends at the first blank. -/
theorem takeWhile_append_slotsText {word : List Char} (hword : ' ' ∉ word) (slots : List Bool)
    (literals : List UInt8) :
    (word ++ slotsText slots literals).takeWhile (· != ' ') = word := by
  have hslots : (slotsText slots literals).takeWhile (· != ' ') = [] := by
    cases slots with
    | nil => rfl
    | cons inline slots => cases inline <;> cases literals <;> rfl
  have hpast : ∀ c ∈ word, (c != ' ') = true := by
    intro c hc
    rw [bne_iff_ne]
    rintro rfl
    exact hword hc
  rw [List.takeWhile_append_of_pos hpast, hslots, List.append_nil]

/-- **A word and the slots behind it are told apart by the first blank.** -/
theorem eq_of_append_slotsText_eq {word word' : List Char} {slots slots' : List Bool}
    {literals literals' : List UInt8} (hword : ' ' ∉ word) (hword' : ' ' ∉ word')
    (h : word ++ slotsText slots literals = word' ++ slotsText slots' literals') :
    word = word' ∧ slotsText slots literals = slotsText slots' literals' := by
  have hsame : word = word' := by
    rw [← takeWhile_append_slotsText hword slots literals, h, takeWhile_append_slotsText hword']
  obtain rfl := hsame
  exact ⟨rfl, List.append_cancel_left h⟩

/-! ## Lines -/

/-- **A set whose listings can be read back**: no two instructions have one mnemonic, and no
mnemonic looks like anything else on a line. -/
structure InstructionSet.Legible (s : InstructionSet) : Prop where
  lawful : s.Lawful
  nodup : (s.instructions.map fun i => i.mnemonic).Nodup
  blank_not_mem : ∀ i ∈ s.instructions, ' ' ∉ i.mnemonic.toList
  ne_dat : ∀ i ∈ s.instructions, i.mnemonic ≠ ".dat"

theorem InstructionSet.legible_of_build {ds : List Definition} {as : List (String × String)}
    {s : InstructionSet} (hs : build ds as = .ok s)
    (hplain : ∀ d ∈ ds, ' ' ∉ d.mnemonic.toList ∧ d.mnemonic ≠ ".dat") : s.Legible := by
  have hmem : ∀ i ∈ s.instructions, i.toDefinition ∈ ds := by
    intro i hi
    rw [← definitions_of_build hs]
    exact List.mem_map_of_mem hi
  have hnodup := nodup_mnemonics_of_build hs
  rw [← definitions_of_build hs, List.map_map] at hnodup
  exact ⟨lawful_of_build hs, hnodup, fun i hi => (hplain _ (hmem i hi)).1,
    fun i hi => (hplain _ (hmem i hi)).2⟩

/-- The opcode of what a byte decodes to is the byte. -/
theorem InstructionSet.Lawful.opcode_of_decode {s : InstructionSet} (hs : s.Lawful) {b : UInt8}
    {f : Form} (h : s.decode b = some f) :
    f.instruction ∈ s.instructions ∧ f.instruction.opcode f.variant = b := by
  obtain ⟨i, hfind, rfl⟩ := Option.map_eq_some_iff.mp h
  have hi := List.mem_of_find?_eq_some hfind
  have howns := List.find?_some hfind
  exact ⟨hi, hs.opcode_sub_base hi howns⟩

/-- A decoded variant is known by the slots that it makes. -/
theorem InstructionSet.eq_of_slots_eq {s : InstructionSet} {b b' : UInt8} {f f' : Form}
    (h : s.decode b = some f) (h' : s.decode b' = some f')
    (hinstruction : f.instruction = f'.instruction) (hslots : f.slots = f'.slots) : f = f' := by
  have hlt := toNat_variant_lt_of_decode h
  have hlt' := toNat_variant_lt_of_decode h'
  obtain ⟨i, v⟩ := f
  obtain ⟨i', v'⟩ := f'
  obtain rfl : i = i' := hinstruction
  have hbits : ∀ k, v.toNat.testBit k = v'.toNat.testBit k := by
    intro k
    rcases Nat.lt_or_ge k i.arity with hk | hk
    · have hslot := List.getElem_of_eq hslots (by rwa [Form.length_slots] : k < _)
      simpa only [Form.slots, List.getElem_map, List.getElem_range] using hslot
    · have hpow : 2 ^ i.arity ≤ 2 ^ k := Nat.pow_le_pow_right (by decide) hk
      rw [Nat.testBit_lt_two_pow (Nat.lt_of_lt_of_le hlt hpow),
        Nat.testBit_lt_two_pow (Nat.lt_of_lt_of_le hlt' hpow)]
  rw [UInt8.toNat_inj.mp (Nat.eq_of_testBit_eq hbits)]

namespace ListingLine

variable {s : InstructionSet} {pos pos' : ℕ} {opcode opcode' : UInt8} {rest rest' : List UInt8}
  {f : Form}

theorem toList_text_of_decode (h : s.decode opcode = some f) :
    (ofOpcode s pos opcode rest).text.toList
      = f.instruction.mnemonic.toList ++
        slotsText f.slots (ofOpcode s pos opcode rest).literals := by
  have htext : (ofOpcode s pos opcode rest).text
      = f.text (ofOpcode s pos opcode rest).literals := by
    rw [text, ofOpcode, h]
  rw [htext, Form.text, String.toList_append, String.toList_ofList]

/-- An unassigned byte is written as an inline literal of `.dat`. -/
theorem toList_text_of_unassigned (h : s.decode opcode = none) :
    (ofOpcode s pos opcode rest).text.toList
      = ".dat".toList ++ slotsText [true] [opcode] := by
  have htext : (ofOpcode s pos opcode rest).text
      = ".dat $" ++ String.ofList (Text.upperHex opcode) := by
    rw [text, ofOpcode, h]
  have hdigits : (String.ofList (Text.upperHex opcode)).toList = Text.upperHex opcode :=
    String.toList_ofList
  rw [htext, String.toList_append, hdigits]
  rfl

theorem length_literals_of_decode (h : s.decode opcode = some f) :
    (ofOpcode s pos opcode rest).literals.length = f.slots.count true := by
  rw [length_literals_ofOpcode, h]
  rfl

theorem literals_of_unassigned (h : s.decode opcode = none) :
    (ofOpcode s pos opcode rest).literals = [] := by
  rw [ofOpcode, h]
  rfl

/-- **The text of a line tells its bytes.** -/
theorem bytes_eq_of_text_eq (hs : s.Legible)
    (h : (ofOpcode s pos opcode rest).text = (ofOpcode s pos' opcode' rest').text) :
    (ofOpcode s pos opcode rest).bytes = (ofOpcode s pos' opcode' rest').bytes := by
  have htext := congrArg String.toList h
  have hdat : ' ' ∉ ".dat".toList := by decide
  suffices hparts : opcode = opcode' ∧
      (ofOpcode s pos opcode rest).literals = (ofOpcode s pos' opcode' rest').literals from
    congrArg₂ List.cons hparts.1 hparts.2
  rcases hdecode : s.decode opcode with - | f <;> rcases hdecode' : s.decode opcode' with - | f'
  · rw [toList_text_of_unassigned hdecode, toList_text_of_unassigned hdecode'] at htext
    obtain ⟨-, hslots⟩ := eq_of_append_slotsText_eq hdat hdat htext
    refine ⟨List.head_eq_of_cons_eq (slotsText_inj rfl rfl hslots).2, ?_⟩
    rw [literals_of_unassigned hdecode, literals_of_unassigned hdecode']
  · obtain ⟨hi', -⟩ := hs.lawful.opcode_of_decode hdecode'
    rw [toList_text_of_unassigned hdecode, toList_text_of_decode hdecode'] at htext
    obtain ⟨hword, -⟩ := eq_of_append_slotsText_eq hdat (hs.blank_not_mem _ hi') htext
    exact absurd (String.toList_inj.mp hword).symm (hs.ne_dat _ hi')
  · obtain ⟨hi, -⟩ := hs.lawful.opcode_of_decode hdecode
    rw [toList_text_of_decode hdecode, toList_text_of_unassigned hdecode'] at htext
    obtain ⟨hword, -⟩ := eq_of_append_slotsText_eq (hs.blank_not_mem _ hi) hdat htext
    exact absurd (String.toList_inj.mp hword) (hs.ne_dat _ hi)
  · obtain ⟨hi, hopcode⟩ := hs.lawful.opcode_of_decode hdecode
    obtain ⟨hi', hopcode'⟩ := hs.lawful.opcode_of_decode hdecode'
    rw [toList_text_of_decode hdecode, toList_text_of_decode hdecode'] at htext
    obtain ⟨hword, hslots⟩ :=
      eq_of_append_slotsText_eq (hs.blank_not_mem _ hi) (hs.blank_not_mem _ hi') htext
    have hinstruction : f.instruction = f'.instruction :=
      List.inj_on_of_nodup_map hs.nodup hi hi' (String.toList_inj.mp hword)
    obtain ⟨hinline, hliterals⟩ := slotsText_inj (length_literals_of_decode hdecode)
      (length_literals_of_decode hdecode') hslots
    obtain rfl := InstructionSet.eq_of_slots_eq hdecode hdecode' hinstruction hinline
    exact ⟨hopcode.symm.trans hopcode', hliterals⟩

end ListingLine

/-! ## Listings -/

theorem exists_ofOpcode_of_mem_listing {s : InstructionSet} {bytes : List UInt8} {l : ListingLine}
    (h : l ∈ listing s bytes) : ∃ pos opcode rest, l = ListingLine.ofOpcode s pos opcode rest := by
  obtain ⟨earlier, later, hsplit⟩ := List.append_of_mem h
  obtain ⟨opcode, -, hline, -⟩ := exists_opcode_of_listing hsplit
  exact ⟨_, opcode, _, hline⟩

/-- Bytes with zeros behind them make the page that they make without. -/
theorem ofBytes_append_replicate (bytes : List UInt8) (n : ℕ) :
    Page.ofBytes (bytes ++ List.replicate n 0) = Page.ofBytes bytes := by
  refine congrArg ByteTable.ofFn (funext fun i => ?_)
  rw [List.getD_eq_getElem?_getD, List.getD_eq_getElem?_getD, List.getElem?_append]
  split
  · rfl
  · rename_i hle
    rw [List.getElem?_eq_none (Nat.not_lt.mp hle), List.getElem?_replicate]
    split
    · rfl
    · rfl

/-- **The texts of a listing lose nothing.**  Take an instruction set whose mnemonics have no blank
in them and are not `.dat`.  If the listings of two banks have the same texts, line by line, then
their lines have the same bytes, and the banks are the same once both are filled up with zeros. -/
theorem bytes_eq_of_texts_eq {ds : List Definition} {as : List (String × String)}
    {s : InstructionSet} (hs : InstructionSet.build ds as = .ok s)
    (hplain : ∀ d ∈ ds, ' ' ∉ d.mnemonic.toList ∧ d.mnemonic ≠ ".dat") {bytes bytes' : List UInt8}
    (htexts : (listing s bytes).map ListingLine.text = (listing s bytes').map ListingLine.text) :
    (listing s bytes).map ListingLine.bytes = (listing s bytes').map ListingLine.bytes ∧
      Page.ofBytes bytes = Page.ofBytes bytes' := by
  have hlegible := InstructionSet.legible_of_build hs hplain
  have hlength : (listing s bytes).length = (listing s bytes').length := by
    simpa only [List.length_map] using congrArg List.length htexts
  have hbytes : (listing s bytes).map ListingLine.bytes
      = (listing s bytes').map ListingLine.bytes := by
    refine List.ext_getElem (by rw [List.length_map, List.length_map, hlength]) fun k hk hk' => ?_
    rw [List.length_map] at hk hk'
    obtain ⟨_, _, _, hline⟩ := exists_ofOpcode_of_mem_listing (List.getElem_mem hk)
    obtain ⟨_, _, _, hline'⟩ := exists_ofOpcode_of_mem_listing (List.getElem_mem hk')
    have htext := List.getElem_of_eq htexts (by rwa [List.length_map] : k < _)
    rw [List.getElem_map, List.getElem_map, hline, hline'] at htext
    rw [List.getElem_map, List.getElem_map, hline, hline']
    exact ListingLine.bytes_eq_of_text_eq hlegible htext
  refine ⟨hbytes, ?_⟩
  obtain ⟨n, hn⟩ := exists_flatMap_bytes_eq s bytes 0
  obtain ⟨n', hn'⟩ := exists_flatMap_bytes_eq s bytes' 0
  rw [List.drop_zero, ← listing, List.flatMap_def] at hn hn'
  rw [← ofBytes_append_replicate bytes n, ← hn, hbytes, hn', ofBytes_append_replicate]

/-- Two banks of the standard set, of which one ends in the middle of a store and the other has the
zeros that the listing shows there. -/
theorem bytes_eq_of_cut_store :
    (∀ d ∈ InstructionSet.standardDefinitions, ' ' ∉ d.mnemonic.toList ∧ d.mnemonic ≠ ".dat") ∧
      (listing .standard [255, 130, 1]).map ListingLine.text = [".dat $FF", "RSTO $01 $00 $00"] ∧
      (listing .standard [255, 130, 1]).map ListingLine.bytes
        = (listing .standard [255, 130, 1, 0, 0]).map ListingLine.bytes ∧
      Page.ofBytes [255, 130, 1] = Page.ofBytes [255, 130, 1, 0, 0] := by
  have hplain : ∀ d ∈ InstructionSet.standardDefinitions,
      ' ' ∉ d.mnemonic.toList ∧ d.mnemonic ≠ ".dat" := by decide
  have htexts : (listing .standard [255, 130, 1]).map ListingLine.text
      = [".dat $FF", "RSTO $01 $00 $00"] := by decide +kernel
  have htexts' : (listing .standard [255, 130, 1, 0, 0]).map ListingLine.text
      = [".dat $FF", "RSTO $01 $00 $00"] := by decide +kernel
  exact ⟨hplain, htexts,
    bytes_eq_of_texts_eq InstructionSet.build_standard hplain (htexts.trans htexts'.symm)⟩

end Protocell
