import Mathlib.Data.List.GetD
import Mathlib.Data.List.ReduceOption
import Protocell.Listing
import Protocell.Proofs.Source.Instructions

/-!
# Proofs/Listing — a listing shows what was assembled

The opcode of an instruction tells which of its slots are inline, so that a sweep which begins at an
opcode takes exactly the literals that were folded behind it and comes out at the next opcode
(`listingFrom_bytes_append`).  A bank without literals left over is such a row of instructions and
literals, and its listing shows the instructions that were written with the arguments they took
(`listing_of_assemble`).
-/

namespace Protocell

open Assembly

namespace Assembly

/-! ## The form of an instruction with arguments -/

theorem bitsToNat_append_replicate (bs : List Bool) (n : ℕ) :
    bitsToNat (bs ++ List.replicate n false) = bitsToNat bs := by
  induction bs with
  | nil =>
    induction n with
    | zero => rfl
    | succ n ih =>
      change false.toNat + 2 * bitsToNat ([] ++ List.replicate n false) = 0
      rw [ih]
      rfl
  | cons b bs ih => rw [List.cons_append, bitsToNat, bitsToNat, ih]

/-- The text of slots is that of their arguments. -/
theorem slotsText_eq_flatMap (args : List (Option UInt8)) :
    slotsText (args.map Option.isSome) args.reduceOption = args.flatMap slotText := by
  induction args with
  | nil => rfl
  | cons a args ih =>
    cases a with
    | none =>
      rw [List.map_cons, List.reduceOption_cons_of_none, List.flatMap_cons, ← ih]
      rfl
    | some v =>
      rw [List.map_cons, List.reduceOption_cons_of_some, List.flatMap_cons, ← ih]
      rfl

namespace Applied

/-- An instruction of a set with no more arguments than it has slots. -/
structure Fits (s : InstructionSet) (a : Applied) : Prop where
  mem : a.instruction ∈ s.instructions
  length_le : a.arguments.length ≤ a.instruction.arity

/-- The form that the opcode stands for. -/
def form (a : Applied) : Form := ⟨a.instruction, variantOf a.arguments⟩

variable {s : InstructionSet} {a : Applied}

/-- The slots behind the last argument have no literal. -/
theorem slots_eq (a : Applied) : a.slots = a.arguments ++
    List.replicate (a.instruction.arity - a.arguments.length) none := rfl

theorem reduceOption_slots (a : Applied) : a.slots.reduceOption = a.arguments.reduceOption := by
  rw [slots_eq, List.reduceOption_append, List.reduceOption_replicate_none, List.append_nil]

theorem Fits.length_slots (h : a.Fits s) : a.slots.length = a.instruction.arity := by
  rw [slots_eq, List.length_append, List.length_replicate, Nat.add_sub_cancel' h.length_le]

theorem variantOf_slots (a : Applied) : variantOf a.slots = variantOf a.arguments := by
  rw [variantOf, slots_eq, List.map_append, List.map_replicate, Option.isSome_none,
    bitsToNat_append_replicate, variantOf]

theorem Fits.decode_opcode (h : a.Fits s) (hs : s.Lawful) : s.decode a.opcode = some a.form := by
  have hbits : bitsToNat (a.arguments.map Option.isSome) < a.instruction.size := by
    refine Nat.lt_of_lt_of_le (bitsToNat_lt _) ?_
    rw [List.length_map, Definition.size_eq]
    exact Nat.pow_le_pow_right (by decide) h.length_le
  refine hs.decode_opcode h.mem (Nat.lt_of_le_of_lt ?_ hbits)
  rw [variantOf, UInt8.toNat_ofNat']
  exact Nat.mod_le _ _

/-- The inline slots of the form are those with a literal. -/
theorem Fits.slots_form (h : a.Fits s) (hs : s.Lawful) :
    a.form.slots = a.slots.map Option.isSome := by
  rw [form, ← variantOf_slots]
  exact Form.slots_ofNat_bitsToNat (by rw [List.length_map, h.length_slots]) (hs.arity_le _ h.mem)

theorem Fits.literalCount_form (h : a.Fits s) (hs : s.Lawful) :
    a.form.literalCount = a.arguments.reduceOption.length := by
  rw [Form.literalCount, h.slots_form hs, ← a.reduceOption_slots, List.reduceOption_length_eq,
    List.count_eq_countP, List.countP_map, List.countP_eq_length_filter]
  exact congrArg List.length (List.filter_congr fun o _ => beq_true o.isSome)

theorem Fits.text_form (h : a.Fits s) (hs : s.Lawful) :
    a.form.text a.arguments.reduceOption = a.text := by
  rw [Form.text, h.slots_form hs, ← a.reduceOption_slots, slotsText_eq_flatMap]
  rfl

/-- The line of a listing that shows an instruction at a position. -/
def line (a : Applied) (pos : ℕ) : ListingLine :=
  ⟨UInt8.ofNat pos, a.opcode, some a.form, a.arguments.reduceOption⟩

/-- The lines of instructions from a position on. -/
def linesFrom (pos : ℕ) : List Applied → List ListingLine
  | [] => []
  | a :: as => a.line pos :: linesFrom (pos + a.bytes.length) as

end Applied

/-! ## The sweep -/

/-- A sweep passes the literals of the line before. -/
theorem listingFrom_skip (s : InstructionSet) (pos : ℕ) (literals rest : List UInt8) :
    listingFrom s pos literals.length (literals ++ rest)
      = listingFrom s (pos + literals.length) 0 rest := by
  induction literals generalizing pos with
  | nil => rfl
  | cons b literals ih =>
    rw [List.cons_append, List.length_cons, listingFrom, ih, Nat.add_assoc, Nat.add_comm 1]

theorem map_getD_append (literals rest : List UInt8) :
    (List.range literals.length).map (fun i => (literals ++ rest).getD i 0) = literals := by
  refine List.ext_getElem (by rw [List.length_map, List.length_range]) ?_
  intro i hi hi'
  rw [List.getElem_map, List.getElem_range, List.getD_append _ _ _ _ hi',
    List.getD_eq_getElem _ _ hi']

namespace Applied

variable {s : InstructionSet}

/-- **A sweep that begins at an instruction shows it and goes on behind its literals.** -/
theorem Fits.listingFrom_bytes_append {a : Applied} (h : a.Fits s) (hs : s.Lawful) (pos : ℕ)
    (rest : List UInt8) : listingFrom s pos 0 (a.bytes ++ rest)
      = a.line pos :: listingFrom s (pos + a.bytes.length) 0 rest := by
  have hline : ListingLine.ofOpcode s pos a.opcode (a.arguments.reduceOption ++ rest)
      = a.line pos := by
    rw [ListingLine.ofOpcode, h.decode_opcode hs, Option.elim_some, h.literalCount_form hs,
      map_getD_append, line]
  rw [bytes, List.cons_append, listingFrom, hline, line, listingFrom_skip, List.length_cons,
    Nat.add_assoc, Nat.add_comm 1]

/-- **A sweep over the bytes of instructions shows each of them.** -/
theorem listingFrom_flatMap_bytes {as : List Applied} (h : ∀ a ∈ as, a.Fits s) (hs : s.Lawful)
    (pos : ℕ) : listingFrom s pos 0 (as.flatMap bytes) = linesFrom pos as := by
  induction as generalizing pos with
  | nil => rfl
  | cons a as ih =>
    obtain ⟨ha, has⟩ := List.forall_mem_cons.mp h
    rw [List.flatMap_cons, ha.listingFrom_bytes_append hs, ih has, linesFrom]

theorem map_bytes_linesFrom (as : List Applied) (pos : ℕ) :
    (linesFrom pos as).map ListingLine.bytes = as.map bytes := by
  induction as generalizing pos with
  | nil => rfl
  | cons a as ih =>
    rw [linesFrom, List.map_cons, List.map_cons, ih]
    rfl

theorem map_text_linesFrom {as : List Applied} (h : ∀ a ∈ as, a.Fits s) (hs : s.Lawful) (pos : ℕ) :
    (linesFrom pos as).map ListingLine.text = as.map text := by
  induction as generalizing pos with
  | nil => rfl
  | cons a as ih =>
    obtain ⟨ha, has⟩ := List.forall_mem_cons.mp h
    rw [linesFrom, List.map_cons, List.map_cons, ih has, ← ha.text_form hs]
    rfl

theorem offset_linesFrom {as : List Applied} {pos : ℕ} {earlier later : List ListingLine}
    {l : ListingLine} (h : linesFrom pos as = earlier ++ l :: later) :
    l.offset = UInt8.ofNat (pos + (earlier.map fun l => l.bytes.length).sum) := by
  induction earlier generalizing pos as with
  | nil =>
    cases as with
    | nil => cases h
    | cons a as =>
      obtain ⟨rfl, -⟩ := List.cons.inj h
      rfl
  | cons k earlier ih =>
    cases as with
    | nil => cases h
    | cons a as =>
      obtain ⟨rfl, htail⟩ := List.cons.inj h
      rw [ih htail, List.map_cons, List.sum_cons, Nat.add_assoc]
      rfl

end Applied

end Assembly

/-! ## Assembled banks -/

/-- **A listing shows some instructions with their arguments**: it has one line for each, in their
order, with the bytes and the text of the instruction, and the lines stand at the offsets to which
those before them add up. -/
structure Shows (lines : List ListingLine) (as : List Applied) : Prop where
  bytes_eq : lines.map ListingLine.bytes = as.map Applied.bytes
  text_eq : lines.map ListingLine.text = as.map Applied.text
  offset_eq : ∀ earlier l later, lines = earlier ++ l :: later →
    l.offset.toNat = (earlier.map fun l => l.bytes.length).sum

/-- The listing of a bank of instructions. -/
theorem shows_listing {s : InstructionSet} {as : List Applied} (h : ∀ a ∈ as, a.Fits s)
    (hs : s.Lawful) (hsize : (as.flatMap Applied.bytes).length ≤ bankSize) :
    Shows (listing s (as.flatMap Applied.bytes)) as := by
  rw [listing, Applied.listingFrom_flatMap_bytes h hs]
  refine ⟨Applied.map_bytes_linesFrom as 0, Applied.map_text_linesFrom h hs 0, ?_⟩
  intro earlier l later hsplit
  have hlen : (as.flatMap Applied.bytes).length
      = ((Applied.linesFrom 0 as).map fun l => l.bytes.length).sum := by
    rw [List.flatMap_def, ← Applied.map_bytes_linesFrom as 0, List.length_flatten, List.map_map]
    rfl
  rw [hsplit, List.map_append, List.sum_append, List.map_cons, List.sum_cons] at hlen
  have hline : l.bytes.length = l.literals.length + 1 := rfl
  rw [bankSize] at hsize
  rw [Applied.offset_linesFrom hsplit, Nat.zero_add, UInt8.toNat_ofNat',
    Nat.mod_eq_of_lt (by omega)]

/-- **A listing shows what was assembled.**  Let every literal of a bank have been taken by an
instruction.  Then its listing has a line for each instruction word of the bank, in execution order,
with the instruction's own mnemonic and the literals that it took. -/
theorem listing_of_assemble {ds : List Definition} {as : List (String × String)}
    {s : InstructionSet} (hs : InstructionSet.build ds as = .ok s) {source : String} {p : Program}
    (h : assemble s source = .ok p) {bank : UInt8} {bytes : List UInt8}
    (hbank : p.get? bank = some bytes) :
    ∃ d b atoms, Draft.ofLines s (Text.lines source.toList) = .ok d ∧ b ∈ d.sections ∧
      b.bank = bank ∧ b.atoms d.constants = .ok atoms ∧ bytes = fold atoms ∧
      ((∀ q ∈ atoms.foldl place [], ∀ v, q.emission ≠ .raw v) →
        (applied atoms).map Applied.instruction = b.words ∧ (∀ i ∈ b.words, i ∈ s.instructions) ∧
        Shows (listing s bytes) (applied atoms)) := by
  have hlawful := InstructionSet.lawful_of_build hs
  obtain ⟨d, hd, hfinish⟩ := bind_eq_ok_iff.mp h
  have hyields := (Draft.finish_eq_ok_iff (Draft.nodup_of_ofLines hd)).mp hfinish
  obtain ⟨b, hb, rfl⟩ : ∃ b ∈ d.sections, b.bank = bank := by
    by_contra hnone
    rw [hyields.other bank fun b hb heq => hnone ⟨b, hb, heq⟩] at hbank
    cases hbank
  obtain ⟨atoms, hatoms, hget⟩ := hyields.bank b hb
  obtain rfl := Option.some.inj (hbank.symm.trans hget)
  refine ⟨d, b, atoms, hd, hb, rfl, hatoms, rfl, fun htaken => ?_⟩
  have hwords : (applied atoms).map Applied.instruction = b.words :=
    (map_instruction_applied atoms).trans (Section.filterMap_atoms hatoms)
  have hmem : ∀ i ∈ b.words, i ∈ s.instructions :=
    fun i hi => Draft.instruction_mem hlawful hd hb hi
  have hfits : ∀ a ∈ applied atoms, a.Fits s := fun a ha =>
    ⟨hmem _ (hwords ▸ List.mem_map_of_mem ha), length_arguments_le ha⟩
  have hsize := Program.length_le_of_get? hbank
  rw [fold_eq_flatMap_bytes htaken] at hsize ⊢
  exact ⟨hwords, hmem, shows_listing hfits hlawful hsize⟩

/-- A listing shows the mnemonic where a source has another name of the instruction. -/
theorem listing_of_alias :
    ∃ p bytes atoms, assemble .standard ".prg 0\n:top\nJPIF LESS 3 PEEK @top\n" = .ok p ∧
      p.get? 0 = some bytes ∧ bytes = fold atoms ∧
      (∀ q ∈ atoms.foldl place [], ∀ v, q.emission ≠ .raw v) ∧
      Shows (listing .standard bytes) (applied atoms) ∧
      (listing .standard bytes).map ListingLine.text = ["PEEK", "LST $03 _", "JPIF _ $00"] := by
  have htexts : (assemble .standard ".prg 0\n:top\nJPIF LESS 3 PEEK @top\n").toOption.bind
      (fun p => (p.get? 0).map fun bytes => (listing .standard bytes).map ListingLine.text)
      = some ["PEEK", "LST $03 _", "JPIF _ $00"] := by decide +kernel
  have htaken : (Draft.ofLines .standard
      (Text.lines ".prg 0\n:top\nJPIF LESS 3 PEEK @top\n".toList)).toOption.map
      (fun d => d.sections.all fun b => (b.atoms d.constants).toOption.all fun atoms =>
        (atoms.foldl place []).all fun q => q.emission.bytes.all fun v => q.emission != .raw v)
      = some true := by decide +kernel
  obtain ⟨p, hp, htexts⟩ := Option.bind_eq_some_iff.mp htexts
  obtain ⟨bytes, hbytes, htexts⟩ := Option.map_eq_some_iff.mp htexts
  rw [toOption_eq_some_iff] at hp
  obtain ⟨d, b, atoms, hd, hb, -, hatoms, hfold, hshows⟩ :=
    listing_of_assemble InstructionSet.build_standard hp hbytes
  rw [hd] at htaken
  have htaken := List.all_eq_true.mp (Option.some.inj htaken) b hb
  rw [hatoms] at htaken
  have hraw : ∀ q ∈ atoms.foldl place [], ∀ v, q.emission ≠ .raw v := by
    intro q hq v hv
    have hbytes := List.all_eq_true.mp htaken q hq
    rw [hv, Emission.bytes, List.all_cons, bne_self_eq_false, Bool.false_and] at hbytes
    cases hbytes
  exact ⟨p, bytes, atoms, hp, hbytes, hfold, hraw, (hshows hraw).2.2, htexts⟩

end Protocell
