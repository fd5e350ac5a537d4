import Protocell.Flow.Report
import Protocell.Proofs.Flow.Partition
import Protocell.Proofs.Sweep

/-!
# Proofs/Flow/BlockListing — the instructions that a report lists for a block

The instructions of a block are the chain of locations from its start to its stop, but what a report
lists for it are lines of the sweep over its bank.  If the sweep comes by the start of the block, it
goes along the chain from there (`listingFrom_eq_map_lineAt`), and these lines are the block's own;
if it does not, no line stands at the start (`report_lists_chain_iff`).  Data before a block can
keep the sweep off its start, and then the block may be left without any line.
-/

namespace Protocell

theorem Text.lowerHex_injective : Function.Injective Text.lowerHex := by
  intro b c h
  have hnumber := congrArg hexNumber h
  rw [hexNumber_lowerHex, hexNumber_lowerHex] at hnumber
  exact UInt8.toNat_inj.mp hnumber

namespace Flow

/-- Lines with the same text stand at the same offset. -/
theorem offset_eq_of_lineText_eq {k l : ListingLine} (h : lineText k = lineText l) :
    k.offset = l.offset := by
  have htext := congrArg String.toList h
  simp only [lineText, String.toList_append, String.toList_ofList, List.append_assoc] at htext
  exact Text.lowerHex_injective (List.append_inj htext rfl).1

/-- **The line of the instruction at a location**, with the operands that stand behind it. -/
def lineAt (s : InstructionSet) (p : Program) (l : Location) : ListingLine :=
  let form := (p.byteAt? l.bank l.offset).bind s.decode
  { offset := l.offset
    opcode := (p.byteAt? l.bank l.offset).getD 0
    form
    literals := (List.range (form.elim 0 Form.literalCount)).map fun i => operandAt p l (1 + i) }

section Bank

variable {s : InstructionSet} {p : Program} {l : Location} {bytes : List UInt8} {stop : ℕ}

/-- An operand is the byte of the bank behind the opcode, or zero. -/
theorem operandAt_eq_getD (hbank : p.get? l.bank = some bytes) (n : ℕ) :
    operandAt p l n = bytes.getD (l.offset.toNat + n) 0 := by
  rw [operandAt, Location.advance, List.getD_eq_getElem?_getD]
  split
  case isTrue hlt =>
    rw [Option.bind_some, Program.byteAt?, hbank, Option.bind_some, UInt8.toNat_ofNat_of_lt' hlt]
  case isFalse hge =>
    have hsize : bytes.length ≤ 256 := Program.length_le_of_get? hbank
    rw [Option.bind_none, List.getElem?_eq_none (by omega)]

/-- The line of a sweep over a bank that is cut off behind an instruction. -/
theorem ofOpcode_eq_lineAt {opcode : UInt8} (hbank : p.get? l.bank = some bytes)
    (hbyte : p.byteAt? l.bank l.offset = some opcode)
    (hstop : l.offset.toNat + lineWidth s opcode ≤ stop) :
    ListingLine.ofOpcode s l.offset.toNat opcode ((bytes.take stop).drop (l.offset.toNat + 1))
      = lineAt s p l := by
  rw [lineWidth_eq] at hstop
  rw [ListingLine.ofOpcode, lineAt, hbyte, UInt8.ofNat_toNat]
  refine congrArg (ListingLine.mk l.offset opcode (s.decode opcode)) ?_
  refine List.map_congr_left fun i hi => ?_
  have hlt := List.mem_range.mp hi
  rw [operandAt_eq_getD hbank, List.getD_eq_getElem?_getD, List.getD_eq_getElem?_getD,
    List.getElem?_drop, List.getElem?_take_of_lt (by omega), Nat.add_assoc]

/-- **A block that lists its own start stands where the sweep comes by.** -/
theorem Block.sweeps_of_mem_instructions {b : Block} (hbank : p.get? b.bank = some bytes)
    (hlt : b.start.toNat < b.stop)
    (hmem : lineText (lineAt s p b.location) ∈ b.instructions s p) :
    Sweeps s bytes 0 b.start.toNat := by
  rw [Block.instructions, hbank] at hmem
  obtain ⟨line, hline, htext⟩ := List.mem_map.mp hmem
  have hoffset : line.offset = b.start := offset_eq_of_lineText_eq htext
  have hsize : (bytes.take b.stop).length ≤ bankSize :=
    Nat.le_trans (List.length_take_le' _ _) (Program.length_le_of_get? hbank)
  have hsweeps := (sweeps_iff hsize).mp ⟨line, List.mem_of_mem_filter hline, hoffset⟩
  exact (sweeps_take_iff (Nat.le_of_lt hlt)).mp hsweeps.1

end Bank

namespace Analysis

variable {a : Analysis} {s : InstructionSet} {p : Program} {entry : UInt8} {l : Location}
  {bytes : List UInt8} {stop w : ℕ} {ls : List Location}

/-- A decoded start behind which nothing is decoded is a block of its own. -/
theorem mem_blocks_of_last (ha : a.HasBytes) (hstart : a.starts.get l = true)
    (hw : a.widths.get l = some w) (hlast : ∀ m, l.advance w = some m → a.widths.get m = none) :
    ⟨l.bank, l.offset, l.offset.toNat + w⟩ ∈ a.blocks := by
  refine (mem_blocks_iff ha).mpr ⟨hstart, [l], .last hw fun m hgoes => ?_⟩
  have hnext : (a.widths.get l).bind l.advance = some m := hgoes.next
  have hdecoded := hgoes.decoded
  rw [hw, Option.bind_some] at hnext
  rw [hlast m hnext] at hdecoded
  cases hdecoded

namespace Faithful

/-- The byte at a decoded location, and how wide its line is. -/
theorem exists_byte (h : a.Faithful s p entry) (hw : a.widths.get l = some w) :
    ∃ opcode, p.byteAt? l.bank l.offset = some opcode ∧ w = lineWidth s opcode := by
  obtain ⟨opcode, hbyte, rfl⟩ := Option.map_eq_some_iff.mp (h.widthAt?_eq l w hw)
  exact ⟨opcode, hbyte, rfl⟩

/-- A decoded location is stored in a bank. -/
theorem exists_bank (h : a.Faithful s p entry) (hl : (a.widths.get l).isSome = true) :
    ∃ bytes, p.get? l.bank = some bytes ∧ l.offset.toNat < bytes.length := by
  obtain ⟨w, hw⟩ := Option.isSome_iff_exists.mp hl
  obtain ⟨opcode, hbyte, -⟩ := h.exists_byte hw
  obtain ⟨bytes, hbank, hstored⟩ := Option.bind_eq_some_iff.mp hbyte
  exact ⟨bytes, hbank, (List.getElem?_eq_some_iff.mp hstored).1⟩

/-- **A sweep that has come to a decoded location shows the chain from there on**, if the bank is
cut off where the chain stops. -/
theorem listingFrom_eq_map_lineAt (h : a.Faithful s p entry) (hbank : p.get? l.bank = some bytes)
    (hchain : a.Chain l stop ls) :
    listingFrom s l.offset.toNat 0 ((bytes.take stop).drop l.offset.toNat)
      = ls.map (lineAt s p) := by
  have hstored {l : Location} {opcode : UInt8} (hbank : p.get? l.bank = some bytes)
      (hbyte : p.byteAt? l.bank l.offset = some opcode) (hlt : l.offset.toNat < stop) :
      (bytes.take stop)[l.offset.toNat]? = some opcode := by
    rw [Program.byteAt?, hbank] at hbyte
    exact (List.getElem?_take_of_lt hlt).trans hbyte
  induction hchain with
  | @last l w hw =>
    obtain ⟨opcode, hbyte, rfl⟩ := h.exists_byte hw
    have hlt : l.offset.toNat < l.offset.toNat + lineWidth s opcode :=
      Nat.lt_add_of_pos_right (lineWidth_pos s opcode)
    rw [listingFrom_of_getElem? (hstored hbank hbyte hlt),
      ofOpcode_eq_lineAt hbank hbyte (Nat.le_refl _),
      listingFrom_of_length_le (List.length_take_le _ _), List.map_singleton]
  | @cons l m w stop ls hw hm hrest ih =>
    obtain ⟨opcode, hbyte, rfl⟩ := h.exists_byte hw
    obtain ⟨hbankEq, hoffset⟩ := advance_eq_some_iff.mp hm
    have hlt := hrest.lt_stop h.hasBytes
    rw [hoffset] at hlt
    have hrestLines := ih (hbankEq ▸ hbank) hstored
    rw [hoffset] at hrestLines
    rw [listingFrom_of_getElem? (hstored hbank hbyte (by omega)),
      ofOpcode_eq_lineAt hbank hbyte (Nat.le_of_lt hlt), hrestLines, List.map_cons]

/-- **A block whose start the sweep comes by lists its own chain.** -/
theorem instructions_eq (h : a.Faithful s p entry) {b : Block} (hbank : p.get? b.bank = some bytes)
    (hchain : a.Chain b.location b.stop ls) (hsweeps : Sweeps s bytes 0 b.start.toNat) :
    b.instructions s p = ls.map fun l => lineText (lineAt s p l) := by
  have hlt : b.start.toNat < b.stop := hchain.lt_stop h.hasBytes
  have hsize : (bytes.take b.stop).length ≤ bankSize :=
    Nat.le_trans (List.length_take_le' _ _) (Program.length_le_of_get? hbank)
  obtain ⟨earlier, hlisting, hearlier⟩ :=
    ((sweeps_take_iff (Nat.le_of_lt hlt)).mpr hsweeps).listing_eq hsize
  have hbefore : earlier.filter (fun line => b.start ≤ line.offset) = [] := by
    refine List.filter_eq_nil_iff.mpr fun line hline => ?_
    rw [decide_eq_true_iff, UInt8.not_le, UInt8.lt_iff_toNat_lt]
    exact hearlier line hline
  have hbehind : (listingFrom s b.start.toNat 0 ((bytes.take b.stop).drop b.start.toNat)).filter
      (fun line => b.start ≤ line.offset) = ls.map (lineAt s p) := by
    rw [← h.listingFrom_eq_map_lineAt (l := b.location) hbank hchain]
    refine List.filter_eq_self.mpr fun line hline => ?_
    exact decide_eq_true (UInt8.le_iff_toNat_le.mpr (Sweeps.of_mem_listingFrom hsize hline).1.le)
  rw [List.drop_zero] at hlisting
  simp only [Block.instructions, hbank, listing]
  rw [hlisting, List.filter_append, hbefore, List.nil_append, hbehind, List.map_map]
  rfl

end Faithful

end Analysis

/-- **Which blocks list their own instructions.**  Each block of a report is a chain of decoded
locations, and its lines are those of the chain, in order, just if a listing of the whole bank has a
line at the start of the block. -/
theorem report_lists_chain_iff (s : InstructionSet) (p : Program) (entry : UInt8) (budget : ℕ) :
    let a := analyze s p entry budget
    ∀ r ∈ (a.report s p entry).blocks, ∃ bytes ls, p.get? r.1.bank = some bytes ∧
      a.Chain r.1.location r.1.stop ls ∧
      (r.2 = ls.map (fun l => lineText (lineAt s p l)) ↔
        ∃ line ∈ listing s bytes, line.offset = r.1.start) := by
  intro a r hr
  have ha : a.Faithful s p entry := faithful_analyze s p entry budget
  obtain ⟨b, hb, rfl⟩ := List.mem_map.mp hr
  obtain ⟨-, ls, hstraight⟩ := (Analysis.mem_blocks_iff ha.hasBytes).mp hb
  have hchain := hstraight.chain
  obtain ⟨bytes, hbank, hlt⟩ := ha.exists_bank (hchain.decoded _ hchain.head_mem)
  refine ⟨bytes, ls, hbank, hchain, ?_⟩
  rw [sweeps_iff (Program.length_le_of_get? hbank)]
  constructor
  · intro (hlines : b.instructions s p = _)
    refine ⟨Block.sweeps_of_mem_instructions hbank (hchain.lt_stop ha.hasBytes) ?_, hlt⟩
    rw [hlines]
    exact List.mem_map_of_mem hchain.head_mem
  · rintro ⟨hsweeps, -⟩
    exact ha.instructions_eq hbank hchain hsweeps

/-- The byte before a return is data that reads like an instruction with the return as its literal.
The sweep passes the return, and the block there is left without lines. -/
theorem block_without_lines :
    ∃ program bytes, assemble .standard ".prg 0\nJUMP 3\n.dat 8\nRTN\n" = .ok program ∧
      program.get? 0 = some bytes ∧ (∀ line ∈ listing .standard bytes, line.offset ≠ 3) ∧
      let a := analyze .standard program 0 2
      (⟨0, 3, 4⟩, []) ∈ (a.report .standard program 0).blocks ∧
        ∃ ls, a.Chain ⟨0, 3⟩ 4 ls ∧ [] ≠ ls.map fun l => lineText (lineAt .standard program l) := by
  have hrun : (assemble .standard ".prg 0\nJUMP 3\n.dat 8\nRTN\n").toOption.bind (fun p =>
      (p.get? 0).map fun bytes => (((listing .standard bytes).map ListingLine.offset,
        Block.instructions .standard p ⟨0, 3, 4⟩), (analyze .standard p 0 2).edges.toList,
        (analyze .standard p 0 2).widths.get ⟨0, 3⟩, (analyze .standard p 0 2).widths.get ⟨0, 4⟩))
      = some (([0, 2], []), [⟨⟨0, 0⟩, ⟨0, 3⟩, .jump⟩], some 1, none) := by decide +kernel
  obtain ⟨program, hassemble, hrun⟩ := Option.bind_eq_some_iff.mp hrun
  obtain ⟨bytes, hbank, hrun⟩ := Option.map_eq_some_iff.mp hrun
  simp only [Prod.mk.injEq] at hrun
  obtain ⟨⟨hoffsets, hlines⟩, hedges, hdecoded, hbehind⟩ := hrun
  have hunmet : ∀ line ∈ listing .standard bytes, line.offset ≠ 3 := by
    intro line hline heq
    have hmem : line.offset ∈ (listing .standard bytes).map ListingLine.offset :=
      List.mem_map_of_mem hline
    rw [hoffsets, heq] at hmem
    exact absurd hmem (by decide)
  have hstart : (analyze .standard program 0 2).starts.get ⟨0, 3⟩ = true :=
    Analysis.get_starts_iff.mpr (.inr ⟨_, hedges ▸ List.mem_cons_self,
      ⟨EdgeKind.noConfusion, EdgeKind.noConfusion⟩, rfl⟩)
  have hblock : (⟨0, 3, 4⟩ : Block) ∈ (analyze .standard program 0 2).blocks := by
    refine Analysis.mem_blocks_of_last (faithful_analyze ..).hasBytes hstart hdecoded fun m hm => ?_
    obtain rfl : ⟨0, 4⟩ = m := Option.some.inj hm
    exact hbehind
  have hreport := List.mem_map_of_mem (f := fun b => (b, b.instructions .standard program)) hblock
  obtain ⟨bytes', ls, hbank', hchain, hlists⟩ :=
    report_lists_chain_iff .standard program 0 2 _ hreport
  obtain rfl := Option.some.inj (hbank.symm.trans hbank')
  refine ⟨program, bytes, toOption_eq_some_iff.mp hassemble, hbank, hunmet, ?_, ls, hchain, ?_⟩
  · exact hlines ▸ hreport
  · intro hown
    obtain ⟨line, hline, heq⟩ := hlists.mp (hlines.trans hown)
    exact hunmet line hline heq

end Flow

end Protocell
