import Protocell.Proofs.Access
import Protocell.Proofs.Expression.Execution
import Protocell.Proofs.Frames.Refinement
import Protocell.Proofs.Source.Spelling

/-!
# Proofs/Expression/Line — a code line that spells an expression computes it

From the words of a line to the byte on the stack: the words come to stand as the row of the
expression they spell (`Source/Spelling`), the row becomes the code of the expression whatever
stands around the line (`Source/LineCode`), and running that code pushes the value of the
expression, on frames (`Expression/Execution`) and so on bytes (`Frames/Refinement`).
-/

namespace Protocell

open Assembly

/-- **A machine about to run the code of a line**, with room for so many steps. -/
structure Machine.Before (m : Machine) (code : LineCode) (steps : ℕ) : Prop where
  running : m.flags.ended = false
  awake : m.sleep = 0
  pi_eq : m.pi = code.bank
  pc_eq : m.pc.toNat = code.start
  /-- The active bank holds the bytes of the line. -/
  holds : m.memory.HoldsAt m.pi m.pc code.bytes
  /-- The last of these bytes is at offset 254 or before. -/
  fits : code.start + code.bytes.length ≤ 255
  room : m.sp.toNat + steps ≤ 255

/-- **What running an expression does to a machine**: it is `n` bytes further on and has one more
byte on its stack, and nothing else is changed. -/
structure Machine.Pushed (m m' : Machine) (n : ℕ) (v : UInt8) : Prop where
  pc_eq : m'.pc.toNat = m.pc.toNat + n
  live_eq : m'.live = m.live ++ [v]
  pi_eq : m'.pi = m.pi
  sm_eq : m'.sm = m.sm
  flags_eq : m'.flags = m.flags
  sleep_eq : m'.sleep = m.sleep
  memory_eq : m'.memory = m.memory

theorem Assembly.Tree.IsExpression.isComplete {s : InstructionSet} {t : Tree}
    (h : t.IsExpression s) : t.IsComplete := by
  induction h with
  | leaf v => exact .leaf v
  | node _ _ hlen _ ih => exact .node hlen ih

/-- **Running the code of an expression pushes its value onto the byte stack.** -/
theorem System.Represents.after_expression {x : System σ} {y : FrameSystem σ} (hxy : x.Represents y)
    {p : Processor} (hs : p.instructions.Lawful) (o : Host σ) {t : Tree}
    (ht : t.IsExpression p.instructions) (hnode : t.literal? = none)
    (hend : x.machine.flags.ended = false) (hsleep : x.machine.sleep = 0)
    (hcode : x.machine.memory.HoldsAt x.machine.pi x.machine.pc t.code)
    (hfits : x.machine.pc.toNat + t.code.length ≤ 255)
    (hroom : x.machine.sp.toNat + t.steps.length ≤ 255) :
    x.machine.Pushed (p.after o t.steps.length x).machine t.code.length
        (t.value x.machine.memory x.machine.pi) ∧
      (p.after o t.steps.length x).host = p.charged o t.steps x.host := by
  have hm := hxy.machine
  have hafter := hxy.after p o t.steps.length
  rw [hm.flags_eq] at hend
  rw [hm.sleep_eq] at hsleep
  rw [hm.memory_eq, hm.pi_eq, hm.pc_eq] at hcode
  rw [hm.pc_eq] at hfits
  rw [hm.holds.sp_eq] at hroom
  rw [Processor.evaluates_of_isExpression hs ht hnode y hend hsleep hcode hfits hroom] at hafter
  have hm' := hafter.machine
  refine ⟨⟨?_, ?_, ?_, ?_, ?_, ?_, ?_⟩, ?_⟩
  · rw [hm'.pc_eq, hm.pc_eq]
    exact toNat_add_ofNat (by omega)
  · rw [hm'.holds.live_eq, hm.holds.live_eq, hm.memory_eq, hm.pi_eq]
    exact Frames.bytes_push _ _
  · rw [hm'.pi_eq, hm.pi_eq]
    rfl
  · rw [← UInt8.toNat_inj, hm'.holds.mark_eq, hm.holds.mark_eq]
    exact Frames.start_push _ _
  · rw [hm'.flags_eq, hm.flags_eq]
    rfl
  · rw [hm'.sleep_eq, hm.sleep_eq]
    rfl
  · rw [hm'.memory_eq, hm.memory_eq]
    rfl
  · rw [hafter.host_eq, hxy.host_eq]
    rfl

/-- No standard name begins as a directive or a label does. -/
theorem InstructionSet.head?_of_lookup_standard {name : String} {i : Instruction}
    (h : standard.lookup name = some i) :
    name.toList.head? ≠ some '.' ∧ name.toList.head? ≠ some ':' := by
  have hmnemonics : ∀ i ∈ standard.instructions,
      i.mnemonic.toList.head? ≠ some '.' ∧ i.mnemonic.toList.head? ≠ some ':' := by decide +kernel
  have haliases : ∀ a ∈ standard.aliases,
      a.1.toList.head? ≠ some '.' ∧ a.1.toList.head? ≠ some ':' := by decide +kernel
  rcases Option.or_eq_some_iff.mp h with hfind | ⟨-, halias⟩
  · have hname := List.find?_some hfind
    obtain rfl := beq_iff_eq.mp hname
    exact hmnemonics i (List.mem_of_find?_eq_some hfind)
  · obtain ⟨l₁, l₂, heq, -⟩ := List.lookup_eq_some_iff.mp halias
    exact haliases (name, i) (heq ▸ List.mem_append_right _ List.mem_cons_self)

/-- **A line that spells an expression is read as code.** -/
theorem Assembly.Draft.parse?_of_spells {d : Draft} {n : ℕ} {line : List Char} {t : Tree}
    (h : d.Spells .standard n line t) (hnode : t.literal? = none) :
    Statement.parse? .standard line
      = (Statement.parseCode .standard (Text.trim (stripComment line))).map some := by
  cases t with
  | leaf v => cases hnode
  | node i ts =>
    obtain ⟨w, ws, b, hwords, hlookup, -⟩ := h.exists_lookup
    have hhead := InstructionSet.head?_of_lookup_standard hlookup
    rw [String.toList_ofList] at hhead
    exact parse?_of_codeWords hwords hhead.1 hhead.2

/-- **A code line that spells an expression computes it.**  In every program that assembles, the
line has code, the program holds that code where it is said to be, and whenever a processor is about
to run it with enough room, it makes one step for each instruction and is then behind the code with
the value of the expression on its stack, everything else as it was; its host was asked for nothing
but the charges. -/
theorem expression_line_pushes_value {source : String} {program : Program} {d : Draft} {n : ℕ}
    {line : List Char} {t : Tree} (hassemble : assemble .standard source = .ok program)
    (hdraft : Draft.ofLines .standard (Text.lines source.toList) = .ok d)
    (hline : (Text.lines source.toList)[n]? = some line)
    (hspells : d.Spells .standard (n + 1) line t) (ht : t.IsExpression .standard)
    (hnode : t.literal? = none) :
    ∃ code, d.lineCode? (n + 1) = some code ∧ code.StandsIn program ∧
      ∀ {σ : Type u} (o : Host σ) (metered : Bool) (s : σ) (as : List Access),
        let p : Processor := ⟨.standard, metered⟩
        let x := (p.accesses o as ⟨{}, s⟩).2
        let x' := p.after o t.steps.length x
        x.machine.Before code t.steps.length →
          x.machine.Pushed x'.machine code.bytes.length
              (t.value x.machine.memory x.machine.pi) ∧
            x'.host = p.charged o t.steps x.host := by
  obtain ⟨d', hd', hfinish⟩ := bind_eq_ok_iff.mp hassemble
  obtain rfl := Except.ok.inj (hdraft.symm.trans hd')
  have hsection : ∃ b, d.sectionOf? (n + 1) = some b := by
    cases t with
    | leaf v => cases hnode
    | node i ts =>
      obtain ⟨_, _, b, -, -, hb⟩ := hspells.exists_lookup
      exact ⟨b, hb⟩
  obtain ⟨b, hb⟩ := hsection
  obtain ⟨ts, hparse, hrow⟩ := Draft.mapM_resolve_of_spells hspells hb
  have hstatement : Statement.parse? .standard line = .ok (some (.tokens ts.reverse)) := by
    rw [Draft.parse?_of_spells hspells hnode, Statement.parseCode]
    rw [codeWords] at hparse
    rw [hparse]
    rfl
  obtain ⟨b', hstands⟩ := Draft.stands_of_ofLines hdraft hline hstatement
  have hne : ts.reverse ≠ [] := by
    intro hnil
    rw [hnil] at hrow
    exact t.row_ne_nil (Except.ok.inj hrow).symm
  obtain rfl := Option.some.inj (hb.symm.trans (hstands.sectionOf?_eq hne))
  obtain ⟨code, hcode, hbytes, hin⟩ := Draft.lineCode?_of_row hfinish
    (Draft.nodup_of_ofLines hdraft) hstands hrow ht.isComplete hnode
  refine ⟨code, hcode, hin, ?_⟩
  intro σ o metered s as p x x' hbefore
  have hnew : System.Represents ⟨{}, s⟩ ⟨{}, s⟩ := ⟨Machine.represents_new, rfl⟩
  have hreached := (hnew.accesses p o as).2
  rw [hbytes]
  refine hreached.after_expression InstructionSet.lawful_standard o ht hnode hbefore.running
    hbefore.awake (hbytes ▸ hbefore.holds) ?_ hbefore.room
  rw [← hbytes]
  exact hbefore.pc_eq ▸ hbefore.fits

/-- The line takes `2 * 5` away from `42`.  The last line adds what comes of that to the literal
above it, which is thereby taken away from before the code of the line. -/
theorem expression_line_pushes_difference :
    ∃ program d, assemble .standard ".prg 0\n7\nSUB MUL 2 5 PUSH $2A\nADD\n" = .ok program ∧
      Draft.ofLines .standard (Text.lines ".prg 0\n7\nSUB MUL 2 5 PUSH $2A\nADD\n".toList) = .ok d ∧
      d.lineCode? 3 = some ⟨0, 0, [8, 42, 74, 2, 5, 67]⟩ ∧
      ∀ {σ : Type u} (o : Host σ) (s : σ),
        ((⟨.standard, true⟩ : Processor).after o 3 ⟨.load program, s⟩).machine.live = [32] := by
  have hbank : (assemble .standard ".prg 0\n7\nSUB MUL 2 5 PUSH $2A\nADD\n").toOption.map
      (fun p => p.get? 0) = some (some [8, 42, 74, 2, 5, 67, 65, 7]) := by decide +kernel
  have hwords : (Draft.ofLines .standard
        (Text.lines ".prg 0\n7\nSUB MUL 2 5 PUSH $2A\nADD\n".toList)).toOption.map
      (fun d => (d.lineCode? 3, (codeWords "SUB MUL 2 5 PUSH $2A".toList).map
        (d.atomOf? .standard 3)))
      = some (some ⟨0, 0, [8, 42, 74, 2, 5, 67]⟩,
          [.instruction ⟨⟨.sub, "SUB", 2, 1⟩, 67⟩, .instruction ⟨⟨.mul, "MUL", 2, 1⟩, 71⟩, .byte 2,
            .byte 5, .instruction ⟨⟨.push, "PUSH", 1, 1⟩, 7⟩, .byte 42].map some) := by
    decide +kernel
  obtain ⟨program, hassemble, hbank⟩ := Option.map_eq_some_iff.mp hbank
  obtain ⟨d, hdraft, hwords⟩ := Option.map_eq_some_iff.mp hwords
  rw [toOption_eq_some_iff] at hassemble hdraft
  obtain ⟨hcode, hspells⟩ := Prod.mk.inj hwords
  let difference : Tree := .node ⟨⟨.sub, "SUB", 2, 1⟩, 67⟩
    [.node ⟨⟨.mul, "MUL", 2, 1⟩, 71⟩ [.leaf 2, .leaf 5],
      .node ⟨⟨.push, "PUSH", 1, 1⟩, 7⟩ [.leaf 42]]
  have ht : difference.IsExpression .standard := by
    refine .node (by decide +kernel) rfl rfl ?_
    refine List.forall_mem_cons.mpr ⟨?_, List.forall_mem_cons.mpr ⟨?_, fun t ht => nomatch ht⟩⟩
    · refine .node (by decide +kernel) rfl rfl ?_
      refine List.forall_mem_cons.mpr ⟨.leaf 2, List.forall_mem_cons.mpr ⟨.leaf 5, ?_⟩⟩
      exact fun t ht => nomatch ht
    · refine .node (by decide +kernel) rfl rfl ?_
      exact List.forall_mem_cons.mpr ⟨.leaf 42, fun t ht => nomatch ht⟩
  have hspells' : d.Spells .standard 3 "SUB MUL 2 5 PUSH $2A".toList difference := hspells
  obtain ⟨code, hcode', -, hrun⟩ := expression_line_pushes_value hassemble hdraft
    (n := 2) (by decide +kernel) hspells' ht rfl
  obtain rfl := Option.some.inj (hcode.symm.trans hcode')
  refine ⟨program, d, hassemble, hdraft, hcode, ?_⟩
  intro σ o s
  have hread (offset : UInt8) : (Memory.ofProgram program).read 0 offset
      = ([8, 42, 74, 2, 5, 67, 65, 7][offset.toNat]?).getD 0 := by
    rw [Memory.read_ofProgram, Program.byteAt?, hbank]
    rfl
  have hpresent : program.has 0 = true := by
    rw [Program.has, hbank]
    rfl
  have hbefore : (Machine.load program).Before ⟨0, 0, [8, 42, 74, 2, 5, 67]⟩ 3 := by
    refine ⟨?_, rfl, rfl, rfl, ?_, by decide, Nat.le_of_ble_eq_true rfl⟩
    · rw [Machine.load, hpresent]
      rfl
    · exact ⟨hread 0, hread 1, hread 2, hread 3, hread 4, hread 5, trivial⟩
  have hlive : (Machine.load program).live = [] := List.take_zero
  have hvalue (memory : Memory) (bank : UInt8) : difference.value memory bank = 32 := by
    simp [difference, Tree.value, Tree.values, Operation.value, Operation.number]
  have hpushed := (hrun o true s [.load program] hbefore).1.live_eq
  rw [hvalue] at hpushed
  exact hpushed.trans (congrArg (· ++ [32]) hlive)

end Protocell
