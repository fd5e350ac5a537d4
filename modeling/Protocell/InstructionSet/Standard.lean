import Protocell.InstructionSet.Basic

/-!
# InstructionSet/Standard — the instruction set of a cell

| Opcodes | Arity | Mnemonics |
|---------|-------|-----------|
| 0–6 | 0 | NOP POP PEEK RTN ECHK INPB INPC |
| 7–42 | 1 | PUSH COPY LLOD JUMP CALL INC DEC NEG NOT SLP SCAN LCHK LINK MCHK MGET DUP OUTB OUTC |
| 43–82 | 2 | LSTO JPIF AND OR XOR ADD SUB MUL DIV LSFT |
| 83–122 | 2 | LLOP RSFT RLOP EQUL GRT LST EGIV JET MSND RLOD |
| 123–130 | 3 | RSTO |

Sensing costs twice and acting four times the price of a plain instruction, and a duplication as
much as four acts.
-/

namespace Protocell

/-- The standard mnemonic of an operation. -/
def Operation.mnemonic : Operation → String
  | .nop => "NOP" | .pop => "POP" | .peek => "PEEK" | .rtn => "RTN" | .echk => "ECHK"
  | .inpb => "INPB" | .inpc => "INPC" | .push => "PUSH" | .copy => "COPY" | .llod => "LLOD"
  | .jump => "JUMP" | .call => "CALL" | .inc => "INC" | .dec => "DEC" | .neg => "NEG"
  | .not => "NOT" | .slp => "SLP" | .scan => "SCAN" | .lchk => "LCHK" | .link => "LINK"
  | .mchk => "MCHK" | .mget => "MGET" | .dup => "DUP" | .outb => "OUTB" | .outc => "OUTC"
  | .lsto => "LSTO" | .jpif => "JPIF" | .and => "AND" | .or => "OR" | .xor => "XOR"
  | .add => "ADD" | .sub => "SUB" | .mul => "MUL" | .div => "DIV" | .lsft => "LSFT"
  | .llop => "LLOP" | .rsft => "RSFT" | .rlop => "RLOP" | .equl => "EQUL" | .grt => "GRT"
  | .lst => "LST" | .egiv => "EGIV" | .jet => "JET" | .msnd => "MSND" | .rlod => "RLOD"
  | .rsto => "RSTO"

/-- The standard price of an operation. -/
def Operation.cost : Operation → UInt16
  | .scan | .lchk | .mchk | .mget => 2
  | .link | .egiv | .jet | .msnd => 4
  | .dup => 16
  | _ => 1

/-- The standard definition of an operation: exactly the arguments it reads. -/
def Operation.definition (o : Operation) : Definition :=
  ⟨o, o.mnemonic, o.arity, o.cost⟩

namespace InstructionSet

/-- The definitions of the standard set, in opcode order. -/
def standardDefinitions : List Definition := Operation.all.map Operation.definition

/-- The further spellings of the standard set. -/
def standardAliases : List (String × String) :=
  [("JIF", "JPIF"), ("SHIFTL", "LSFT"), ("LOOPL", "LLOP"), ("SHIFTR", "RSFT"), ("LOOPR", "RLOP"),
    ("GREATER", "GRT"), ("LESS", "LST")]

/-- The standard instruction set. -/
def standard : InstructionSet := (build standardDefinitions standardAliases).toOption.getD empty

theorem isOk_build_standard : (build standardDefinitions standardAliases).isOk = true := by
  decide +kernel

/-- **The standard definitions and aliases have no fault.** -/
theorem build_standard : build standardDefinitions standardAliases = .ok standard := by
  have h := isOk_build_standard
  rw [standard]
  cases hb : build standardDefinitions standardAliases with
  | error e => rw [hb] at h; cases h
  | ok s => rfl

end InstructionSet

end Protocell
