import Protocell.Command.Assemble
import Protocell.Command.Inspect
import Protocell.Command.Run

/-!
# Command/Options — which command the words of a command line ask for

    run [--max-steps N] [--emit DIR] [--config FILE] [--input TEXT] [--dump] SOURCE
    asm --input FILE --output DIR [--stem NAME]
    disasm DIR --stem NAME banks
    disasm DIR --stem NAME listing [--bank N] [--show-bytes] [--out FILE]
    disasm DIR --stem NAME analyze [--entry N] [--max-instr N] [--format text|json] [--listing]
      [--out FILE]

Options come in any order, and the value of one is the next word or stands behind an equals sign.
-/

namespace Protocell.Command

/-- A command with its options. -/
inductive Invocation
  | run (o : RunOptions)
  | assemble (o : AssembleOptions)
  | inspect (folder stem : String) (q : Query)

/-- Words sorted into options with values, options without, and the rest. -/
structure Words where
  valued : List (String × String) := []
  flags : List String := []
  plain : List String := []

namespace Words

/-- The value of an option. -/
def value? (w : Words) (name : String) : Option String := w.valued.lookup name

/-- The number that is the value of an option, or a default. -/
def number? (w : Words) (name : String) (fallback bound : Nat) : Option Nat :=
  match w.value? name with
  | none => some fallback
  | some s => (s.toNat?).filter fun n => n < bound

/-- Whether an option without a value is there. -/
def has (w : Words) (name : String) : Bool := w.flags.contains name

/-- Sorts words, where `valued` names the options with a value and `flags` those without. -/
def sort? (valued flags : List String) : List String → Option Words
  | [] => some {}
  | word :: rest =>
    match Text.pieces '=' word.toList with
    | name :: p :: ps =>
      if valued.contains (String.ofList name) then do
        let w ← sort? valued flags rest
        let value := String.ofList (Text.joinWith ['='] (p :: ps))
        return { w with valued := (String.ofList name, value) :: w.valued }
      else if word.startsWith "-" then none
      else do
        let w ← sort? valued flags rest
        return { w with plain := word :: w.plain }
    | _ =>
      if valued.contains word then
        match rest with
        | [] => none
        | value :: rest => do
          let w ← sort? valued flags rest
          return { w with valued := (word, value) :: w.valued }
      else if flags.contains word then do
        let w ← sort? valued flags rest
        return { w with flags := word :: w.flags }
      else if word.startsWith "-" then none
      else do
        let w ← sort? valued flags rest
        return { w with plain := word :: w.plain }

end Words

/-- A number of steps or instructions fits in eight bytes. -/
def countBound : Nat := 1 <<< 64

/-- Reads the words behind `run`. -/
def runInvocation? (words : List String) : Option Invocation := do
  let w ← Words.sort? ["--max-steps", "--emit", "--config", "--input"] ["--dump"] words
  let [source] := w.plain | none
  return .run {
    source
    maxSteps := ← w.number? "--max-steps" 1000000 countBound
    emit := w.value? "--emit"
    config := w.value? "--config"
    input := w.value? "--input"
    dump := w.has "--dump" }

/-- Reads the words behind `asm`. -/
def assembleInvocation? (words : List String) : Option Invocation := do
  let w ← Words.sort? ["--input", "-i", "--output", "-o", "--stem"] [] words
  let [] := w.plain | none
  return .assemble {
    input := ← (w.value? "--input").or (w.value? "-i")
    output := ← (w.value? "--output").or (w.value? "-o")
    stem := w.value? "--stem" }

/-- Reads what to tell about a program. -/
def query? (w : Words) : String → Option Query
  | "banks" => some .banks
  | "listing" => do
    let bank ← match w.value? "--bank" with
      | none => some none
      | some _ => (w.number? "--bank" 0 256).map fun n => some (UInt8.ofNat n)
    return .listing bank (w.has "--show-bytes") (w.value? "--out")
  | "analyze" => do
    let entry ← w.number? "--entry" 0 256
    let budget ← w.number? "--max-instr" 100000 countBound
    let json ← match w.value? "--format" with
      | none | some "text" => some false
      | some "json" => some true
      | _ => none
    return .analyze (UInt8.ofNat entry) budget json (w.has "--listing") (w.value? "--out")
  | _ => none

/-- Reads the words behind `disasm`. -/
def inspectInvocation? (words : List String) : Option Invocation := do
  let w ← Words.sort? ["--stem", "--bank", "--out", "--entry", "--max-instr", "--format"]
    ["--show-bytes", "--listing"] words
  let [folder, command] := w.plain | none
  return .inspect folder (← w.value? "--stem") (← query? w command)

/-- **Reads a command line.** -/
def invocation? : List String → Option Invocation
  | "run" :: words => runInvocation? words
  | "asm" :: words => assembleInvocation? words
  | "disasm" :: words => inspectInvocation? words
  | _ => none

/-- The files that a command reads. -/
def Invocation.inputs : Invocation → List String
  | .run o => o.source :: o.config.toList
  | .assemble o => [o.input]
  | .inspect folder stem _ => allBytes.map fun i => Files.join folder (Program.fileName stem i)

/-- The folder that a command fills, and the file that it writes. -/
def Invocation.outputs : Invocation → Option String × Option String
  | .run o => (o.emit, none)
  | .assemble o => (some o.output, none)
  | .inspect _ _ .banks => (none, none)
  | .inspect _ _ (.listing _ _ out) => (none, out)
  | .inspect _ _ (.analyze _ _ _ _ out) => (none, out)

/-- Carries out a command. -/
def Invocation.perform (f : Files) : Invocation → Outcome
  | .run o => Command.run o f
  | .assemble o => assembleFiles o f
  | .inspect folder stem q => Command.inspect folder stem q f

/-- What to print for a command line that asks for nothing known. -/
def usage : String :=
  "usage: run [--max-steps N] [--emit DIR] [--config FILE] [--input TEXT] [--dump] SOURCE\n" ++
  "       asm --input FILE --output DIR [--stem NAME]\n" ++
  "       disasm DIR --stem NAME banks\n" ++
  "       disasm DIR --stem NAME listing [--bank N] [--show-bytes] [--out FILE]\n" ++
  "       disasm DIR --stem NAME analyze [--entry N] [--max-instr N] [--format text|json]\n" ++
  "         [--listing] [--out FILE]\n"

end Protocell.Command
