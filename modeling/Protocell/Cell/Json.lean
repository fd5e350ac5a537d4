import Protocell.Cell.Basic
import Protocell.Json.Decode

/-!
# Cell/Json — configurations as JSON

A configuration is a record with defaults, as `serde` documents them: what is missing in it takes
its default value, at both levels, and what is there replaces just that.
-/

namespace Protocell

/-- A processor's configuration as JSON. -/
def ProcessorConfig.toJson (c : ProcessorConfig) : Json := .record [("metered", .bool c.metered)]

/-- The processor configuration that a value is. -/
def ProcessorConfig.ofJson? (v : Json) : Option ProcessorConfig := do
  let [metered] ← v.fields? ["metered"] | none
  return { metered := ← Json.orElse? Json.bool? true metered }

/-- A cell's configuration as JSON. -/
def CellConfig.toJson (c : CellConfig) : Json :=
  .record
    [("starting_energy", .ofNat c.startingEnergy.toNat),
      ("steps_per_tick", .ofNat c.stepsPerTick.toNat), ("processor", c.processor.toJson)]

/-- The cell configuration that a value is. -/
def CellConfig.ofJson? (v : Json) : Option CellConfig := do
  let [energy, steps, processor] ←
    v.fields? ["starting_energy", "steps_per_tick", "processor"] | none
  return {
    startingEnergy := UInt16.ofNat (← Json.orElse? (Json.nat? (1 <<< 16)) 4096 energy)
    stepsPerTick := UInt32.ofNat (← Json.orElse? (Json.nat? (1 <<< 32)) 1 steps)
    processor := ← Json.orElse? ProcessorConfig.ofJson? {} processor }

end Protocell
