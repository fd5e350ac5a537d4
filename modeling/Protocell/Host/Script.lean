import Protocell.Host.Basic

/-!
# Host/Script — a host that answers from lists

Each sense has a list of prepared answers, and the argument of a request picks one of them, counted
around the list.  Inputs are senses whose argument is the number of entries made so far.  All
requests but energy readings are entered in a record; spending wraps around below zero.
-/

namespace Protocell

/-- The prepared answers of each sense. -/
structure Script where
  scan : List (Option UInt8) := []
  linkCheck : List (Option UInt8) := []
  messageCheck : List (Option UInt8) := []
  messageGet : List (Option UInt8) := []
  inputByte : List (Option UInt8) := []
  inputChar : List (Option UInt8) := []

namespace Script

/-- The answer that `n` picks from a list: none from an empty list. -/
def pick (answers : List (Option UInt8)) (n : Nat) : Option UInt8 :=
  (answers[n % answers.length]?).join

/-- The answers to inputs of a format. -/
def inputs (s : Script) : IoFormat → List (Option UInt8)
  | .byte => s.inputByte
  | .char => s.inputChar

/-- What a scripted host keeps: its energy and the requests made, the last one first. -/
structure Record where
  energy : UInt16 := 0
  entries : List Request := []

/-- Enters a request. -/
def Record.enter (r : Record) (q : Request) : Record := { r with entries := q :: r.entries }

/-- The host that answers from a script. -/
def host (s : Script) : Host Record where
  ask
    | .energy, r => (r.energy, r)
    | .spend n, r => ((), { r with energy := r.energy - n }.enter (.spend n))
    | .input f, r => ((pick (s.inputs f) r.entries.length).getD 0, r.enter (.input f))
    | .scan h, r => (pick s.scan h.toNat, r.enter (.scan h))
    | .linkCheck h, r => (pick s.linkCheck h.toNat, r.enter (.linkCheck h))
    | .messageCheck h, r => (pick s.messageCheck h.toNat, r.enter (.messageCheck h))
    | .messageGet h, r => (pick s.messageGet h.toNat, r.enter (.messageGet h))
    | .output v f, r => ((), r.enter (.output v f))
    | .link h, r => ((), r.enter (.link h))
    | .messageSend h m, r => ((), r.enter (.messageSend h m))
    | .giveEnergy h n, r => ((), r.enter (.giveEnergy h n))
    | .jet h p, r => ((), r.enter (.jet h p))
    | .duplicate h, r => ((), r.enter (.duplicate h))

end Script

end Protocell
