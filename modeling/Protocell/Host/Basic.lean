import Protocell.Operation

/-!
# Host — what a processor asks of the world around it

A processor reaches the outside only by *requests*.  Each request has its own type of reply, and a
host is whatever answers requests while keeping a state of its own.  What the requests *do* is the
host's affair; a hectant is one of the directions around a cell.

`Host.recorded` is any host with a list of its requests added, so what a computation asked can
be read off its final state.
-/

namespace Protocell

/-- One dealing with the outside. -/
inductive Request
  /-- How much energy is left. -/
  | energy
  /-- Takes energy away. -/
  | spend (amount : UInt16)
  /-- Reads a byte. -/
  | input (format : IoFormat)
  /-- Writes a byte. -/
  | output (value : UInt8) (format : IoFormat)
  /-- Senses what is there. -/
  | scan (hectant : UInt8)
  /-- Senses whether there is a link. -/
  | linkCheck (hectant : UInt8)
  /-- Senses whether a message waits. -/
  | messageCheck (hectant : UInt8)
  /-- Takes a message. -/
  | messageGet (hectant : UInt8)
  /-- Makes a link. -/
  | link (hectant : UInt8)
  /-- Sends a message. -/
  | messageSend (hectant message : UInt8)
  /-- Hands energy on. -/
  | giveEnergy (hectant amount : UInt8)
  /-- Moves. -/
  | jet (hectant power : UInt8)
  /-- Makes a copy of the cell. -/
  | duplicate (hectant : UInt8)
deriving DecidableEq, Repr

namespace Request

/-- What a request is answered with.  A sensor may have nothing to tell. -/
abbrev Reply : Request → Type
  | energy => UInt16
  | input _ => UInt8
  | scan _ => Option UInt8
  | linkCheck _ => Option UInt8
  | messageCheck _ => Option UInt8
  | messageGet _ => Option UInt8
  | spend _ => Unit
  | output _ _ => Unit
  | link _ => Unit
  | messageSend _ _ => Unit
  | giveEnergy _ _ => Unit
  | jet _ _ => Unit
  | duplicate _ => Unit

/-- **The byte that a reply leaves on the stack**, if any: the high byte of the energy, a byte that
was read, what a sensor tells, and nothing for a deed. -/
def Reply.operand? : (r : Request) → r.Reply → Option UInt8
  | energy, e => some (e >>> 8).toUInt8
  | input _, b => some b
  | scan _, a => a
  | linkCheck _, a => a
  | messageCheck _, a => a
  | messageGet _, a => a
  | spend _, () => none
  | output _ _, () => none
  | link _, () => none
  | messageSend _ _, () => none
  | giveEnergy _ _, () => none
  | jet _ _, () => none
  | duplicate _, () => none

end Request

/-- Something that answers requests and keeps a state of type `σ`. -/
structure Host (σ : Type u) where
  ask : (r : Request) → σ → r.Reply × σ

namespace Host

/-- The host that only keeps energy: inputs are zero, sensors tell nothing and deeds do nothing. -/
def metering (energy : σ → UInt16) (spend : UInt16 → σ → σ) : Host σ where
  ask
    | .energy, s => (energy s, s)
    | .spend n, s => ((), spend n s)
    | .input _, s => (0, s)
    | .scan _, s => (none, s)
    | .linkCheck _, s => (none, s)
    | .messageCheck _, s => (none, s)
    | .messageGet _, s => (none, s)
    | .output _ _, s => ((), s)
    | .link _, s => ((), s)
    | .messageSend _ _, s => ((), s)
    | .giveEnergy _ _, s => ((), s)
    | .jet _ _, s => ((), s)
    | .duplicate _, s => ((), s)

/-- The host that holds nothing but a store of energy, which wraps around below zero. -/
def bare : Host UInt16 := metering id fun n e => e - n

/-- The host with a list of the requests made of it, first to last. -/
def recorded (h : Host σ) : Host (σ × List Request) where
  ask r s := (h.ask r s.1).map id fun s' => (s', s.2 ++ [r])

@[simp] theorem recorded_ask (h : Host σ) (r : Request) (s : σ × List Request) :
    h.recorded.ask r s = ((h.ask r s.1).1, ((h.ask r s.1).2, s.2 ++ [r])) := rfl

end Host

end Protocell
