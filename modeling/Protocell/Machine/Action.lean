import Protocell.Host.Basic
import Protocell.Machine.Basic
import Protocell.Operation.Arithmetic

/-!
# Machine/Action — what operations do

With its arguments at hand an operation either has one effect on the machine or makes one request of
the host; there is no third kind (`Action`).  Argument `i` is the content of slot `i`, so for
arguments off the stack argument 0 is what was on top.  Arguments that are not given count as zero.
-/

namespace Protocell

/-- One change of a machine that needs nobody else. -/
inductive Effect
  | nothing
  /-- Pushes a byte. -/
  | push (v : UInt8)
  /-- Drops the top operand. -/
  | drop
  /-- Pushes the operand that lies so deep. -/
  | copy (depth : UInt8)
  /-- Leaves the frame. -/
  | leave
  /-- Goes on at an offset of the active bank. -/
  | jump (offset : UInt8)
  /-- Opens a frame and enters a bank. -/
  | call (bank : UInt8)
  /-- Idles for so many steps. -/
  | doze (n : UInt8)
  /-- Pushes a byte of the active bank. -/
  | loadLocal (offset : UInt8)
  /-- Pushes a byte of any bank. -/
  | loadRemote (bank offset : UInt8)
  /-- Stores at an offset of the active bank. -/
  | storeLocal (offset v : UInt8)
  /-- Stores at an offset of any bank. -/
  | storeRemote (bank offset v : UInt8)
deriving DecidableEq, Repr

/-- The machine after an effect. -/
def Machine.apply (m : Machine) : Effect → Machine
  | .nothing => m
  | .push v => m.push v
  | .drop => m.pop.2
  | .copy depth => m.push (m.peek depth)
  | .leave => m.ret
  | .jump offset => m.jump offset
  | .call bank => m.call bank
  | .doze n => m.doze n
  | .loadLocal offset => m.push (m.localLoad offset)
  | .loadRemote bank offset => m.push (m.remoteLoad bank offset)
  | .storeLocal offset v => m.localStore offset v
  | .storeRemote bank offset v => m.remoteStore bank offset v

/-- The effect of an operation on given arguments. -/
inductive Action
  /-- A change of the machine. -/
  | update (e : Effect)
  /-- One request; what its reply leaves is pushed. -/
  | request (r : Request)
deriving DecidableEq, Repr

/-- **What each operation does.** -/
def Operation.action (o : Operation) (arguments : List UInt8) : Action :=
  let x := arguments.getD 0 0
  let y := arguments.getD 1 0
  let z := arguments.getD 2 0
  match o.result? x y with
  | some v => .update (.push v)
  | none =>
    match o with
    | .pop => .update .drop
    | .peek => .update (.copy 0)
    | .copy => .update (.copy x)
    | .rtn => .update .leave
    | .jump => .update (.jump x)
    | .jpif => .update (if x = 0 then .nothing else .jump y)
    | .call => .update (.call x)
    | .slp => .update (.doze x)
    | .llod => .update (.loadLocal x)
    | .lsto => .update (.storeLocal x y)
    | .rlod => .update (.loadRemote x y)
    | .rsto => .update (.storeRemote x y z)
    | .echk => .request .energy
    | .inpb => .request (.input .byte)
    | .inpc => .request (.input .char)
    | .outb => .request (.output x .byte)
    | .outc => .request (.output x .char)
    | .scan => .request (.scan x)
    | .lchk => .request (.linkCheck x)
    | .mchk => .request (.messageCheck x)
    | .mget => .request (.messageGet x)
    | .link => .request (.link x)
    | .msnd => .request (.messageSend x y)
    | .egiv => .request (.giveEnergy x y)
    | .jet => .request (.jet x y)
    | .dup => .request (.duplicate x)
    | _ => .update .nothing

/-- Pushes a byte if there is one. -/
def Machine.pushSome (m : Machine) : Option UInt8 → Machine
  | some v => m.push v
  | none => m

/-- Carries out an action against a host. -/
def Action.perform (h : Host σ) : Action → Machine × σ → Machine × σ
  | .update e, (m, s) => (m.apply e, s)
  | .request r, (m, s) =>
    let (reply, s) := h.ask r s
    (m.pushSome (Request.Reply.operand? r reply), s)

end Protocell
