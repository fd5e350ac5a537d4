import Protocell.Host.Script
import Protocell.Proofs.Runs.Arguments
import Protocell.Proofs.Runs.Requests
import Protocell.Proofs.Runs.Stores

/-!
# Proofs/Runs/Asking — what a step asks of its host

Fourteen operations make a request of the host, one each, and the others none
(`Operation.request?`).  Seven of them get something back that is an operand
(`Operation.received?`).

An instruction is paid for before it is performed, so on a metered processor the list of a step's
requests begins with the fee and ends with the request of the operation (`requests_of_pending`).
There is nothing between the two and nothing behind: fetching, popping and leaving frames are the
machine's own affair, and so is a step that executes nothing.
-/

namespace Protocell

variable {σ : Type u} {τ : Type v}

/-- **The request that an operation makes**, with the contents of slots 0 and 1 as its arguments. -/
def Operation.request? (o : Operation) (x y : UInt8) : Option Request :=
  match o with
  | .echk => some .energy
  | .inpb => some (.input .byte)
  | .inpc => some (.input .char)
  | .outb => some (.output x .byte)
  | .outc => some (.output x .char)
  | .scan => some (.scan x)
  | .lchk => some (.linkCheck x)
  | .link => some (.link x)
  | .mchk => some (.messageCheck x)
  | .mget => some (.messageGet x)
  | .msnd => some (.messageSend x y)
  | .egiv => some (.giveEnergy x y)
  | .jet => some (.jet x y)
  | .dup => some (.duplicate x)
  | _ => none

/-- **The operand that an operation gets from a host**, if it gets one: the high byte of the energy,
a byte that was read, or what a sensor has to tell. -/
def Operation.received? (h : Host σ) (s : σ) (o : Operation) (x : UInt8) : Option UInt8 :=
  match o with
  | .echk => some ((h.ask .energy s).1 >>> 8).toUInt8
  | .inpb => some (h.ask (.input .byte) s).1
  | .inpc => some (h.ask (.input .char) s).1
  | .scan => (h.ask (.scan x) s).1
  | .lchk => (h.ask (.linkCheck x) s).1
  | .mchk => (h.ask (.messageCheck x) s).1
  | .mget => (h.ask (.messageGet x) s).1
  | _ => none

namespace Operation

variable {o : Operation} {arguments : List UInt8}

/-- **An operation without a request is a change of the machine alone.** -/
theorem exists_action_eq_update
    (hnone : o.request? (arguments.getD 0 0) (arguments.getD 1 0) = none) :
    ∃ e, o.action arguments = .update e := by
  cases o
  all_goals first
    | exact ⟨_, rfl⟩
    | cases hnone

/-- What gets something asks for it. -/
theorem exists_request_of_received {h : Host σ} {s : σ} {x v : UInt8}
    (hv : o.received? h s x = some v) (y : UInt8) : ∃ r, o.request? x y = some r := by
  cases o
  all_goals first
    | exact ⟨_, rfl⟩
    | cases hv

/-- **An operation with a request makes that one**, and pushes what it gets. -/
theorem perform_of_request {r : Request}
    (hr : o.request? (arguments.getD 0 0) (arguments.getD 1 0) = some r) (h : Host σ) (m : Machine)
    (s : σ) :
    (o.action arguments).perform h (m, s) =
      (m.pushSome (o.received? h s (arguments.getD 0 0)), (h.ask r s).2) := by
  cases o
  all_goals first
    | exact Option.some.inj hr ▸ rfl
    | cases hr

/-- **A host is left as the request leaves it.** -/
theorem host_perform (h : Host σ) (o : Operation) (arguments : List UInt8) (m : Machine) (s : σ) :
    ((o.action arguments).perform h (m, s)).2 =
      (o.request? (arguments.getD 0 0) (arguments.getD 1 0)).elim s fun r => (h.ask r s).2 := by
  cases hr : o.request? (arguments.getD 0 0) (arguments.getD 1 0) with
  | none =>
    obtain ⟨e, he⟩ := exists_action_eq_update hr
    rw [he]
    rfl
  | some r =>
    rw [perform_of_request hr]
    rfl

end Operation

namespace Processor

variable {p : Processor} {h : Host σ} {c : System σ} {q : Pending}

/-- **The requests that pay for an instruction.** -/
def fee (p : Processor) (cost : UInt16) : List Request := if p.metered then [.spend cost] else []

/-- A charge enters the fee in the record. -/
theorem charge_recorded (p : Processor) (h : Host σ) (cost : UInt16) (s : σ) (log : List Request) :
    p.charge h.recorded cost (s, log) = (p.charge h cost s, log ++ p.fee cost) := by
  rw [charge, charge, fee]
  split
  · rfl
  · rw [List.append_nil]

/-- A step with an instruction at hand leaves the host as the fee and the request leave it. -/
theorem host_of_pending (hq : p.pending? c.machine = some q) :
    let paid := p.charge h q.form.instruction.cost c.host
    (p.step h c).2.host =
      (q.form.operation.request? (q.arguments.getD 0 0) (q.arguments.getD 1 0)).elim paid
        fun r => (h.ask r paid).2 := by
  rw [step_of_pending hq]
  exact Operation.host_perform ..

/-- **A step with an instruction at hand pays for it and makes the request of its operation.** -/
theorem requests_of_pending (hq : p.pending? c.machine = some q) :
    p.requests h 1 c =
      p.fee q.form.instruction.cost ++
        (q.form.operation.request? (q.arguments.getD 0 0) (q.arguments.getD 1 0)).toList := by
  change (p.step h.recorded c.recording).2.host.2 = _
  have hstart : c.recording.host = (c.host, []) := rfl
  rw [host_of_pending (c := c.recording) hq, hstart, charge_recorded, List.nil_append]
  cases q.form.operation.request? (q.arguments.getD 0 0) (q.arguments.getD 1 0) with
  | none => exact (List.append_nil _).symm
  | some r => rfl

/-- **A step without one asks nothing.** -/
theorem requests_of_not_pending (hnone : p.pending? c.machine = none) : p.requests h 1 c = [] := by
  change (p.step h.recorded c.recording).2.host.2 = _
  rw [(step_of_not_pending (c := c.recording) hnone).2.2]
  rfl

/-- **A step whose operation makes a request pushes what it gets**, and then unwinds. -/
theorem machine_of_request (hq : p.pending? c.machine = some q) {r : Request}
    (hr : q.form.operation.request? (q.arguments.getD 0 0) (q.arguments.getD 1 0) = some r) :
    (p.step h c).2.machine =
      (q.machine.pushSome (q.form.operation.received? h
        (p.charge h q.form.instruction.cost c.host) (q.arguments.getD 0 0))).unwind := by
  rw [step_of_pending hq, Operation.perform_of_request hr]

/-- **What a machine executes has the arguments of its slots.** -/
theorem pending?_of_executed (hmark : c.machine.sm ≤ c.machine.sp) {o : Operation} {opcode : UInt8}
    (hexecuted : (p.step h c).1 = .executed o opcode) :
    ∃ f, p.instructions.decode opcode = some f ∧ f.operation = o ∧
      p.pending? c.machine = some
        ⟨f, (List.range f.instruction.arity).map (c.machine.argument f), c.machine.ready f⟩ := by
  obtain ⟨q, hq, ho, hopcode⟩ := exists_pending hexecuted
  obtain ⟨hend, hsleep, hdecode, -⟩ := pending?_eq_some_iff.mp hq
  rw [Machine.fetch_of_running hend hmark] at hdecode
  exact ⟨q.form, hopcode, ho, pending?_of_decode hend hsleep hmark hdecode⟩

end Processor

/-- **A step asks of its host exactly what its instruction says.**  Let a machine come out of any
dealings with a new one, whatever the host answered meanwhile, and let it have a host in any state.
Then a step that executes nothing asks nothing.  A step that executes an instruction first pays the
instruction's cost if the processor is metered, then makes the request of the operation with the
arguments of its slots if there is one, and asks nothing else, whatever frames it leaves.

What the operation gets from the host, if it gets anything, is pushed as one operand or dropped from
a full stack; if it gets nothing, nothing is pushed.  Here `m` is the machine that has read the
instruction and taken its arguments. -/
theorem requests_of_step (p : Processor) (h : Host σ) {c : System σ} {past : Host τ} {s : τ}
    {as : List Access} (hc : (p.accesses past as ⟨{}, s⟩).2.machine = c.machine) :
    ((∀ o opcode, (p.step h c).1 ≠ .executed o opcode) →
      p.requests h 1 c = [] ∧ (p.step h c).2.host = c.host) ∧
    ∀ o opcode, (p.step h c).1 = .executed o opcode →
      ∃ f, p.instructions.decode opcode = some f ∧ f.operation = o ∧
        let m := c.machine.ready f
        let arguments := (List.range f.instruction.arity).map (c.machine.argument f)
        let request := o.request? (arguments.getD 0 0) (arguments.getD 1 0)
        let paid := p.charge h f.instruction.cost c.host
        let received := o.received? h paid (arguments.getD 0 0)
        p.requests h 1 c = p.fee f.instruction.cost ++ request.toList ∧
          (p.step h c).2.host = (request.elim paid fun r => (h.ask r paid).2) ∧
          (request.isSome → received = none → (p.step h c).2.machine = m.unwind) ∧
          ∀ v, received = some v →
            (p.step h c).2.machine = (m.push v).unwind ∧
              (m.live.length < 255 → (m.push v).live = m.live ++ [v]) ∧
              (m.live.length = 255 → m.push v = m.overflow) := by
  refine ⟨fun hnot => ?_, fun o opcode hexecuted => ?_⟩
  · have hnone : p.pending? c.machine = none := by
      refine Option.eq_none_iff_forall_ne_some.mpr fun q hq => ?_
      exact hnot _ _ (congrArg Prod.fst (Processor.step_of_pending hq))
    exact ⟨Processor.requests_of_not_pending hnone, (Processor.step_of_not_pending hnone).2.2⟩
  · have hnew : System.Represents ⟨{}, s⟩ ⟨{}, s⟩ := ⟨Machine.represents_new, rfl⟩
    have hmark : c.machine.sm ≤ c.machine.sp := by
      rw [← hc]
      exact (hnew.accesses p past as).2.machine.holds.mark_le
    obtain ⟨f, hdecode, rfl, hq⟩ := Processor.pending?_of_executed hmark hexecuted
    refine ⟨f, hdecode, rfl, Processor.requests_of_pending hq, Processor.host_of_pending hq,
      fun hsome hnone => ?_, fun v hv => ?_⟩
    · obtain ⟨r, hr⟩ := Option.isSome_iff_exists.mp hsome
      rw [Processor.machine_of_request hq hr, hnone]
      rfl
    · obtain ⟨r, hr⟩ := Operation.exists_request_of_received hv _
      refine ⟨?_, Machine.live_push v, Machine.push_of_full v⟩
      rw [Processor.machine_of_request hq hr, hv]
      rfl

/-- A metered processor whose stack is full after 85 calls: it sleeps, senses a byte that it has to
drop, and sends a message. -/
theorem requests_on_full_stack :
    let definitions := [⟨.slp, "SLP", 1, 1⟩, ⟨.scan, "SCAN", 1, 600⟩, ⟨.msnd, "MSND", 2, 4⟩]
    let p : Processor := ⟨(InstructionSet.build definitions []).toOption.getD .empty, true⟩
    let program := (Program.ofBanks [(0, [1, 1, 3, 9, 7, 5, 77])]).toOption.getD .empty
    let h := Script.host { scan := [some 12] }
    let reached (steps : ℕ) : System Script.Record :=
      (p.accesses h (.load program :: (List.replicate 85 (.call 0) ++ List.replicate steps .step))
        ⟨{}, {}⟩).2
    ((p.step h (reached 1)).1 = .slept ∧ p.requests h 1 (reached 1) = []) ∧
      ((p.step h (reached 2)).1 = .executed .scan 3 ∧
        p.requests h 1 (reached 2) = [.spend 600, .scan 9] ∧
        ∃ m : Machine, m.live.length = 255 ∧
          (p.step h (reached 2)).2.machine = m.overflow.unwind) ∧
      (p.step h (reached 3)).1 = .executed .msnd 7 ∧
        p.requests h 1 (reached 3) = [.spend 4, .messageSend 5 77] := by
  intro definitions p program h reached
  have hslept : (p.step h (reached 1)).1 = .slept := by decide +kernel
  have hscan : (p.step h (reached 2)).1 = .executed .scan 3 := by decide +kernel
  have hsend : (p.step h (reached 3)).1 = .executed .msnd 7 := by decide +kernel
  have hreached (steps : ℕ) := requests_of_step p h (c := reached steps) rfl
  obtain ⟨hasleep, -⟩ := (hreached 1).1 fun o opcode hexecuted => by
    cases hslept.symm.trans hexecuted
  obtain ⟨f, hf, -, hscans, -, -, hpushed⟩ := (hreached 2).2 _ _ hscan
  obtain ⟨g, hg, -, hsends, -⟩ := (hreached 3).2 _ _ hsend
  have hscanForm : p.instructions.decode 3 = some ⟨⟨⟨.scan, "SCAN", 1, 600⟩, 2⟩, 1⟩ := by
    decide +kernel
  have hsendForm : p.instructions.decode 7 = some ⟨⟨⟨.msnd, "MSND", 2, 4⟩, 4⟩, 3⟩ := by
    decide +kernel
  obtain rfl := Option.some.inj (hf.symm.trans hscanForm)
  obtain rfl := Option.some.inj (hg.symm.trans hsendForm)
  obtain ⟨hmachine, -, hfull⟩ := hpushed 12 (by decide +kernel)
  have hlive : ((reached 2).machine.ready ⟨⟨⟨.scan, "SCAN", 1, 600⟩, 2⟩, 1⟩).live.length = 255 := by
    rw [Machine.length_live]
    decide +kernel
  rw [hfull hlive] at hmachine
  exact ⟨⟨hslept, hasleep⟩, ⟨hscan, hscans.trans (by decide +kernel), _, hlive, hmachine⟩, hsend,
    hsends.trans (by decide +kernel)⟩

end Protocell
