import Mathlib.Data.List.Induction
import Protocell.Assembly.Draft
import Protocell.InstructionSet.Standard
import Protocell.Proofs.Runs.Status
import Protocell.Proofs.Success

/-!
# Proofs/Runs/Stores — memory is what was stored last

A store instruction writes one byte, and nothing else that a processor does touches its memory
(`memory_step`).  So the memory after a run is the one before it with all stores of the run carried
out in order (`memory_after`), and reading it is finding the last store to the place that is read
(`read_storeAll`).

Which banks are there follows from the same equation.  A store at the active bank makes no bank
present, but only because a processor between steps is in a bank that is there (`Machine.Settled`).
-/

namespace Protocell

variable {σ : Type u}

/-- A byte that an instruction stores. -/
structure Store where
  bank : UInt8
  offset : UInt8
  value : UInt8
  /-- Whether the bank is an argument; otherwise it is the active one. -/
  remote : Bool
deriving DecidableEq, Repr

/-- What an operation stores on given arguments when some bank is active. -/
def Operation.store? (o : Operation) (active : UInt8) (arguments : List UInt8) : Option Store :=
  let x := arguments.getD 0 0
  let y := arguments.getD 1 0
  let z := arguments.getD 2 0
  match o with
  | .lsto => some ⟨active, x, y, false⟩
  | .rsto => some ⟨x, y, z, true⟩
  | _ => none

/-- The bank and the offset of the byte that an operation loads. -/
def Operation.load? (o : Operation) (active : UInt8) (arguments : List UInt8) :
    Option (UInt8 × UInt8) :=
  match o with
  | .llod => some (active, arguments.getD 0 0)
  | .rlod => some (arguments.getD 0 0, arguments.getD 1 0)
  | _ => none

/-- Whether a dealing is neither the load of a program, nor a step, nor a store. -/
def Access.keepsMemory : Access → Bool
  | .load _ | .step | .localStore _ _ | .remoteStore _ _ _ => false
  | _ => true

/-- The value of the last store to a place. -/
def lastStored? (ws : List Store) (bank offset : UInt8) : Option UInt8 :=
  (ws.reverse.find? fun w => w.bank = bank ∧ w.offset = offset).map Store.value

theorem lastStored?_concat (ws : List Store) (w : Store) (bank offset : UInt8) :
    lastStored? (ws ++ [w]) bank offset =
      if w.bank = bank ∧ w.offset = offset then some w.value else lastStored? ws bank offset := by
  rw [lastStored?, List.reverse_concat, List.find?_cons]
  by_cases hw : w.bank = bank ∧ w.offset = offset
  · simp only [hw, and_self, decide_true, if_true, Option.map_some]
  · simp only [hw, decide_false, if_false, lastStored?]

namespace Memory

/-- The memory after some stores, carried out in order. -/
def storeAll (m : Memory) (ws : List Store) : Memory :=
  ws.foldl (fun m w => m.write w.bank w.offset w.value) m

theorem storeAll_concat (m : Memory) (ws : List Store) (w : Store) :
    m.storeAll (ws ++ [w]) = (m.storeAll ws).write w.bank w.offset w.value := List.foldl_concat ..

theorem storeAll_append (m : Memory) (ws ws' : List Store) :
    m.storeAll (ws ++ ws') = (m.storeAll ws).storeAll ws' := List.foldl_append

/-- **Reading after stores is finding the last store to the place.** -/
theorem read_storeAll (m : Memory) (ws : List Store) (bank offset : UInt8) :
    (m.storeAll ws).read bank offset = (lastStored? ws bank offset).getD (m.read bank offset) := by
  induction ws using List.reverseRecOn with
  | nil => rfl
  | append_singleton ws w ih =>
    rw [storeAll_concat, read_write, lastStored?_concat, ih]
    split <;> rfl

end Memory

/-! ## What touches the memory -/

namespace Machine

theorem memory_push (m : Machine) (v : UInt8) : (m.push v).memory = m.memory := by
  rw [push]
  split <;> rfl

theorem memory_pop (m : Machine) : m.pop.2.memory = m.memory := by
  rw [pop]
  split <;> rfl

theorem pi_pop (m : Machine) : m.pop.2.pi = m.pi := by
  rw [pop]
  split <;> rfl

theorem memory_pushSome (m : Machine) (v : Option UInt8) : (m.pushSome v).memory = m.memory := by
  cases v with
  | none => rfl
  | some v => exact m.memory_push v

theorem memory_call (m : Machine) (bank : UInt8) : (m.call bank).memory = m.memory := by
  rw [call]
  split
  · rfl
  · rw [enter, memory_push, memory_push, memory_push]

theorem memory_ret (m : Machine) : m.ret.memory = m.memory := by
  rw [ret]
  split
  · rfl
  · simp only [popHeader, enter, apply_ite Machine.memory, ite_self]

theorem memory_fetch (m : Machine) : m.fetch.2.memory = m.memory := by
  rw [fetch]
  split <;> rfl

theorem pi_fetch (m : Machine) : m.fetch.2.pi = m.pi := by
  rw [fetch]
  split <;> rfl

theorem memory_unwind (m : Machine) : m.unwind.memory = m.memory := by
  rw [unwind]
  generalize m.sm.toNat + 1 = n
  induction n generalizing m with
  | zero => rfl
  | succ n ih =>
    rw [unwindUpTo]
    split
    · rw [ih, memory_ret]
    · rfl

/-- Reading an instruction stays in the bank and does not touch the memory. -/
theorem resolve_frame (slots : List Bool) (m : Machine) :
    (m.resolve slots).2.pi = m.pi ∧ (m.resolve slots).2.memory = m.memory := by
  induction slots generalizing m with
  | nil => exact ⟨rfl, rfl⟩
  | cons inline slots ih =>
    rw [resolve]
    cases inline with
    | true => exact ⟨(ih _).1.trans m.pi_fetch, (ih _).2.trans m.memory_fetch⟩
    | false => exact ⟨(ih _).1.trans m.pi_pop, (ih _).2.trans m.memory_pop⟩

end Machine

/-- **An operation writes what it stores, and nothing else.** -/
theorem Operation.memory_perform (h : Host σ) (o : Operation) (arguments : List UInt8) (m : Machine)
    (s : σ) : ((o.action arguments).perform h (m, s)).1.memory =
      m.memory.storeAll (o.store? m.pi arguments).toList := by
  cases o
  case rtn => exact m.memory_ret
  case call => exact m.memory_call _
  case jpif =>
    change (m.apply (if arguments.getD 0 0 = 0 then .nothing
      else .jump (arguments.getD 1 0))).memory = m.memory
    split <;> rfl
  -- All other operations push, pop, store, or leave the machine's stack and memory alone.
  all_goals first
    | rfl
    | exact m.memory_push _
    | exact m.memory_pop
    | exact m.memory_pushSome _

/-! ## Steps -/

namespace Processor

variable {p : Processor} {h : Host σ} {c : System σ}

/-- **A step with an instruction at hand charges for it, performs it and unwinds.** -/
theorem step_of_pending {q : Pending} (hq : p.pending? c.machine = some q) :
    p.step h c =
      let r := (q.form.operation.action q.arguments).perform h
        (q.machine, p.charge h q.form.instruction.cost c.host)
      (.executed q.form.operation c.machine.fetch.1, ⟨r.1.unwind, r.2⟩) := by
  obtain ⟨hend, hsleep, hdecode, hresolve⟩ := pending?_eq_some_iff.mp hq
  rw [step_of_decoded hend hsleep hdecode, execute_eq, hresolve]

/-- An instruction is read in its own bank, without touching the memory. -/
theorem frame_of_pending {m : Machine} {q : Pending} (hq : p.pending? m = some q) :
    q.machine.pi = m.pi ∧ q.machine.memory = m.memory := by
  obtain ⟨-, -, -, hresolve⟩ := pending?_eq_some_iff.mp hq
  have hframe := m.fetch.2.resolve_frame q.form.slots
  rw [hresolve, m.pi_fetch, m.memory_fetch] at hframe
  exact hframe

/-- **A step without an instruction at hand executes nothing**, and leaves the memory and the host
alone. -/
theorem step_of_not_pending (hnone : p.pending? c.machine = none) :
    (∀ o b, (p.step h c).1 ≠ .executed o b) ∧
      (p.step h c).2.machine.memory = c.machine.memory ∧ (p.step h c).2.host = c.host := by
  by_cases hend : c.machine.flags.ended = true
  · rw [step_of_ended hend]
    exact ⟨fun _ _ => Step.noConfusion, rfl, rfl⟩
  rw [Bool.not_eq_true] at hend
  by_cases hsleep : c.machine.sleep = 0
  · have hdecode : p.instructions.decode c.machine.fetch.1 = none := by
      simpa [pending?, hend, hsleep] using hnone
    rw [step_of_unassigned hend hsleep hdecode]
    exact ⟨fun _ _ => Step.noConfusion, (Machine.memory_unwind _).trans c.machine.memory_fetch, rfl⟩
  · rw [step_of_asleep hend hsleep]
    exact ⟨fun _ _ => Step.noConfusion, rfl, rfl⟩

/-- **What a step executes was at hand.** -/
theorem exists_pending {o : Operation} {b : UInt8} (hexecuted : (p.step h c).1 = .executed o b) :
    ∃ q, p.pending? c.machine = some q ∧ q.form.operation = o ∧
      p.instructions.decode b = some q.form := by
  cases hq : p.pending? c.machine with
  | none => exact absurd hexecuted ((step_of_not_pending hq).1 o b)
  | some q =>
    rw [step_of_pending hq] at hexecuted
    obtain ⟨ho, rfl⟩ := Step.executed.inj hexecuted
    exact ⟨q, rfl, ho, (pending?_eq_some_iff.mp hq).2.2.1⟩

/-- What a machine stores with the next step. -/
def store? (p : Processor) (m : Machine) : Option Store :=
  (p.pending? m).bind fun q => q.form.operation.store? m.pi q.arguments

/-- **A step writes what it stores, and nothing else.** -/
theorem memory_step (p : Processor) (h : Host σ) (c : System σ) :
    (p.step h c).2.machine.memory = c.machine.memory.storeAll (p.store? c.machine).toList := by
  cases hq : p.pending? c.machine with
  | none =>
    rw [(step_of_not_pending hq).2.1, store?, hq]
    rfl
  | some q =>
    obtain ⟨hpi, hmemory⟩ := frame_of_pending hq
    rw [step_of_pending hq, Machine.memory_unwind, Operation.memory_perform, hpi, hmemory, store?,
      hq]
    rfl

/-- A step stores something just if it executes a store instruction. -/
theorem store?_isSome_iff (h : Host σ) :
    (p.store? c.machine).isSome = true ↔
      ∃ b, (p.step h c).1 = .executed .lsto b ∨ (p.step h c).1 = .executed .rsto b := by
  rw [store?]
  cases hq : p.pending? c.machine with
  | none =>
    refine iff_of_false Bool.noConfusion ?_
    rintro ⟨b, hb | hb⟩
    · exact (step_of_not_pending hq).1 _ _ hb
    · exact (step_of_not_pending hq).1 _ _ hb
  | some q =>
    rw [step_of_pending hq, Option.bind_some]
    cases q.form.operation <;> simp [Operation.store?]

/-- A step that does not name its bank stores in the active one. -/
theorem bank_eq_of_store? {w : Store} (hw : p.store? c.machine = some w)
    (hlocal : w.remote = false) : w.bank = c.machine.pi ∧ c.machine.flags.ended = false := by
  obtain ⟨q, hq, hstore⟩ := Option.bind_eq_some_iff.mp hw
  refine ⟨?_, (pending?_eq_some_iff.mp hq).1⟩
  unfold Operation.store? at hstore
  split at hstore
  · obtain rfl := Option.some.inj hstore
    rfl
  · obtain rfl := Option.some.inj hstore
    cases hlocal
  · cases hstore

/-! ## Runs -/

/-- **What the next `n` steps store**, first to last. -/
def stores (p : Processor) (h : Host σ) (n : ℕ) (c : System σ) : List Store :=
  (List.range n).filterMap fun k => p.store? (p.after h k c).machine

theorem stores_succ (p : Processor) (h : Host σ) (n : ℕ) (c : System σ) :
    p.stores h (n + 1) c = p.stores h n c ++ (p.store? (p.after h n c).machine).toList := by
  rw [stores, List.range_succ, List.filterMap_append]
  rfl

/-- **A run leaves the memory before it with all its stores carried out.** -/
theorem memory_after (p : Processor) (h : Host σ) (n : ℕ) (c : System σ) :
    (p.after h n c).machine.memory = c.machine.memory.storeAll (p.stores h n c) := by
  induction n with
  | zero => rfl
  | succ n ih => rw [after_succ', memory_step, ih, stores_succ, Memory.storeAll_append]

/-- **A run makes just those banks present that its stores name.** -/
theorem resident_after (p : Processor) (h : Host σ) (program : Program) (s : σ) (n : ℕ)
    (bank : UInt8) :
    (p.after h n ⟨.load program, s⟩).machine.memory.resident bank = true ↔
      program.has bank = true ∨
        ∃ w ∈ p.stores h n ⟨.load program, s⟩, w.remote = true ∧ w.bank = bank := by
  induction n with
  | zero =>
    change (Memory.ofProgram program).resident bank = true ↔ _
    rw [Memory.resident_ofProgram]
    exact (or_iff_left fun ⟨_, hw, _⟩ => nomatch hw).symm
  | succ n ih =>
    rw [after_succ', memory_step, stores_succ]
    have hsettled :=
      (System.represents_run p h program s n).machine.settled
        ((FrameMachine.settled_load program).after p h n)
    generalize p.after h n ⟨.load program, s⟩ = c at hsettled ih ⊢
    cases hw : p.store? c.machine with
    | none =>
      rw [Option.toList_none, List.append_nil]
      exact ih
    | some w =>
      change (c.machine.memory.write w.bank w.offset w.value).resident bank = true ↔ _
      rw [Memory.resident_write, Bool.or_eq_true, beq_iff_eq, Option.toList_some]
      simp only [List.mem_append, List.mem_singleton, or_and_right, exists_or, exists_eq_left]
      rw [← or_assoc, ← ih, or_comm]
      -- A store at the active bank is the one that names no bank.
      refine or_congr_right' fun hnot => ⟨fun hbank => ⟨?_, hbank⟩, And.right⟩
      rw [← Bool.not_eq_false]
      intro hlocal
      obtain ⟨hpi, hend⟩ := bank_eq_of_store? hw hlocal
      rw [← hbank, hpi] at hnot
      exact hnot (hsettled.here hend)

/-! ## Loads and direct dealings -/

/-- **A load pushes the byte at its place**, and then the step unwinds. -/
theorem step_of_load {q : Pending} {bank offset : UInt8} (hq : p.pending? c.machine = some q)
    (hload : q.form.operation.load? c.machine.pi q.arguments = some (bank, offset)) :
    (p.step h c).2.machine = (q.machine.push (c.machine.memory.read bank offset)).unwind := by
  obtain ⟨hpi, hmemory⟩ := frame_of_pending hq
  rw [step_of_pending hq, ← hmemory]
  rw [← hpi] at hload
  unfold Operation.load? at hload
  split at hload
  case h_3 => cases hload
  all_goals
    rename_i hoperation
    obtain ⟨rfl, rfl⟩ := Prod.mk.inj (Option.some.inj hload)
    rw [hoperation]
    rfl

/-- Of the direct dealings only stores and the load of a program touch the memory. -/
theorem memory_access (p : Processor) (h : Host σ) (c : System σ) (a : Access)
    (ha : a.keepsMemory = true) : (p.access h c a).2.machine.memory = c.machine.memory := by
  cases a with
  | push v => exact c.machine.memory_push v
  | pop => exact c.machine.memory_pop
  | call bank => exact c.machine.memory_call bank
  | ret => exact c.machine.memory_ret
  | load _ | step | localStore _ _ | remoteStore _ _ _ => cases ha
  | peek _ | jump _ | doze _ | localLoad _ | remoteLoad _ _ => rfl

end Processor

/-- **The memory over a run is what was stored last.**  After any number of steps from a load, the
byte at each place is the value of the last store to it, or else the byte that was loaded there, or
else zero.  The banks that are there are those of the program and those that stores have named.
Nothing but a store instruction changes a byte or makes a bank present: no other step, and no
dealing that is not a store.  And each load pushes the byte so described, if the stack has room. -/
theorem last_stores_of_run (p : Processor) (h : Host σ) (program : Program) (s : σ) (n : ℕ) :
    let c := p.after h n ⟨.load program, s⟩
    let stores := p.stores h n ⟨.load program, s⟩
    let byte (bank offset : UInt8) : UInt8 :=
      (lastStored? stores bank offset).getD ((program.byteAt? bank offset).getD 0)
    (∀ bank offset, c.machine.memory.read bank offset = byte bank offset) ∧
      (∀ bank, c.machine.memory.resident bank = true ↔
        program.has bank = true ∨ ∃ w ∈ stores, w.remote = true ∧ w.bank = bank) ∧
      ((∀ b, (p.step h c).1 ≠ .executed .lsto b ∧ (p.step h c).1 ≠ .executed .rsto b) →
        (p.step h c).2.machine.memory = c.machine.memory) ∧
      (∀ a : Access, a.keepsMemory = true → (p.access h c a).2.machine.memory = c.machine.memory) ∧
      ∀ q bank offset, p.pending? c.machine = some q →
        q.form.operation.load? c.machine.pi q.arguments = some (bank, offset) →
        (p.step h c).2.machine = (q.machine.push (byte bank offset)).unwind ∧
          (q.machine.live.length < 255 →
            (q.machine.push (byte bank offset)).live = q.machine.live ++ [byte bank offset]) := by
  intro c stores byte
  have hread (bank offset : UInt8) : c.machine.memory.read bank offset = byte bank offset := by
    change (p.after h n _).machine.memory.read bank offset = _
    rw [p.memory_after, Memory.read_storeAll]
    exact congrArg _ (Memory.read_ofProgram program bank offset)
  refine ⟨hread, p.resident_after h program s n, ?_, p.memory_access h c, ?_⟩
  · intro hother
    have hnone : p.store? c.machine = none := by
      rw [← Option.not_isSome_iff_eq_none, Processor.store?_isSome_iff h]
      rintro ⟨b, hb | hb⟩
      · exact (hother b).1 hb
      · exact (hother b).2 hb
    rw [p.memory_step, hnone]
    rfl
  · intro q bank offset hq hload
    rw [Processor.step_of_load hq hload, hread]
    exact ⟨rfl, Machine.live_push _⟩

/-- A store makes bank 1 present, and the load after it pushes what was stored there. -/
theorem load_after_store :
    ∃ program q, assemble .standard ".prg 0\nRSTO 1 5 9\nRLOD 1 5\n" = .ok program ∧
      ((⟨.standard, true⟩ : Processor).after .bare 1 ⟨.load program, 0⟩).machine.memory.resident 1
        = true ∧
      (⟨.standard, true⟩ : Processor).pending?
        ((⟨.standard, true⟩ : Processor).after .bare 1 ⟨.load program, 0⟩).machine = some q ∧
      q.form.operation = .rlod ∧
      ((⟨.standard, true⟩ : Processor).after .bare 2 ⟨.load program, 0⟩).machine
        = (q.machine.push 9).unwind ∧
      (q.machine.push 9).live = [9] := by
  let p : Processor := ⟨.standard, true⟩
  let run (program : Program) (n : ℕ) : Machine := (p.after .bare n ⟨.load program, 0⟩).machine
  have hrun : (assemble .standard ".prg 0\nRSTO 1 5 9\nRLOD 1 5\n").toOption.bind (fun program =>
      (p.pending? (run program 1)).map fun q =>
        ((q.form.operation, q.arguments, q.machine.live),
          p.stores .bare 1 ⟨.load program, 0⟩))
      = some ((.rlod, [1, 5], []), [⟨1, 5, 9, true⟩]) := by decide +kernel
  obtain ⟨program, hprogram, hrun⟩ := Option.bind_eq_some_iff.mp hrun
  obtain ⟨q, hq, hrun⟩ := Option.map_eq_some_iff.mp hrun
  simp only [Prod.mk.injEq] at hrun
  obtain ⟨⟨hoperation, harguments, hlive⟩, hstores⟩ := hrun
  obtain ⟨-, hresident, -, -, hload⟩ := last_stores_of_run p .bare program 0 1
  have hplace : q.form.operation.load? (run program 1).pi q.arguments = some (1, 5) := by
    rw [hoperation, harguments]
    rfl
  obtain ⟨hstep, hpush⟩ := hload q 1 5 hq hplace
  rw [hstores] at hstep hpush
  refine ⟨program, q, toOption_eq_some_iff.mp hprogram, ?_, hq, hoperation, ?_, ?_⟩
  · exact (hresident 1).mpr (.inr ⟨_, hstores ▸ List.mem_singleton_self _, rfl, rfl⟩)
  · rw [p.after_succ']
    exact hstep
  · rw [hlive] at hpush
    exact hpush (by decide)

end Protocell
