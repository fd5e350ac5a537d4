import Protocell.Proofs.Frames.Refinement

/-!
# Proofs/Runs/Step — what one step can do

A step of a running machine has three parts: it reads bytes of its bank and takes operands, it
changes the machine once, and it leaves the frames whose bank has been run off.  The change is of
one of six kinds, and which kinds there are for an operation is said once (`FrameMachine.Change`,
`perform_change`).

So a property of the state after a step follows from how it fares under fetches, pops, one change
and returns (`Processor.frameStep_induction`).  All that later modules prove of runs goes through
this one principle, on a machine that keeps its frames apart; `System.represents_run` takes it over
to bytes.
-/

namespace Protocell

namespace FrameMachine

variable {σ : Type u} {o : Operation} {m m' : FrameMachine}

/-! ## Changes -/

/-- **The ways in which an operation changes a machine**, once its arguments are at hand. -/
inductive Change (o : Operation) (m : FrameMachine) : FrameMachine → Prop
  /-- Other operands in the last frame, or a note that one was dropped. -/
  | operands (vs : List UInt8) (overflowed : Bool) : Change o m
      { m with frames := m.frames.withOperands vs, flags := { m.flags with overflowed } }
  /-- A delay. -/
  | doze (n : UInt8) (ho : o = .slp) : Change o m (m.doze n)
  /-- A byte stored. -/
  | store (bank offset v : UInt8) (ho : o = .lsto ∨ o = .rsto) :
      Change o m (m.remoteStore bank offset v)
  /-- Another offset of the active bank. -/
  | jump (offset : UInt8) (ho : o = .jump ∨ o = .jpif) : Change o m (m.jump offset)
  /-- A new frame, at the start of a bank. -/
  | call (bank : UInt8) (ho : o = .call) (hroom : m.frames.size ≤ 252) :
      Change o m ({ m with frames := .called m.frames m.pc m.pi [] }.enter bank 0)
  /-- A frame less. -/
  | leave (ho : o = .rtn) : Change o m m.ret

namespace Change

theorem nothing : Change o m m := by
  simpa using operands (o := o) (m := m) m.frames.operands m.flags.overflowed

theorem overflow : Change o m m.overflow := by
  simpa [FrameMachine.overflow] using operands (o := o) (m := m) m.frames.operands true

theorem push (v : UInt8) : Change o m (m.push v) := by
  rw [FrameMachine.push]
  split
  · exact overflow
  · exact operands (m.frames.operands ++ [v]) m.flags.overflowed

theorem drop : Change o m m.pop.2 := operands m.frames.operands.dropLast m.flags.overflowed

theorem pushSome (v : Option UInt8) : Change o m (m.pushSome v) := by
  cases v with
  | none => exact nothing
  | some v => exact push v

end Change

/-- **Performing an operation is one change of its kind**, whatever the host answers. -/
theorem perform_change (h : Host σ) (o : Operation) (arguments : List UInt8) (m : FrameMachine)
    (s : σ) : Change o m (perform h (o.action arguments) (m, s)).1 := by
  cases o
  case rtn => exact .leave rfl
  case slp => exact .doze _ rfl
  case lsto => exact .store _ _ _ (.inl rfl)
  case rsto => exact .store _ _ _ (.inr rfl)
  case jump => exact .jump _ (.inl rfl)
  case jpif =>
    change Change .jpif m (m.apply (if arguments.getD 0 0 = 0 then .nothing
      else .jump (arguments.getD 1 0)))
    split
    · exact .nothing
    · exact .jump _ (.inr rfl)
  case call =>
    change Change .call m (m.call _)
    rw [FrameMachine.call]
    split
    · exact .overflow
    · exact .call _ rfl (Nat.not_lt.mp ‹_›)
  -- All other operations change the operands and nothing else.
  all_goals first
    | exact .push _
    | exact .pushSome _
    | exact .drop
    | exact .nothing

/-! ## Reading and unwinding -/

/-- What fetches and pops keep, filling the slots keeps. -/
theorem resolve_induction {P : FrameMachine → Prop} (hfetch : ∀ m, P m → P m.fetch.2)
    (hpop : ∀ m, P m → P m.pop.2) (slots : List Bool) (hm : P m) : P (resolve slots m).2 := by
  induction slots generalizing m with
  | nil => exact hm
  | cons inline slots ih =>
    rw [resolve]
    cases inline with
    | true => exact ih (hfetch m hm)
    | false => exact ih (hpop m hm)

/-- What returns of ended machines keep, unwinding keeps. -/
theorem unwind_induction {P : FrameMachine → Prop}
    (hret : ∀ m, P m → m.flags.ended = true → m.flags.halted = false → P m.ret) (hm : P m) :
    P m.unwind := by
  rw [unwind]
  generalize m.frames.depth + 1 = n
  induction n generalizing m with
  | zero => exact hm
  | succ n ih =>
    rw [unwindUpTo]
    split
    · rename_i hguard
      rw [Bool.and_eq_true, Bool.not_eq_true'] at hguard
      exact ih (hret m hm hguard.1 hguard.2)
    · exact hm

/-- **Unwinding ends at a frame that goes on, or halts.** -/
theorem halted_unwind (hend : m.unwind.flags.ended = true) : m.unwind.flags.halted = true := by
  have hupTo (n : ℕ) (m : FrameMachine) (hn : m.frames.depth < n)
      (hend : (unwindUpTo n m).flags.ended = true) : (unwindUpTo n m).flags.halted = true := by
    induction n generalizing m with
    | zero => exact absurd hn (Nat.not_lt_zero _)
    | succ n ih =>
      rw [unwindUpTo] at hend ⊢
      split at hend
      · rename_i hguard
        rw [if_pos hguard]
        cases hframes : m.frames with
        | root vs =>
          have hhalted : m.ret.flags.halted = true := by rw [ret_root hframes]
          rw [unwindUpTo_of_halted n hhalted, hhalted]
        | called caller pc pi vs =>
          have hdepth : m.ret.frames.depth = caller.depth := by rw [ret_called hframes]
          rw [hframes, Frames.depth] at hn
          exact ih m.ret (by omega) hend
      · rename_i hguard
        rw [if_neg hguard]
        simpa [hend] using hguard
  exact hupTo _ m (Nat.lt_succ_self _) hend

end FrameMachine

namespace Processor

variable {σ : Type u} {p : Processor} {h : Host σ} {c : FrameSystem σ}

/-! ## Steps -/

/-- **A step of a running machine ends by unwinding.** -/
theorem exists_frameStep_eq_unwind (hend : c.machine.flags.ended = false)
    (hsleep : c.machine.sleep = 0) :
    ∃ m : FrameMachine, (p.frameStep h c).2.machine = m.unwind := by
  rcases hdecode : p.instructions.decode c.machine.fetch.1 with - | f
  · exact ⟨_, by rw [frameStep_of_unassigned hend hsleep hdecode]⟩
  · exact ⟨_, by rw [frameStep_of_decoded hend hsleep hdecode]⟩

/-- **The parts of a step.**  Let `Q` hold once the opcode is fetched and be kept by further fetches
and pops; let `R` follow from it, also after one change by the operation that the step executes; and
let returns of ended machines keep `R`.  Then `R` holds after the step. -/
theorem frameStep_induction {Q R : FrameMachine → Prop} (hend : c.machine.flags.ended = false)
    (hsleep : c.machine.sleep = 0) (hfetched : Q c.machine.fetch.2)
    (hfetch : ∀ m, Q m → Q m.fetch.2) (hpop : ∀ m, Q m → Q m.pop.2) (hread : ∀ m, Q m → R m)
    (hchange : ∀ o b m m', (p.frameStep h c).1 = .executed o b → Q m →
      FrameMachine.Change o m m' → R m')
    (hret : ∀ m, R m → m.flags.ended = true → m.flags.halted = false → R m.ret) :
    R (p.frameStep h c).2.machine := by
  rcases hdecode : p.instructions.decode c.machine.fetch.1 with - | f
  · rw [frameStep_of_unassigned hend hsleep hdecode]
    exact FrameMachine.unwind_induction hret (hread _ hfetched)
  · have hstep := frameStep_of_decoded (p := p) (h := h) hend hsleep hdecode
    have hresolved := FrameMachine.resolve_induction hfetch hpop f.slots hfetched
    rw [hstep]
    refine FrameMachine.unwind_induction hret ?_
    have hperformed := FrameMachine.perform_change h f.operation
    exact hchange _ _ _ _ (congrArg Prod.fst hstep) hresolved (hperformed _ _ _)

/-- **A step that stores nothing leaves the memory as it is.** -/
theorem memory_frameStep (hstore : ∀ o b, (p.frameStep h c).1 = .executed o b →
    o ≠ .lsto ∧ o ≠ .rsto) : (p.frameStep h c).2.machine.memory = c.machine.memory := by
  by_cases hend : c.machine.flags.ended = true
  · rw [frameStep_of_ended hend]
  rw [Bool.not_eq_true] at hend
  by_cases hsleep : c.machine.sleep = 0
  · refine frameStep_induction (Q := fun m => m.memory = c.machine.memory)
      (R := fun m => m.memory = c.machine.memory) hend hsleep c.machine.memory_fetch
      (fun m hm => m.memory_fetch.trans hm) (fun _ hm => hm) (fun _ hm => hm) ?_
      (fun m hm _ _ => m.memory_ret.trans hm)
    rintro o b m m' hexecuted hm (- | - | ⟨bank, offset, v, ho⟩ | - | - | -)
    case store => exact absurd ho (not_or.mpr (hstore o b hexecuted))
    case leave => exact m.memory_ret.trans hm
    all_goals exact hm
  · rw [frameStep_of_asleep hend hsleep]

/-! ## The instruction at hand -/

/-- An instruction that is about to be performed. -/
structure Pending where
  form : Form
  arguments : List UInt8
  /-- The machine that has read the instruction and taken its arguments. -/
  machine : Machine

/-- The instruction that a machine executes next, if it does with the next step. -/
def pending? (p : Processor) (m : Machine) : Option Pending :=
  if m.flags.ended || m.sleep != 0 then none
  else (p.instructions.decode m.fetch.1).map fun f =>
    ⟨f, (m.fetch.2.resolve f.slots).1, (m.fetch.2.resolve f.slots).2⟩

/-- **Just a machine that is awake and reads an opcode of an instruction has one at hand.** -/
theorem pending?_eq_some_iff {m : Machine} {q : Pending} :
    p.pending? m = some q ↔ m.flags.ended = false ∧ m.sleep = 0 ∧
      p.instructions.decode m.fetch.1 = some q.form ∧
      m.fetch.2.resolve q.form.slots = (q.arguments, q.machine) := by
  rw [pending?]
  split
  · rename_i hguard
    refine iff_of_false (fun h => nomatch h) ?_
    rintro ⟨hend, hsleep, -⟩
    simp [hend, hsleep] at hguard
  · rename_i hguard
    simp only [Bool.or_eq_true, bne_iff_ne, ne_eq, not_or, Bool.not_eq_true, not_not] at hguard
    rw [Option.map_eq_some_iff]
    constructor
    · rintro ⟨f, hdecode, rfl⟩
      exact ⟨hguard.1, hguard.2, hdecode, rfl⟩
    · rintro ⟨-, -, hdecode, hresolve⟩
      exact ⟨q.form, hdecode, by rw [hresolve]⟩

/-! ## Runs -/

theorem after_succ (p : Processor) (h : Host σ) (n : ℕ) (c : System σ) :
    p.after h (n + 1) c = p.after h n (p.step h c).2 := rfl

/-- The last step comes last. -/
theorem after_succ' (p : Processor) (h : Host σ) (n : ℕ) (c : System σ) :
    p.after h (n + 1) c = (p.step h (p.after h n c)).2 :=
  Function.iterate_succ_apply' _ n c

theorem after_add (p : Processor) (h : Host σ) (m n : ℕ) (c : System σ) :
    p.after h (m + n) c = p.after h n (p.after h m c) := by
  rw [after, Nat.add_comm, Function.iterate_add_apply]
  rfl

/-- **Past the end nothing happens any more.** -/
theorem after_of_ended (p : Processor) (h : Host σ) (n : ℕ) {c : System σ}
    (hend : c.machine.flags.ended = true) : p.after h n c = c := by
  induction n with
  | zero => rfl
  | succ n ih => rw [after_succ, step_of_ended hend, ih]

/-- **A step is idle just if the end was reached before.** -/
theorem step_fst_eq_idle_iff {c : System σ} :
    (p.step h c).1 = .idle ↔ c.machine.flags.ended = true := by
  refine ⟨fun hidle => ?_, fun hend => by rw [step_of_ended hend]⟩
  rw [← Bool.not_eq_false]
  intro hend
  by_cases hsleep : c.machine.sleep = 0
  · rcases hdecode : p.instructions.decode c.machine.fetch.1 with - | f
    · rw [step_of_unassigned hend hsleep hdecode] at hidle
      cases hidle
    · rw [step_of_decoded hend hsleep hdecode] at hidle
      cases hidle
  · rw [step_of_asleep hend hsleep] at hidle
    cases hidle

/-- What each of the next `n` steps does. -/
def results (p : Processor) (h : Host σ) : ℕ → System σ → List Step
  | 0, _ => []
  | n + 1, c => (p.step h c).1 :: p.results h n (p.step h c).2

/-- What each of the next `n` steps of a machine that keeps its frames apart does. -/
def frameResults (p : Processor) (h : Host σ) : ℕ → FrameSystem σ → List Step
  | 0, _ => []
  | n + 1, c => (p.frameStep h c).1 :: p.frameResults h n (p.frameStep h c).2

theorem getElem?_results (p : Processor) (h : Host σ) {k n : ℕ} (hk : k < n) (c : System σ) :
    (p.results h n c)[k]? = some (p.step h (p.after h k c)).1 := by
  induction n generalizing k c with
  | zero => exact absurd hk (Nat.not_lt_zero k)
  | succ n ih =>
    cases k with
    | zero => rfl
    | succ k =>
      rw [results, List.getElem?_cons_succ, after_succ]
      exact ih (Nat.lt_of_succ_lt_succ hk) _

theorem length_results (p : Processor) (h : Host σ) (n : ℕ) (c : System σ) :
    (p.results h n c).length = n := by
  induction n generalizing c with
  | zero => rfl
  | succ n ih => rw [results, List.length_cons, ih]

/-- Runs whose steps do the same one by one have the same results. -/
theorem results_congr {c c' : System σ} {n : ℕ}
    (heq : ∀ k < n, (p.step h (p.after h k c)).1 = (p.step h (p.after h k c')).1) :
    p.results h n c = p.results h n c' := by
  induction n generalizing c c' with
  | zero => rfl
  | succ n ih =>
    exact congrArg₂ List.cons (heq 0 (Nat.succ_pos n))
      (ih fun k hk => heq (k + 1) (Nat.succ_lt_succ hk))

/-- **A run that has become idle executes nothing further.** -/
theorem executed_mem_results {n : ℕ} {c : System σ} (hidle : .idle ∈ p.results h n c) {k : ℕ}
    {o : Operation} {b : UInt8} (hexecuted : (p.step h (p.after h k c)).1 = .executed o b) :
    .executed o b ∈ p.results h n c := by
  obtain ⟨j, hj⟩ := List.mem_iff_getElem?.mp hidle
  have hjn : j < n := by
    rw [← p.length_results h n c]
    exact (List.getElem?_eq_some_iff.mp hj).1
  have hend : (p.after h j c).machine.flags.ended = true := by
    rw [p.getElem?_results h hjn, Option.some.injEq] at hj
    exact step_fst_eq_idle_iff.mp hj
  have hkj : k < j := by
    refine Nat.lt_of_not_le fun hle => ?_
    obtain ⟨i, rfl⟩ := Nat.exists_eq_add_of_le hle
    rw [after_add, after_of_ended _ _ _ hend, step_of_ended hend] at hexecuted
    cases hexecuted
  refine List.mem_of_getElem? (i := k) ?_
  rw [p.getElem?_results h (Nat.lt_trans hkj hjn), hexecuted]

end Processor

theorem System.represents_load (program : Program) (s : σ) :
    System.Represents ⟨.load program, s⟩ ⟨.load program, s⟩ :=
  ⟨Machine.represents_load program, rfl⟩

/-- **A run of bytes and a run of frames from the same program stay in the same state.** -/
theorem System.represents_run (p : Processor) (h : Host σ) (program : Program) (s : σ) (n : ℕ) :
    (p.after h n ⟨.load program, s⟩).Represents (p.frameAfter h n ⟨.load program, s⟩) :=
  (represents_load program s).after p h n

/-- **Such runs do the same**, so that what a run does can be found without its bytes. -/
theorem System.Represents.results_eq {x : System σ} {y : FrameSystem σ} (hrun : x.Represents y)
    (p : Processor) (h : Host σ) (n : ℕ) : p.results h n x = p.frameResults h n y := by
  induction n generalizing x y with
  | zero => rfl
  | succ n ih =>
    obtain ⟨hstep, hrest⟩ := hrun.step p h
    exact congrArg₂ List.cons hstep (ih hrest)

/-- **A run that stores nothing keeps the memory of its program.** -/
theorem Processor.memory_of_run (p : Processor) (h : Host σ) (program : Program) (s : σ) {k n : ℕ}
    (hk : k ≤ n)
    (hstore : ∀ o b, .executed o b ∈ p.results h n ⟨.load program, s⟩ → o ≠ .lsto ∧ o ≠ .rsto) :
    (p.frameAfter h k ⟨.load program, s⟩).machine.memory = .ofProgram program := by
  induction k with
  | zero => rfl
  | succ k ih =>
    rw [frameAfter_succ', memory_frameStep, ih (Nat.le_of_succ_le hk)]
    intro o b hexecuted
    refine hstore o b (List.mem_of_getElem? (i := k) ?_)
    rw [p.getElem?_results h hk, ((System.represents_run p h program s k).step p h).1, hexecuted]

end Protocell
