import Protocell.Assembly.Draft
import Protocell.InstructionSet.Standard
import Protocell.Proofs.Runs.Status
import Protocell.Proofs.Success

/-!
# Proofs/Runs/Calls — a call hands everything back

A call is made at a *site*: the frames of the caller, and the place where the call goes on.  As long
as the site is open, that is some frame was called there, the bytes of the caller and the call's
header lie untouched at the bottom of the stack (`CallSite.take_bytes`).

A step from an open site leaves it open, or ends right back at it, or — if the site's bank had been
run off when the call was made — ends below it, since the caller is left as well
(`CallSite.open_or_left_frameStep`).  This is a matter of returns alone, as they are the only way to
close a frame.  `call_hands_back` says it of bytes and registers, for every run of the callee.
-/

namespace Protocell

/-- **Where a call was made**: the frames of its caller, and where the call goes on. -/
structure CallSite where
  caller : Frames
  pc : UInt8
  pi : UInt8

/-- The site of a call that a machine makes as it stands. -/
def FrameMachine.site (m : FrameMachine) : CallSite := ⟨m.frames, m.pc, m.pi⟩

namespace CallSite

variable {k : CallSite} {fs : Frames}

/-- Some frame was called at the site. -/
def IsOpenIn (k : CallSite) : Frames → Prop
  | .root _ => False
  | .called caller pc pi _ => (⟨caller, pc, pi⟩ : CallSite) = k ∨ k.IsOpenIn caller

/-- The number of bytes below the operands of the frame that was called at the site. -/
def mark (k : CallSite) : ℕ := k.caller.size + 3

@[simp] theorem isOpenIn_withOperands (vs : List UInt8) :
    k.IsOpenIn (fs.withOperands vs) ↔ k.IsOpenIn fs := by cases fs <;> rfl

theorem mark_le_start (h : k.IsOpenIn fs) : k.mark ≤ fs.start := by
  induction fs with
  | root vs => exact h.elim
  | called caller pc pi vs ih =>
    rcases h with rfl | hbelow
    · exact Nat.le_refl _
    · have hle := ih hbelow
      have hsize := caller.start_le_size
      exact Nat.le_trans hle (Nat.le_trans hsize (Nat.le_add_right _ 3))

/-- **Below the mark of an open site lie the bytes of the caller and the call's header.** -/
theorem take_bytes (h : k.IsOpenIn fs) :
    fs.bytes.take k.mark = k.caller.bytes ++ [k.pc, k.pi, UInt8.ofNat k.caller.start] := by
  induction fs with
  | root vs => exact h.elim
  | called caller pc pi vs ih =>
    rw [Frames.bytes_called]
    rcases h with rfl | hbelow
    · refine List.take_left' ?_
      rw [List.length_append, Frames.length_bytes]
      rfl
    · have hle := Nat.le_trans (mark_le_start hbelow) caller.start_le_size
      rw [List.append_assoc, List.take_append_of_le_length (by rwa [Frames.length_bytes]),
        ih hbelow]

/-- An open site's bank is one of those that open calls go on in. -/
theorem pi_mem_returnBanks (h : k.IsOpenIn fs) : k.pi ∈ fs.returnBanks := by
  induction fs with
  | root vs => exact h.elim
  | called caller pc pi vs ih =>
    rcases h with rfl | hbelow
    · exact List.mem_cons_self
    · exact List.mem_cons_of_mem _ (ih hbelow)

/-! ## Leaving a site -/

variable {m m' : FrameMachine} {o : Operation}

/-- **The caller goes on right behind the call**, or is at its end if the call was the last thing in
its bank. -/
structure Resumed (k : CallSite) (m : FrameMachine) : Prop where
  frames_eq : m.frames = k.caller
  pi_eq : m.pi = k.pi
  pc_eq : m.pc = k.pc
  ended_eq : m.flags.ended = (k.pc == 0)
  running : m.flags.halted = false

/-- **The caller's frame is left too**; if it was the root frame, the machine has halted. -/
def Passed (k : CallSite) (m : FrameMachine) : Prop :=
  if k.caller.start = 0 then m.flags.halted = true else m.frames.start < k.caller.start

/-- Where a step that began above the site may be while it unwinds. -/
def Tracks (k : CallSite) (m : FrameMachine) : Prop :=
  k.IsOpenIn m.frames ∨ k.Resumed m ∨ k.pc = 0 ∧ k.Passed m

/-- **Leaving a frame above the site leads to another such frame or to the site.** -/
theorem IsOpenIn.ret (h : k.IsOpenIn m.frames) (hreturns : m.CanReturn)
    (hrunning : m.flags.halted = false) : k.Tracks m.ret := by
  have hthere := hreturns _ (pi_mem_returnBanks h)
  cases hframes : m.frames with
  | root vs => exact (hframes ▸ h).elim
  | called caller pc pi vs =>
    rw [hframes] at h
    rcases h with rfl | hbelow
    · right
      left
      rw [FrameMachine.ret_called hframes]
      refine ⟨rfl, rfl, rfl, ?_, hrunning⟩
      change (pc == 0 || !m.memory.resident pi) = (pc == 0)
      rw [hthere, Bool.not_true, Bool.or_false]
    · left
      rw [FrameMachine.ret_called hframes]
      exact hbelow

/-- **Unwinding goes on below a site whose bank had been run off.** -/
theorem Tracks.ret (h : k.Tracks m) (hm : m.Grounded) (hend : m.flags.ended = true)
    (hrunning : m.flags.halted = false) : k.Tracks m.ret := by
  rcases h with hopen | hresumed | ⟨hzero, hpassed⟩
  · exact hopen.ret hm.returns hrunning
  · have hzero : k.pc = 0 := by
      rw [← beq_iff_eq, ← hresumed.ended_eq]
      exact hend
    refine .inr (.inr ⟨hzero, ?_⟩)
    have hcaller := hresumed.frames_eq
    rw [Passed]
    cases hframes : m.frames with
    | root vs =>
      rw [← hcaller, hframes, FrameMachine.ret_root hframes]
      exact rfl
    | called caller pc pi vs =>
      have hsize := caller.start_le_size
      rw [← hcaller, hframes, FrameMachine.ret_called hframes, Frames.start,
        if_neg (Nat.succ_ne_zero _)]
      change caller.start < caller.size + 3
      omega
  · refine .inr (.inr ⟨hzero, ?_⟩)
    rw [Passed] at hpassed ⊢
    split at hpassed
    · exact absurd (hrunning.symm.trans hpassed) Bool.noConfusion
    · rw [if_neg ‹_›]
      cases hframes : m.frames with
      | root vs =>
        rw [FrameMachine.ret_root hframes]
        exact hpassed
      | called caller pc pi vs =>
        have hsize := caller.start_le_size
        rw [hframes] at hpassed
        rw [FrameMachine.ret_called hframes]
        change caller.size + 3 < k.caller.start at hpassed
        change caller.start < k.caller.start
        omega

/-- **Only a return can close a site**; all other changes stay above it. -/
theorem tracks_of_change (hm : m.Housed) (hopen : k.IsOpenIn m.frames)
    (h : FrameMachine.Change o m m') : k.Tracks m' := by
  rcases h with ⟨vs, overflowed⟩ | - | - | - | - | -
  · exact .inl ((isOpenIn_withOperands vs).mpr hopen)
  · exact .inl hopen
  · exact .inl hopen
  · exact .inl hopen
  · exact .inl (.inr hopen)
  · exact hopen.ret hm.returns hm.running

/-! ## Steps and runs -/

/-- The site is left: the caller goes on, or is left as well if its bank had been run off. -/
def Left (k : CallSite) (m : FrameMachine) : Prop :=
  k.pc ≠ 0 ∧ k.Resumed m ∨ k.pc = 0 ∧ k.Passed m

/-- **A step leaves the site open or leaves it properly.** -/
theorem open_or_left_frameStep {p : Processor} {h : Host σ} {c : FrameSystem σ}
    (hc : c.machine.Settled) (hopen : k.IsOpenIn c.machine.frames) :
    k.IsOpenIn (p.frameStep h c).2.machine.frames ∨ k.Left (p.frameStep h c).2.machine := by
  by_cases hend : c.machine.flags.ended = true
  · rw [Processor.frameStep_of_ended hend]
    exact .inl hopen
  rw [Bool.not_eq_true] at hend
  by_cases hsleep : c.machine.sleep = 0
  · have hfetch (m : FrameMachine) (hm : m.Housed ∧ k.IsOpenIn m.frames) :
        m.fetch.2.Housed ∧ k.IsOpenIn m.fetch.2.frames := by
      rw [FrameMachine.frames_fetch]
      exact ⟨hm.1.fetch, hm.2⟩
    have hpop (m : FrameMachine) (hm : m.Housed ∧ k.IsOpenIn m.frames) :
        m.pop.2.Housed ∧ k.IsOpenIn m.pop.2.frames :=
      ⟨hm.1.pop, (isOpenIn_withOperands _).mpr hm.2⟩
    have htracks : (p.frameStep h c).2.machine.Grounded ∧ k.Tracks (p.frameStep h c).2.machine :=
      Processor.frameStep_induction (R := fun m => m.Grounded ∧ k.Tracks m) hend hsleep
        (hfetch _ ⟨hc.housed hend, hopen⟩) hfetch hpop
        (fun _ hm => ⟨hm.1.grounded, .inl hm.2⟩)
        (fun _ _ _ _ _ hm hchange => ⟨hchange.grounded hm.1, tracks_of_change hm.1 hm.2 hchange⟩)
        (fun _ hm hend hrunning => ⟨hm.1.ret hrunning, hm.2.ret hm.1 hend hrunning⟩)
    rcases htracks.2 with hopen' | hresumed | hpassed
    · exact .inl hopen'
    · -- At its end the machine would have been unwound further.
      refine .inr (.inl ⟨fun hzero => ?_, hresumed⟩)
      have hended := hresumed.ended_eq
      rw [hzero, beq_self_eq_true] at hended
      exact absurd (hresumed.running.symm.trans ((hc.step p h).ended hended)) Bool.noConfusion
    · exact .inr (.inr hpassed)
  · rw [Processor.frameStep_of_asleep hend hsleep]
    exact .inl hopen

/-- A machine that has left the site has its mark below that of the frame called there. -/
theorem start_lt_of_left (hm : m.Settled) (h : k.Left m) : m.frames.start < k.mark := by
  have hsize := k.caller.start_le_size
  rw [mark]
  rcases h with ⟨-, hresumed⟩ | ⟨-, hpassed⟩
  · rw [hresumed.frames_eq]
    omega
  · rw [Passed] at hpassed
    split at hpassed
    · rw [(hm.halted hpassed).2]
      omega
    · omega

/-- **For as long as no step has ended below the site's mark, the site is open**; the first one that
does has left it. -/
theorem open_or_left_frameAfter {p : Processor} {h : Host σ} {c : FrameSystem σ}
    (hc : c.machine.Settled) (hopen : k.IsOpenIn c.machine.frames) (n : ℕ)
    (habove : ∀ i < n, k.mark ≤ (p.frameAfter h i c).machine.frames.start) :
    k.IsOpenIn (p.frameAfter h n c).machine.frames ∨ k.Left (p.frameAfter h n c).machine := by
  induction n with
  | zero => exact .inl hopen
  | succ n ih =>
    rw [Processor.frameAfter_succ']
    rcases ih fun i hi => habove i (Nat.lt_succ_of_lt hi) with hopen' | hleft
    · exact open_or_left_frameStep (hc.after p h n) hopen'
    · have hlt := start_lt_of_left (hc.after p h n) hleft
      exact absurd (habove n (Nat.lt_succ_self n)) (Nat.not_le.mpr hlt)

end CallSite

/-! ## Bytes -/

namespace Machine

/-- **A callee's stack begins with what its caller left**: the caller's bytes and the header of the
call. -/
structure CalledBy (m caller : Machine) : Prop where
  mark_le : caller.sp + 3 ≤ m.sp
  live_eq : m.live.take (caller.sp + 3).toNat = caller.live ++ [caller.pc, caller.pi, caller.sm]

/-- **A machine is back where its caller was**, with the same bytes on the stack. -/
structure BackAt (m caller : Machine) : Prop where
  pi_eq : m.pi = caller.pi
  pc_eq : m.pc = caller.pc
  sp_eq : m.sp = caller.sp
  sm_eq : m.sm = caller.sm
  live_eq : m.live = caller.live

variable {m caller : Machine} {f g : FrameMachine}

theorem toNat_mark (hroom : caller.sp ≤ 252) (hcaller : caller.Represents g) :
    (caller.sp + 3).toNat = g.site.mark := by
  have hle : caller.sp.toNat ≤ 252 := UInt8.le_iff_toNat_le.mp hroom
  have hsize := hcaller.holds.sp_eq
  rw [UInt8.toNat_add, Nat.mod_eq_of_lt (by simp only [UInt8.reduceToNat]; omega), hsize]
  rfl

theorem Represents.calledBy (hm : m.Represents f) (hroom : caller.sp ≤ 252)
    (hcaller : caller.Represents g) (hopen : g.site.IsOpenIn f.frames) : m.CalledBy caller := by
  have hmark := toNat_mark hroom hcaller
  have hstart := CallSite.mark_le_start hopen
  constructor
  · rw [UInt8.le_iff_toNat_le, hmark, hm.holds.sp_eq]
    exact Nat.le_trans hstart f.frames.start_le_size
  · rw [hmark, hm.holds.live_eq, CallSite.take_bytes hopen, hcaller.holds.live_eq, hcaller.pc_eq,
      hcaller.pi_eq, ← UInt8.ofNat_toNat (x := caller.sm), hcaller.holds.mark_eq]
    rfl

theorem Represents.backAt (hm : m.Represents f) (hcaller : caller.Represents g)
    (hresumed : g.site.Resumed f) : m.BackAt caller where
  pi_eq := by rw [hm.pi_eq, hresumed.pi_eq, hcaller.pi_eq]; rfl
  pc_eq := by rw [hm.pc_eq, hresumed.pc_eq, hcaller.pc_eq]; rfl
  sp_eq := by
    rw [← UInt8.toNat_inj, hm.holds.sp_eq, hresumed.frames_eq, hcaller.holds.sp_eq]
    rfl
  sm_eq := by
    rw [← UInt8.toNat_inj, hm.holds.mark_eq, hresumed.frames_eq, hcaller.holds.mark_eq]
    rfl
  live_eq := by
    rw [hm.holds.live_eq, hresumed.frames_eq, hcaller.holds.live_eq]
    rfl

/-- What a machine that has left the site of its caller's call has done, in terms of bytes. -/
theorem Represents.of_left (hm : m.Represents f) (hcaller : caller.Represents g)
    (hleft : g.site.Left f) :
    (caller.pc ≠ 0 → m.BackAt caller) ∧
      (caller.pc = 0 → (caller.sm ≠ 0 → m.sm < caller.sm) ∧
        (caller.sm = 0 → m.flags.halted = true)) := by
  have hstart : caller.sm.toNat = g.site.caller.start := hcaller.holds.mark_eq
  have hzero : caller.sm = 0 ↔ g.site.caller.start = 0 := by
    rw [← hstart, ← UInt8.toNat_inj]
    rfl
  have hpc : caller.pc = g.site.pc := hcaller.pc_eq
  rw [hpc]
  rcases hleft with ⟨hne, hresumed⟩ | ⟨heq, hpassed⟩
  · exact ⟨fun _ => hm.backAt hcaller hresumed, fun heq => absurd heq hne⟩
  · refine ⟨fun hne => absurd heq hne, fun _ => ?_⟩
    rw [CallSite.Passed] at hpassed
    constructor
    · intro hinner
      rw [if_neg (mt hzero.mpr hinner)] at hpassed
      rw [UInt8.lt_iff_toNat_lt, hm.holds.mark_eq, hstart]
      exact hpassed
    · intro hroot
      rw [if_pos (hzero.mp hroot)] at hpassed
      rw [hm.flags_eq]
      exact hpassed

end Machine

/-- **The step that executes a call** opens an empty frame at its site and enters the bank. -/
theorem Processor.frameStep_call {p : Processor} {h : Host σ} {x : System σ} {y : FrameSystem σ}
    (hrun : x.Represents y) {q : Processor.Pending} (hpending : p.pending? x.machine = some q)
    (hcall : q.form.operation = .call)
    (hbank : q.machine.memory.resident (q.arguments.getD 0 0) = true) (hroom : q.machine.sp ≤ 252) :
    ∃ g : FrameMachine, q.machine.Represents g ∧ (p.frameStep h y).2.machine =
      { g with
        frames := .called g.frames g.pc g.pi []
        pi := q.arguments.getD 0 0
        pc := 0
        flags := { g.flags with ended := false } } := by
  obtain ⟨hend, hsleep, hdecode, hresolve⟩ := Processor.pending?_eq_some_iff.mp hpending
  have hm := hrun.machine
  obtain ⟨harguments, hresolved⟩ := hm.fetch_snd.resolve q.form.slots
  rw [hresolve] at harguments hresolved
  rw [hm.flags_eq] at hend
  rw [hm.sleep_eq] at hsleep
  rw [hm.fetch_fst] at hdecode
  refine ⟨_, hresolved, ?_⟩
  have hsize : ¬252 < (FrameMachine.resolve q.form.slots y.machine.fetch.2).2.frames.size := by
    rw [← hresolved.holds.sp_eq, Nat.not_lt]
    exact UInt8.le_iff_toNat_le.mp hroom
  rw [hresolved.memory_eq] at hbank
  rw [frameStep_of_decoded hend hsleep hdecode, frameExecute_eq, hcall, ← harguments]
  generalize (FrameMachine.resolve q.form.slots y.machine.fetch.2).2 = g at hbank hsize ⊢
  change (g.call (q.arguments.getD 0 0)).unwind = _
  rw [FrameMachine.call, if_neg hsize, FrameMachine.enter, hbank]
  exact FrameMachine.unwind_of_running rfl

/-- **A call hands everything back.**  Let a step of a run execute a call of a bank that is there,
with room for its header.  For as long as no later step ends with the mark below the callee's, the
callee's stack begins with the bytes of the caller and the header of the call.  The first step that
does puts the machine back where the caller was, with the same bytes on the stack; or, if the call
was the last thing in its bank, it leaves the caller's frame as well, which halts the machine if
that was the root frame. -/
theorem call_hands_back (p : Processor) (h : Host σ) (program : Program) (s : σ) (k : ℕ)
    {q : Processor.Pending}
    (hpending : p.pending? (p.after h k ⟨.load program, s⟩).machine = some q)
    (hcall : q.form.operation = .call)
    (hbank : q.machine.memory.resident (q.arguments.getD 0 0) = true) (hroom : q.machine.sp ≤ 252) :
    let caller := q.machine
    let mark := caller.sp + 3
    let run (n : ℕ) := (p.after h (k + 1 + n) ⟨.load program, s⟩).machine
    ((run 0).pi = q.arguments.getD 0 0 ∧ (run 0).pc = 0 ∧ (run 0).sm = mark) ∧
      ∀ n, (∀ i < n, mark ≤ (run i).sm) →
        (mark ≤ (run n).sm → (run n).CalledBy caller) ∧
        ((run n).sm < mark →
          (caller.pc ≠ 0 → (run n).BackAt caller) ∧
          (caller.pc = 0 → (caller.sm ≠ 0 → (run n).sm < caller.sm) ∧
            (caller.sm = 0 → (run n).flags.halted = true))) := by
  intro caller mark run
  have hrun (n : ℕ) : (run n).Represents (p.frameAfter h (k + 1 + n) ⟨.load program, s⟩).machine :=
    (System.represents_run p h program s (k + 1 + n)).machine
  obtain ⟨g, hcaller, hcalled⟩ := Processor.frameStep_call (p := p) (h := h)
    (System.represents_run p h program s k) hpending hcall hbank hroom
  rw [← Processor.frameAfter_succ'] at hcalled
  have hmark : mark.toNat = g.site.mark := Machine.toNat_mark hroom hcaller
  have hstart (n : ℕ) := (hrun n).holds.mark_eq
  refine ⟨⟨?_, ?_, ?_⟩, ?_⟩
  · rw [(hrun 0).pi_eq, Nat.add_zero, hcalled]
  · rw [(hrun 0).pc_eq, Nat.add_zero, hcalled]
  · rw [← UInt8.toNat_inj, hstart 0, Nat.add_zero, hcalled, hmark]
    rfl
  intro n habove
  have hopen : g.site.IsOpenIn (p.frameAfter h (k + 1) ⟨.load program, s⟩).machine.frames := by
    rw [hcalled]
    exact .inl rfl
  have hsettled : (p.frameAfter h (k + 1) ⟨.load program, s⟩).machine.Settled :=
    (FrameMachine.settled_load program).after p h (k + 1)
  have hwhere := CallSite.open_or_left_frameAfter hsettled hopen n (by
    intro i hi
    rw [← Processor.frameAfter_add, ← hstart, ← hmark]
    exact UInt8.le_iff_toNat_le.mp (habove i hi))
  have hsettled := hsettled.after p h n
  rw [← Processor.frameAfter_add] at hwhere hsettled
  constructor
  · intro hle
    rcases hwhere with hopen | hleft
    · exact (hrun n).calledBy hroom hcaller hopen
    · have hlt := CallSite.start_lt_of_left hsettled hleft
      rw [← hstart, ← hmark] at hlt
      exact absurd (UInt8.le_iff_toNat_le.mp hle) (Nat.not_le.mpr hlt)
  · intro hlt
    rcases hwhere with hopen | hleft
    · have hle := CallSite.mark_le_start hopen
      rw [← hstart, ← hmark] at hle
      exact absurd (UInt8.lt_iff_toNat_lt.mp hlt) (Nat.not_lt.mpr hle)
    · exact (hrun n).of_left hcaller hleft

/-- A callee that drops what is not its own, calls another such callee and leaves something behind:
six steps after the call its caller has back what it had. -/
theorem back_after_nested_call :
    ∃ program, assemble .standard
        ".prg 0\nPUSH 9\nCALL 1\n.prg 1\nPOP\nCALL 2\nPUSH 1\nRTN\n.prg 2\nPOP\nRTN\n"
          = .ok program ∧
      ∃ q, (⟨.standard, true⟩ : Processor).pending?
          ((⟨.standard, true⟩ : Processor).after .bare 1 ⟨.load program, 0⟩).machine = some q ∧
        q.form.operation = .call ∧ q.machine.live = [9] ∧
        ((⟨.standard, true⟩ : Processor).after .bare 8 ⟨.load program, 0⟩).machine.BackAt
          q.machine := by
  let p : Processor := ⟨.standard, true⟩
  let run (program : Program) (n : ℕ) : Machine := (p.after .bare n ⟨.load program, 0⟩).machine
  have hrun : (assemble .standard
      ".prg 0\nPUSH 9\nCALL 1\n.prg 1\nPOP\nCALL 2\nPUSH 1\nRTN\n.prg 2\nPOP\nRTN\n").toOption.bind
      (fun program => (p.pending? (run program 1)).map fun q =>
        ((q.form.operation, q.machine.memory.resident (q.arguments.getD 0 0)),
          (q.machine.sp, q.machine.pc, q.machine.live),
          (List.range 7).map fun n => (run program (1 + 1 + n)).sm))
      = some ((.call, true), (1, 4, [9]), [4, 4, 7, 7, 4, 4, 0]) := by decide +kernel
  obtain ⟨program, hassemble, hrun⟩ := Option.bind_eq_some_iff.mp hrun
  obtain ⟨q, hpending, hrun⟩ := Option.map_eq_some_iff.mp hrun
  simp only [Prod.mk.injEq] at hrun
  obtain ⟨⟨hcall, hbank⟩, ⟨hsp, hpc, hlive⟩, hmarks⟩ := hrun
  have hmark {n : ℕ} (hn : n < 7) :
      (run program (1 + 1 + n)).sm = [4, 4, 7, 7, 4, 4, 0].getD n 0 := by
    rw [← hmarks, List.getD_eq_getElem?_getD, List.getElem?_map, List.getElem?_range hn]
    rfl
  refine ⟨program, toOption_eq_some_iff.mp hassemble, q, hpending, hcall, hlive, ?_⟩
  have hroom : q.machine.sp ≤ 252 := by rw [hsp]; decide
  have hback := (call_hands_back p .bare program 0 1 hpending hcall hbank hroom).2 6 ?_
  · refine (hback.2 ?_).1 (by rw [hpc]; decide)
    rw [hsp]
    exact (hmark (n := 6) (by decide)).symm ▸ (by decide)
  · intro i hi
    rw [hsp]
    change 1 + 3 ≤ (run program (1 + 1 + i)).sm
    rw [hmark (Nat.lt_trans hi (by decide))]
    revert i
    decide

end Protocell
