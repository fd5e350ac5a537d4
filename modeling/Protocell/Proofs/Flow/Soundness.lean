import Protocell.Assembly.Draft
import Protocell.Proofs.Access
import Protocell.Proofs.Flow.Tracking
import Protocell.Proofs.Frames.Refinement
import Protocell.Proofs.Opcodes

/-!
# Proofs/Flow/Soundness — the analysis is sound for real runs

A processor that has loaded a program and runs it, stores nothing and executes no open jump or call,
is always at a location that the analysis covers (`covers_of_run`).

The run is followed on frames, where return addresses cannot be mistaken for operands
(`Flow/Tracking`), and carried over to bytes (`Frames/Refinement`).  What is left for this module is
the choice of the instruction: behind the bytes that a bank stores the processor reads zeros, and
these are instructions that do nothing.
-/

namespace Protocell.Flow

variable {a : Analysis} {p : Program} {entry : UInt8} {l : Location}

/-- Byte zero is an instruction of the standard set that does nothing. -/
theorem decode_standard_zero : InstructionSet.standard.decode 0
    = some ⟨⟨⟨.nop, "NOP", 0, 1⟩, 0⟩, 0⟩ := by decide +kernel

/-- A covered location is visited and has a byte stored, or lies behind the bytes stored. -/
theorem Analysis.Covers.stored_or_padding (h : a.Covers p l) :
    (∃ opcode, p.byteAt? l.bank l.offset = some opcode ∧ a.visited.get l = true) ∨
      p.byteAt? l.bank l.offset = none ∧ ∀ k, l.advance 1 = some k → a.Covers p k := by
  obtain ⟨hbank, bytes, hbytes, hvisited⟩ := h
  have hbyte : p.byteAt? l.bank l.offset = bytes[l.offset.toNat]? := by
    rw [Program.byteAt?, hbytes, Option.bind_some]
  rcases Nat.lt_or_ge l.offset.toNat bytes.length with hlt | hge
  · left
    refine ⟨bytes[l.offset.toNat], ?_, hvisited.resolve_right (Nat.not_le.mpr hlt)⟩
    rw [hbyte, List.getElem?_eq_getElem hlt]
  · right
    refine ⟨by rw [hbyte, List.getElem?_eq_none hge], ?_⟩
    intro k hk
    rw [Location.advance] at hk
    split at hk
    · rename_i hroom
      obtain rfl := Option.some.inj hk
      refine ⟨hbank, bytes, hbytes, .inr ?_⟩
      change bytes.length ≤ (UInt8.ofNat (l.offset.toNat + 1)).toNat
      rw [UInt8.toNat_ofNat', Nat.mod_eq_of_lt hroom]
      exact Nat.le_succ_of_le hge
    · cases hk

theorem operandAt_zero (p : Program) (l : Location) :
    operandAt p l 0 = (p.byteAt? l.bank l.offset).getD 0 := by
  rw [operandAt, Location.advance, Nat.add_zero, if_pos l.offset.toNat_lt, UInt8.ofNat_toNat]
  rfl

section Step

variable {q : Processor} {c : FrameSystem σ}

/-- What a tracked machine fetches is the byte of the program, or zero where there is none. -/
theorem Tracked.fetch_eq (h : Tracked a p c.machine) (hend : c.machine.flags.ended = false) :
    c.machine.fetch.1 = (p.byteAt? c.machine.pi c.machine.pc).getD 0 :=
  ((Behind.zero hend).fetch_fst h.memory_eq).trans (operandAt_zero p _)

/-- At a visited location a step goes on at a successor, unless the location is an open one. -/
theorem Tracked.step_of_stored (hset : q.instructions = .standard) (ha : a.Closed .standard p entry)
    (o : Host σ) (h : Tracked a p c.machine) (hend : c.machine.flags.ended = false)
    (hsleep : c.machine.sleep = 0) {opcode : UInt8}
    (hopcode : p.byteAt? c.machine.pi c.machine.pc = some opcode)
    (hvisited : a.visited.get ⟨c.machine.pi, c.machine.pc⟩ = true)
    (hsafe : ∀ op b, (q.frameStep o c).1 = .executed op b → op ≠ .lsto ∧ op ≠ .rsto ∧
      a.dynamic.get ⟨c.machine.pi, c.machine.pc⟩ = false) :
    Tracked a p (q.frameStep o c).2.machine := by
  have hbehind := Behind.zero hend
  have hbyte : c.machine.fetch.1 = opcode := by rw [h.fetch_eq hend, hopcode, Option.getD_some]
  have hpresent : p.has c.machine.pi = true := by
    obtain ⟨-, bytes, hbytes, -⟩ := h.here hend
    exact Option.isSome_iff_exists.mpr ⟨bytes, hbytes⟩
  have hcovers {k : Location}
      (hk : k ∈ successors .standard p ⟨c.machine.pi, c.machine.pc⟩) : a.Covers p k :=
    ha.covers_successor hvisited hpresent hk
  rcases hdecode : InstructionSet.standard.decode opcode with - | f
  · have hsucc : successors .standard p ⟨c.machine.pi, c.machine.pc⟩
        = (Location.advance ⟨c.machine.pi, c.machine.pc⟩ 1).toList := by
      rw [successors, hopcode]
      simp only [hdecode]
    rw [Processor.frameStep_of_unassigned hend hsleep (by rw [hset, hbyte, hdecode])]
    refine Tracked.unwind ⟨h.toAnchored.fetch, ?_⟩
    refine (hbehind.fetch_snd.covers fun k hk => hcovers ?_).1
    rw [hsucc]
    exact Option.mem_toList.mpr hk
  · have hsucc : successors .standard p ⟨c.machine.pi, c.machine.pc⟩
        = successorsOf p ⟨c.machine.pi, c.machine.pc⟩ f := by
      rw [successors, hopcode]
      simp only [hdecode]
    rw [Processor.frameStep_of_decoded (h := o) hend hsleep (by rw [hset, hbyte, hdecode])]
      at hsafe ⊢
    obtain ⟨hlsto, hrsto, hdynamic⟩ := hsafe _ _ rfl
    have hclosed : isOpenAt p ⟨c.machine.pi, c.machine.pc⟩ f = false := by
      rw [← Bool.not_eq_true]
      intro hopen
      have hmarked := ha.opened _ hvisited (by
        rw [isOpen, hopcode, Option.bind_some, hdecode]
        exact hopen)
      exact absurd (hdynamic.symm.trans hmarked) Bool.noConfusion
    exact (h.toAnchored.fetch.execute o _ hbehind.fetch_snd (fun k hk => hcovers (hsucc ▸ hk))
      hclosed hlsto hrsto).unwind

/-- Behind the bytes stored there are zeros, so that a step goes on right behind. -/
theorem Tracked.step_of_padding (hset : q.instructions = .standard) (o : Host σ)
    (h : Tracked a p c.machine) (hend : c.machine.flags.ended = false)
    (hsleep : c.machine.sleep = 0)
    (hnone : p.byteAt? c.machine.pi c.machine.pc = none)
    (hnext : ∀ k, Location.advance ⟨c.machine.pi, c.machine.pc⟩ 1 = some k → a.Covers p k) :
    Tracked a p (q.frameStep o c).2.machine := by
  have hdecode : q.instructions.decode c.machine.fetch.1 = some ⟨⟨⟨.nop, "NOP", 0, 1⟩, 0⟩, 0⟩ := by
    rw [hset, h.fetch_eq hend, hnone, Option.getD_none, decode_standard_zero]
  rw [Processor.frameStep_of_decoded (h := o) hend hsleep hdecode]
  refine (h.toAnchored.fetch.execute o _ (Behind.zero hend).fetch_snd (fun k hk => ?_) rfl
    Operation.noConfusion Operation.noConfusion).unwind
  exact hnext k (Option.mem_toList.mp hk)

/-- **A step of a tracked machine leaves it tracked**, if it stores nothing and is not made at an
open location. -/
theorem Tracked.step (hset : q.instructions = .standard) (ha : a.Closed .standard p entry)
    (o : Host σ) (h : Tracked a p c.machine)
    (hsafe : ∀ op b, (q.frameStep o c).1 = .executed op b → op ≠ .lsto ∧ op ≠ .rsto ∧
      a.dynamic.get ⟨c.machine.pi, c.machine.pc⟩ = false) :
    Tracked a p (q.frameStep o c).2.machine := by
  by_cases hend : c.machine.flags.ended = true
  · rw [Processor.frameStep_of_ended hend]
    exact h
  rw [Bool.not_eq_true] at hend
  by_cases hsleep : c.machine.sleep = 0
  · rcases (h.here hend).stored_or_padding with ⟨opcode, hopcode, hvisited⟩ | ⟨hnone, hnext⟩
    · exact h.step_of_stored hset ha o hend hsleep hopcode hvisited hsafe
    · exact h.step_of_padding hset o hend hsleep hnone hnext
  · rw [Processor.frameStep_of_asleep hend hsleep]
    exact ⟨⟨h.memory_eq, h.returns⟩, h.here⟩

end Step

/-- A program that was just loaded is tracked. -/
theorem tracked_load (ha : a.Closed .standard p 0) : Tracked a p (.load p) where
  memory_eq := rfl
  returns := trivial
  here := by
    intro hrunning
    have hpresent : p.has 0 = true := by
      cases hhas : p.has 0 with
      | true => rfl
      | false =>
        rw [FrameMachine.load, hhas] at hrunning
        cases hrunning
    exact ha.covers (ha.entered hpresent) hpresent

theorem Tracked.after {q : Processor} (hset : q.instructions = .standard)
    (ha : a.Closed .standard p entry) (o : Host σ) {c : FrameSystem σ} (h : Tracked a p c.machine)
    (n : ℕ) (hsafe : ∀ k < n, ∀ op b, (q.frameStep o (q.frameAfter o k c)).1 = .executed op b →
      op ≠ .lsto ∧ op ≠ .rsto ∧ a.dynamic.get
        ⟨(q.frameAfter o k c).machine.pi, (q.frameAfter o k c).machine.pc⟩ = false) :
    Tracked a p (q.frameAfter o n c).machine := by
  induction n with
  | zero => exact h
  | succ n ih =>
    rw [Processor.frameAfter_succ']
    exact (ih fun k hk => hsafe k (Nat.lt_succ_of_lt hk)).step hset ha o
      (hsafe n (Nat.lt_succ_self n))

/-- **The analysis is sound for real runs.**  Let a program be loaded and run, and let no step up to
now have stored into memory or executed a jump or call that takes its target off the stack.  Then
the processor, unless it is at its end, is at a location that the analysis covers: its bank is
noted, and the location is visited or behind the bytes that the bank stores. -/
theorem covers_of_run {program : Program} {budget : ℕ} (hbudget : storedBytes program < budget)
    (metered : Bool) (o : Host σ) (s : σ) (n : ℕ) :
    let q : Processor := ⟨.standard, metered⟩
    let found := analyze .standard program 0 budget
    let at' (k : ℕ) := (q.after o k ⟨.load program, s⟩).machine
    (∀ k < n, ∀ op b, (q.step o (q.after o k ⟨.load program, s⟩)).1 = .executed op b →
      op ≠ .lsto ∧ op ≠ .rsto ∧ found.dynamic.get ⟨(at' k).pi, (at' k).pc⟩ = false) →
    (at' n).flags.ended = false → found.Covers program ⟨(at' n).pi, (at' n).pc⟩ := by
  intro q found at' hsafe hrunning
  have hload : System.Represents ⟨.load program, s⟩ ⟨.load program, s⟩ :=
    ⟨Machine.represents_load program, rfl⟩
  have hclosed : found.Closed .standard program 0 := closed_analyze .standard program 0 hbudget
  have htracked := (tracked_load hclosed).after (q := q) rfl hclosed o
    (c := ⟨.load program, s⟩) n ?_
  · have hmachine := (hload.after q o n).machine
    rw [hmachine.flags_eq] at hrunning
    rw [hmachine.pi_eq, hmachine.pc_eq]
    exact htracked.here hrunning
  · intro k hk op b hexecuted
    have hafter := hload.after q o k
    rw [← (hafter.step q o).1] at hexecuted
    rw [← hafter.machine.pi_eq, ← hafter.machine.pc_eq]
    exact hsafe k hk op b hexecuted

/-- The analysis of a program of six bytes covers the place to which a call has returned. -/
theorem covers_place_returned_to :
    ∃ program, assemble .standard ".prg 0\nPUSH 3\nCALL 1\nINC\n.prg 1\nRTN\n" = .ok program ∧
      ((⟨.standard, true⟩ : Processor).step .bare ((⟨.standard, true⟩ : Processor).after .bare 2
        ⟨.load program, 0⟩)).1 = .executed .rtn 3 ∧
      (analyze .standard program 0 7).Covers program ⟨0, 4⟩ := by
  let q : Processor := ⟨.standard, true⟩
  let state (p : Program) (k : ℕ) : System UInt16 := q.after .bare k ⟨.load p, 0⟩
  let place (p : Program) (k : ℕ) : Location := ⟨(state p k).machine.pi, (state p k).machine.pc⟩
  let safe (p : Program) (k : ℕ) : Bool := match (q.step .bare (state p k)).1 with
    | .executed op _ =>
      op ≠ .lsto && op ≠ .rsto && !(analyze .standard p 0 7).dynamic.get (place p k)
    | _ => true
  have hrun : (assemble .standard ".prg 0\nPUSH 3\nCALL 1\nINC\n.prg 1\nRTN\n").toOption.map
      (fun p => (decide (storedBytes p < 7), (List.range 3).all (safe p),
        (q.step .bare (state p 2)).1, (state p 3).machine.flags.ended, place p 3))
      = some (true, true, .executed .rtn 3, false, ⟨0, 4⟩) := by decide +kernel
  obtain ⟨program, hassemble, hrun⟩ := Option.map_eq_some_iff.mp hrun
  simp only [Prod.mk.injEq, decide_eq_true_eq, List.all_eq_true, List.mem_range] at hrun
  obtain ⟨hbudget, hsafe, hreturns, hrunning, hplace⟩ := hrun
  refine ⟨program, toOption_eq_some_iff.mp hassemble, hreturns, ?_⟩
  rw [← hplace]
  refine covers_of_run hbudget true .bare 0 3 ?_ hrunning
  intro k hk op b hexecuted
  have hsafe := hsafe k hk
  simp only [safe] at hsafe
  rw [hexecuted] at hsafe
  simpa only [Bool.and_eq_true, decide_eq_true_eq, Bool.not_eq_true', and_assoc] using hsafe

end Protocell.Flow
