import Protocell.Proofs.Flow.Closure
import Protocell.Proofs.Frames.Machine

/-!
# Proofs/Flow/Tracking — a machine stays where an analysis expects it

A location is *covered* by an analysis if it is visited or lies behind the bytes that its bank
stores (`Analysis.Covers`).  A machine is *tracked* if its memory is that of the program, it stands
at a covered location unless it is at its end, and each of its open calls goes on at one, unless the
call had run off its bank (`Tracked`).

A step of a tracked machine leaves it tracked, provided that it stores nothing and that the location
is not an open one (`Tracked.step`).  The literals that the machine fetches are those that the
analysis reads (`Behind`, `resolve_behind`), so it goes on at one of the successors; and where it
leaves a frame, it goes on where the call says.
-/

namespace Protocell

/-- Each open call goes on at a location with a property, unless it had run off its bank. -/
def Frames.GoesOn (P : Flow.Location → Prop) : Frames → Prop
  | root _ => True
  | called caller pc pi _ => (pc = 0 ∨ P ⟨pi, pc⟩) ∧ caller.GoesOn P

theorem Frames.goesOn_withOperands {P : Flow.Location → Prop} {fs : Frames} (vs : List UInt8)
    (h : fs.GoesOn P) : (fs.withOperands vs).GoesOn P := by
  cases fs with
  | root ws => exact h
  | called caller pc pi ws => exact h

/-- Whether an effect leaves the machine where it is in its code. -/
def Effect.stays : Effect → Bool
  | .nothing | .push _ | .drop | .copy _ | .doze _ | .loadLocal _ | .loadRemote _ _ => true
  | _ => false

/-- **All operations but six go on to the next instruction** and leave the memory alone. -/
theorem Operation.action_stays {o : Operation} (arguments : List UInt8) (hjump : o ≠ .jump)
    (hjpif : o ≠ .jpif) (hcall : o ≠ .call) (hrtn : o ≠ .rtn) (hlsto : o ≠ .lsto)
    (hrsto : o ≠ .rsto) :
    (∃ e, o.action arguments = .update e ∧ e.stays = true) ∨
      ∃ r, o.action arguments = .request r := by
  cases o <;> first
    | contradiction
    | exact .inl ⟨_, rfl, rfl⟩
    | exact .inr ⟨_, rfl⟩

namespace Flow

/-- **A location is accounted for**: its bank is in the program and noted, and the location is
visited or behind the bytes that the bank stores. -/
def Analysis.Covers (a : Analysis) (p : Program) (l : Location) : Prop :=
  a.banks.get l.bank = true ∧
    ∃ bytes, p.get? l.bank = some bytes ∧ (a.visited.get l = true ∨ bytes.length ≤ l.offset.toNat)

/-- The memory of a machine is that of a program, and its open calls go on at covered locations. -/
structure Anchored (a : Analysis) (p : Program) (m : FrameMachine) : Prop where
  memory_eq : m.memory = .ofProgram p
  returns : m.frames.GoesOn (a.Covers p)

/-- **A machine is where an analysis expects it**, and so are its open calls. -/
structure Tracked (a : Analysis) (p : Program) (m : FrameMachine) : Prop
    extends Anchored a p m where
  here : m.flags.ended = false → a.Covers p ⟨m.pi, m.pc⟩

/-- **A machine has fetched the `n` bytes from a location on**, or all to the end of the bank. -/
structure Behind (l : Location) (n : ℕ) (m : FrameMachine) : Prop where
  pi_eq : m.pi = l.bank
  inside : l.offset.toNat + n < 256 →
    m.flags.ended = false ∧ m.pc.toNat = l.offset.toNat + n
  outside : 256 ≤ l.offset.toNat + n → m.flags.ended = true ∧ m.pc = 0

variable {a : Analysis} {s : InstructionSet} {p : Program} {entry : UInt8} {m : FrameMachine}
  {l : Location} {n : ℕ}

/-! ## Covered locations -/

/-- The banks that a stored location leads to are in the program. -/
theorem has_of_mem_successors {k : Location} (hl : p.has l.bank = true)
    (hk : k ∈ successors s p l) : p.has k.bank = true := by
  rcases bank_of_mem_successors hk with heq | ⟨hpresent, -⟩
  · exact heq ▸ hl
  · exact hpresent

theorem Analysis.Closed.covers (ha : a.Closed s p entry) (hl : a.visited.get l = true)
    (hpresent : p.has l.bank = true) : a.Covers p l := by
  obtain ⟨bytes, hbytes⟩ := Option.isSome_iff_exists.mp hpresent
  exact ⟨ha.banked l hl, bytes, hbytes, .inl hl⟩

/-- **A visited location leads to covered ones.** -/
theorem Analysis.Closed.covers_successor (ha : a.Closed s p entry) (hl : a.visited.get l = true)
    (hpresent : p.has l.bank = true) {k : Location} (hk : k ∈ successors s p l) : a.Covers p k :=
  ha.covers (ha.closed l hl k hk) (has_of_mem_successors hpresent hk)

/-! ## Reading code -/

theorem Behind.zero (hend : m.flags.ended = false) : Behind ⟨m.pi, m.pc⟩ 0 m :=
  ⟨rfl, fun _ => ⟨hend, rfl⟩, fun h => absurd m.pc.toNat_lt (Nat.not_lt.mpr h)⟩

/-- **What the machine fetches is what the analysis reads**: zero behind the bytes stored and behind
the end of the bank. -/
theorem Behind.fetch_fst (h : Behind l n m) (hmemory : m.memory = .ofProgram p) :
    m.fetch.1 = operandAt p l n := by
  rw [FrameMachine.fetch, operandAt, Location.advance]
  rcases Nat.lt_or_ge (l.offset.toNat + n) 256 with hlt | hge
  · obtain ⟨hend, hpc⟩ := h.inside hlt
    have hoffset : UInt8.ofNat (l.offset.toNat + n) = m.pc := by rw [← hpc, UInt8.ofNat_toNat]
    rw [if_neg (Bool.eq_false_iff.mp hend), if_pos hlt, hmemory, Memory.read_ofProgram, h.pi_eq,
      hoffset]
    rfl
  · rw [if_pos (h.outside hge).1, if_neg (Nat.not_lt.mpr hge)]
    rfl

theorem Behind.fetch_snd (h : Behind l n m) : Behind l (n + 1) m.fetch.2 := by
  rw [FrameMachine.fetch]
  rcases Nat.lt_or_ge (l.offset.toNat + n) 256 with hlt | hge
  · obtain ⟨hend, hpc⟩ := h.inside hlt
    rw [if_neg (Bool.eq_false_iff.mp hend)]
    refine ⟨h.pi_eq, ?_, ?_⟩
    · intro hnext
      constructor
      · rw [beq_eq_false_iff_ne, ne_eq, ← UInt8.toNat_inj, hpc]
        exact Nat.ne_of_lt (Nat.lt_of_succ_lt_succ hnext)
      · rw [UInt8.toNat_add, hpc]
        exact Nat.mod_eq_of_lt hnext
    · intro hnext
      have hlast : m.pc = 255 := by
        rw [← UInt8.toNat_inj, hpc]
        exact Nat.le_antisymm (Nat.le_of_lt_succ hlt) (Nat.le_of_succ_le_succ hnext)
      rw [hlast]
      exact ⟨rfl, rfl⟩
  · rw [if_pos (h.outside hge).1]
    exact ⟨h.pi_eq, fun hnext => absurd hnext (by omega), fun _ => h.outside hge⟩

theorem Behind.pop (h : Behind l n m) : Behind l n m.pop.2 := ⟨h.pi_eq, h.inside, h.outside⟩

theorem Anchored.fetch (h : Anchored a p m) : Anchored a p m.fetch.2 := by
  rw [FrameMachine.fetch]
  split
  · exact h
  · exact ⟨h.memory_eq, h.returns⟩

theorem Anchored.pop (h : Anchored a p m) : Anchored a p m.pop.2 :=
  ⟨h.memory_eq, Frames.goesOn_withOperands _ h.returns⟩

/-- **Filling the slots fetches the literals that the analysis reads.** -/
theorem resolve_behind (slots : List Bool) (hm : Anchored a p m) (hb : Behind l n m) :
    Anchored a p (FrameMachine.resolve slots m).2 ∧
      Behind l (n + slots.count true) (FrameMachine.resolve slots m).2 ∧
      ∀ (i : ℕ) (v : UInt8), ((slotValues p l n slots)[i]?).join = some v →
        (FrameMachine.resolve slots m).1[i]? = some v := by
  induction slots generalizing m n with
  | nil => exact ⟨hm, hb, fun i v h => by simp [slotValues] at h⟩
  | cons inline slots ih =>
    rw [FrameMachine.resolve]
    cases inline with
    | true =>
      obtain ⟨hanchored, hbehind, hvalues⟩ := ih hm.fetch hb.fetch_snd
      refine ⟨hanchored, ?_, ?_⟩
      · rw [List.count_cons_self, Nat.add_comm (List.count true slots), ← Nat.add_assoc]
        exact hbehind
      · intro i v h
        cases i with
        | zero =>
          rw [← Option.some.inj h, ← hb.fetch_fst hm.memory_eq]
          rfl
        | succ i => exact hvalues i v h
    | false =>
      obtain ⟨hanchored, hbehind, hvalues⟩ := ih hm.pop hb.pop
      refine ⟨hanchored, ?_, ?_⟩
      · rw [List.count_cons_of_ne Bool.false_ne_true]
        exact hbehind
      · intro i v h
        cases i with
        | zero => cases h
        | succ i => exact hvalues i v h

/-- Behind a location the machine stands at the next one, if there is one. -/
theorem Behind.covers (h : Behind l n m) (hnext : ∀ k, l.advance n = some k → a.Covers p k) :
    (m.flags.ended = false → a.Covers p ⟨m.pi, m.pc⟩) ∧ (m.pc = 0 ∨ a.Covers p ⟨m.pi, m.pc⟩) := by
  rcases Nat.lt_or_ge (l.offset.toNat + n) 256 with hlt | hge
  · have hpc := (h.inside hlt).2
    have hcovers : a.Covers p ⟨m.pi, m.pc⟩ := by
      refine hnext _ ?_
      rw [Location.advance, if_pos hlt, ← hpc, UInt8.ofNat_toNat, h.pi_eq]
    exact ⟨fun _ => hcovers, .inr hcovers⟩
  · obtain ⟨hend, hpc⟩ := h.outside hge
    exact ⟨fun hrunning => absurd (hend.symm.trans hrunning) Bool.noConfusion, .inl hpc⟩

/-! ## Effects -/

theorem Tracked.overflow (h : Tracked a p m) : Tracked a p m.overflow :=
  ⟨⟨h.memory_eq, h.returns⟩, h.here⟩

theorem Tracked.push (h : Tracked a p m) (v : UInt8) : Tracked a p (m.push v) := by
  rw [FrameMachine.push]
  split
  · exact h.overflow
  · exact ⟨⟨h.memory_eq, Frames.goesOn_withOperands _ h.returns⟩, h.here⟩

theorem Tracked.pushSome (h : Tracked a p m) (v : Option UInt8) : Tracked a p (m.pushSome v) := by
  cases v with
  | none => exact h
  | some v => exact h.push v

/-- **An effect that stays keeps the machine tracked.** -/
theorem Tracked.apply_stays (h : Tracked a p m) {e : Effect} (he : e.stays = true) :
    Tracked a p (m.apply e) := by
  cases e with
  | nothing => exact h
  | push v => exact h.push v
  | drop => exact ⟨h.toAnchored.pop, h.here⟩
  | copy depth => exact h.push _
  | doze v => exact ⟨⟨h.memory_eq, h.returns⟩, h.here⟩
  | loadLocal offset => exact h.push _
  | loadRemote bank offset => exact h.push _
  | leave => cases he
  | jump offset => cases he
  | call bank => cases he
  | storeLocal offset v => cases he
  | storeRemote bank offset v => cases he

theorem Anchored.jump (h : Anchored a p m) {offset : UInt8} (hcovers : a.Covers p ⟨m.pi, offset⟩) :
    Tracked a p (m.jump offset) := ⟨⟨h.memory_eq, h.returns⟩, fun _ => hcovers⟩

/-- **A call is tracked if the bank is covered from its start and the call can go on behind it.** -/
theorem Tracked.call (h : Tracked a p m) {bank : UInt8}
    (hreturn : m.pc = 0 ∨ a.Covers p ⟨m.pi, m.pc⟩)
    (hbank : p.has bank = true → a.Covers p ⟨bank, 0⟩) : Tracked a p (m.call bank) := by
  rw [FrameMachine.call]
  split
  · exact h.overflow
  · refine ⟨⟨h.memory_eq, hreturn, h.returns⟩, ?_⟩
    intro hrunning
    change (!m.memory.resident bank) = false at hrunning
    rw [h.memory_eq, Memory.resident_ofProgram, Bool.not_eq_false'] at hrunning
    exact hbank hrunning

/-- **A return goes where its call says.** -/
theorem Anchored.ret (h : Anchored a p m) : Tracked a p m.ret := by
  have hreturns := h.returns
  cases hframes : m.frames with
  | root vs =>
    rw [FrameMachine.ret_root hframes]
    exact ⟨⟨h.memory_eq, h.returns⟩, fun hrunning => nomatch hrunning⟩
  | called caller pc pi vs =>
    rw [hframes] at hreturns
    obtain ⟨hreturn, hcaller⟩ := hreturns
    rw [FrameMachine.ret_called hframes]
    refine ⟨⟨h.memory_eq, hcaller⟩, ?_⟩
    intro hrunning
    rcases hreturn with hzero | hcovers
    · rw [hzero] at hrunning
      cases hrunning
    · exact hcovers

theorem Tracked.unwind (h : Tracked a p m) : Tracked a p m.unwind := by
  have hupTo (k : ℕ) (m : FrameMachine) (h : Tracked a p m) :
      Tracked a p (FrameMachine.unwindUpTo k m) := by
    induction k generalizing m with
    | zero => exact h
    | succ k ih =>
      rw [FrameMachine.unwindUpTo]
      split
      · exact ih _ h.toAnchored.ret
      · exact h
  exact hupTo _ m h

/-! ## Instructions -/

theorem getD_of_slot {arguments : List UInt8} {i : ℕ} {v : UInt8} (h : arguments[i]? = some v) :
    arguments.getD i 0 = v := by
  rw [List.getD_eq_getElem?_getD, h, Option.getD_some]

/-- **Executing an instruction leads to its successors**, if it is not open and stores nothing. -/
theorem Anchored.execute {f : Form} (o : Host σ) (st : σ) (hm : Anchored a p m) (hb : Behind l 1 m)
    (hsuccessors : ∀ k ∈ successorsOf p l f, a.Covers p k) (hclosed : isOpenAt p l f = false)
    (hlsto : f.operation ≠ .lsto) (hrsto : f.operation ≠ .rsto) :
    Tracked a p (FrameMachine.perform o (f.operation.action (FrameMachine.resolve f.slots m).1)
      ((FrameMachine.resolve f.slots m).2, st)).1 := by
  obtain ⟨hresolved, hbehind, hvalues⟩ := resolve_behind f.slots hm hb
  have hpi := hbehind.pi_eq
  have hslot {i : ℕ} {v : UInt8} (h : slotAt p l f i = some v) :
      (FrameMachine.resolve f.slots m).1.getD i 0 = v := getD_of_slot (hvalues i v h)
  -- Where the next instruction is a successor, the machine is tracked behind this one.
  have hnext (h : ∀ k ∈ (l.advance f.width).toList, a.Covers p k) :
      Tracked a p (FrameMachine.resolve f.slots m).2 ∧
        ((FrameMachine.resolve f.slots m).2.pc = 0 ∨ a.Covers p
          ⟨(FrameMachine.resolve f.slots m).2.pi, (FrameMachine.resolve f.slots m).2.pc⟩) := by
    obtain ⟨hhere, hreturn⟩ := hbehind.covers fun k hk => h k (Option.mem_toList.mpr hk)
    exact ⟨⟨hresolved, hhere⟩, hreturn⟩
  rw [isOpenAt] at hclosed
  generalize (FrameMachine.resolve f.slots m).1 = arguments at hslot ⊢
  generalize (FrameMachine.resolve f.slots m).2 = r at hresolved hpi hnext ⊢
  -- A jump to what stands in a slot is one to a successor.
  have hbranch {i : ℕ} (hsome : (slotAt p l f i).isNone = false)
      (h : ∀ k ∈ ((slotAt p l f i).map fun o => (⟨l.bank, o⟩ : Location)).toList, a.Covers p k) :
      Tracked a p (r.jump (arguments.getD i 0)) := by
    obtain ⟨v, hv⟩ := Option.isSome_iff_exists.mp (Option.isNone_eq_false_iff.mp hsome)
    rw [hslot hv]
    refine hresolved.jump (hpi ▸ h _ ?_)
    rw [hv]
    exact List.mem_singleton_self _
  by_cases hjump : f.operation = .jump
  · rw [successorsOf, hjump] at hsuccessors
    rw [hjump] at hclosed ⊢
    exact hbranch hclosed hsuccessors
  by_cases hjpif : f.operation = .jpif
  · rw [successorsOf, hjpif] at hsuccessors
    rw [hjpif] at hclosed ⊢
    obtain ⟨htarget, hbehind'⟩ := List.forall_mem_append.mp hsuccessors
    change Tracked a p (r.apply (if arguments.getD 0 0 = 0 then .nothing
      else .jump (arguments.getD 1 0)))
    split
    · exact (hnext hbehind').1
    · exact hbranch hclosed htarget
  by_cases hcall : f.operation = .call
  · rw [successorsOf, hcall] at hsuccessors
    rw [hcall] at hclosed ⊢
    obtain ⟨hbank, hbehind'⟩ := List.forall_mem_append.mp hsuccessors
    obtain ⟨v, hv⟩ := Option.isSome_iff_exists.mp (Option.isNone_eq_false_iff.mp hclosed)
    obtain ⟨htracked, hreturn⟩ := hnext hbehind'
    change Tracked a p (r.call (arguments.getD 0 0))
    rw [hslot hv]
    refine htracked.call hreturn fun hpresent => hbank _ ?_
    rw [hv, Option.filter_some, if_pos hpresent]
    exact List.mem_singleton_self _
  by_cases hrtn : f.operation = .rtn
  · rw [hrtn]
    exact hresolved.ret
  · rw [successorsOf_of_stays p l hjump hjpif hcall hrtn] at hsuccessors
    have htracked := (hnext hsuccessors).1
    rcases Operation.action_stays arguments hjump hjpif hcall hrtn hlsto hrsto with
      ⟨e, he, hstay⟩ | ⟨q, hq⟩
    · rw [he]
      exact htracked.apply_stays hstay
    · rw [hq]
      exact htracked.pushSome _

end Flow

end Protocell
