import Protocell.Proofs.Flow.Successors

/-!
# Proofs/Flow/Passages — the passages from a location

The passages from a location are read off its bytes (`passages`), each as the edge that the analysis
would draw.  One to data does not lead on, nor does a call into a bank that is absent
(`Edge.leadsOn`); the targets of the others are the successors (`successors_eq`).

From no location are there more than two passages, and no passage is there twice
(`length_passages_le`, `nodup_passages`).
-/

namespace Protocell.Flow

/-! ## Reading passages off the code -/

section Reading

variable (s : InstructionSet) (p : Program) (l : Location) (f : Form)

/-- The literal in an argument slot of an instruction.  Literals stand behind the opcode in the
order of their slots. -/
def literalAt? (i : ℕ) : Option UInt8 :=
  if f.slots[i]? = some true then some (operandAt p l (1 + (f.slots.take i).count true)) else none

/-- The passage to a target, if there is one. -/
def passageTo (kind : EdgeKind) (target : Option Location) : List Edge :=
  (target.map fun m => ⟨l, m, kind⟩).toList

/-- The passages from an instruction at a location. -/
def passagesOf : List Edge :=
  let onward := passageTo l .fallthrough (l.advance f.width)
  match f.operation with
  | .jump => passageTo l .jump ((literalAt? p l f 0).map fun o => ⟨l.bank, o⟩)
  | .jpif => passageTo l .condJump ((literalAt? p l f 1).map fun o => ⟨l.bank, o⟩) ++ onward
  | .call => passageTo l .call ((literalAt? p l f 0).map fun b => ⟨b, 0⟩) ++ onward
  | .rlod | .rsto =>
    passageTo l .dataRef ((literalAt? p l f 0).map fun b => ⟨b, (literalAt? p l f 1).getD 0⟩)
      ++ onward
  | .rtn => []
  | _ => onward

/-- **The passages from a location**: none if no byte is stored there, and the one to the next byte
if no instruction owns the byte. -/
def passages : List Edge :=
  match p.byteAt? l.bank l.offset with
  | none => []
  | some opcode =>
    match s.decode opcode with
    | some f => passagesOf p l f
    | none => passageTo l .fallthrough (l.advance 1)

/-- Whether execution goes on at the target of an edge. -/
def Edge.leadsOn (e : Edge) : Bool :=
  match e.kind with
  | .dataRef => false
  | .call => p.has e.target.bank
  | .fallthrough | .jump | .condJump => true

/-- The banks that calls among some edges go into. -/
def calledBanks (es : List Edge) : List UInt8 :=
  (es.filter fun e => e.kind = .call).map fun e => e.target.bank

/-- The instruction at a location, if a byte is stored there and an instruction owns it. -/
def formAt? : Option Form := (p.byteAt? l.bank l.offset).bind s.decode

/-- The number of bytes that the instruction at a location takes, if a byte is stored there.  A byte
that no instruction owns stands for itself. -/
def widthAt? : Option ℕ :=
  (p.byteAt? l.bank l.offset).map fun opcode => (s.decode opcode).elim 1 Form.width

/-- Whether an instruction takes its target off the stack: it is a jump or call, and the argument
that names the target is no literal. -/
def opens : Bool :=
  match f.operation with
  | .jump | .call => f.slots[0]? != some true
  | .jpif => f.slots[1]? != some true
  | _ => false

/-- Whether an instruction leaves its frame. -/
def leaves : Bool := f.operation = .rtn

/-- A slot that is a literal has its value behind those of the literals in the slots before it. -/
theorem slotValues_join (n : ℕ) (slots : List Bool) (i : ℕ) :
    ((slotValues p l n slots)[i]?).join
      = if slots[i]? = some true then some (operandAt p l (n + (slots.take i).count true))
        else none := by
  induction slots generalizing n i with
  | nil => simp [slotValues]
  | cons b slots ih =>
    cases i with
    | zero => cases b <;> simp [slotValues]
    | succ i =>
      cases b with
      | false =>
        rw [slotValues, List.getElem?_cons_succ, ih, List.getElem?_cons_succ, List.take_succ_cons,
          List.count_cons_of_ne (by decide)]
      | true =>
        rw [slotValues, List.getElem?_cons_succ, ih, List.getElem?_cons_succ, List.take_succ_cons,
          List.count_cons_self, Nat.add_assoc, Nat.add_comm 1]

theorem slotAt_eq_literalAt? (i : ℕ) : slotAt p l f i = literalAt? p l f i :=
  slotValues_join p l 1 f.slots i

theorem opens_eq_isOpenAt : opens f = isOpenAt p l f := by
  have hslot (i : ℕ) : (f.slots[i]? != some true) = (slotAt p l f i).isNone := by
    rw [slotAt_eq_literalAt?, literalAt?]
    split
    · rw [‹f.slots[i]? = _›]
      rfl
    · exact bne_iff_ne.mpr ‹_›
  rw [isOpenAt, ← hslot, ← hslot]
  rfl

theorem isOpen_eq : isOpen s p l = (formAt? s p l).any opens := by
  rw [isOpen, formAt?]
  exact congrArg (Option.any · _) (funext fun f => (opens_eq_isOpenAt p l f).symm)

variable {p l}

theorem mem_passageTo {kind : EdgeKind} {target : Option Location} {e : Edge} :
    e ∈ passageTo l kind target ↔ ∃ m, target = some m ∧ ⟨l, m, kind⟩ = e :=
  Option.mem_toList.trans Option.map_eq_some_iff

theorem nodup_passageTo (kind : EdgeKind) (target : Option Location) :
    (passageTo l kind target).Nodup := by
  cases target with
  | none => exact List.nodup_nil
  | some m => exact List.pairwise_singleton _ _

/-- Passages of different kinds are not the same. -/
theorem nodup_passageTo_append {kind kind' : EdgeKind} (hne : kind ≠ kind')
    (target target' : Option Location) :
    (passageTo l kind target ++ passageTo l kind' target').Nodup := by
  refine List.nodup_append.mpr ⟨nodup_passageTo _ _, nodup_passageTo _ _, ?_⟩
  intro e he e' he' heq
  obtain ⟨m, -, rfl⟩ := mem_passageTo.mp he
  obtain ⟨m', -, rfl⟩ := mem_passageTo.mp he'
  exact hne (congrArg Edge.kind heq)

/-- A passage that leads on wherever it leads to does lead to its target. -/
theorem map_target_passageTo (kind : EdgeKind) (hkind : ∀ m, Edge.leadsOn p ⟨l, m, kind⟩ = true)
    (target : Option Location) :
    ((passageTo l kind target).filter (Edge.leadsOn p)).map Edge.target = target.toList := by
  cases target with
  | none => rfl
  | some m =>
    have hpassage : passageTo l kind (some m) = [⟨l, m, kind⟩] := rfl
    rw [hpassage, List.filter_cons_of_pos (hkind m)]
    rfl

/-- A call leads on into a bank that is present. -/
theorem map_target_passageTo_call (bank : Option UInt8) :
    ((passageTo l .call (bank.map fun b => ⟨b, 0⟩)).filter (Edge.leadsOn p)).map Edge.target
      = ((bank.filter p.has).map fun b => ⟨b, 0⟩).toList := by
  cases bank with
  | none => rfl
  | some b =>
    have hpassage : passageTo l .call ((some b).map fun b => ⟨b, 0⟩) = [⟨l, ⟨b, 0⟩, .call⟩] := rfl
    rw [hpassage, Option.filter_some]
    cases hpresent : p.has b with
    | false =>
      rw [List.filter_cons_of_neg (by rw [Edge.leadsOn, hpresent]; exact Bool.false_ne_true)]
      rfl
    | true =>
      rw [List.filter_cons_of_pos (by rw [Edge.leadsOn, hpresent])]
      rfl

theorem map_target_passageTo_dataRef (target : Option Location) :
    ((passageTo l .dataRef target).filter (Edge.leadsOn p)).map Edge.target = [] := by
  cases target with
  | none => rfl
  | some m => rfl

end Reading

theorem mem_calledBanks_append {es es' : List Edge} {b : UInt8} :
    b ∈ calledBanks (es ++ es') ↔ b ∈ calledBanks es ∨ b ∈ calledBanks es' := by
  rw [calledBanks, List.filter_append, List.map_append, List.mem_append]
  rfl

theorem calledBanks_singleton {e : Edge} (h : e.kind = .call) :
    calledBanks [e] = [e.target.bank] := by
  simp [calledBanks, h]

theorem calledBanks_singleton_of_ne {e : Edge} (h : e.kind ≠ .call) : calledBanks [e] = [] := by
  simp [calledBanks, h]

/-- An instruction makes one passage at most besides that to the next instruction. -/
theorem exists_passagesOf_eq (p : Program) (l : Location) (f : Form) :
    ∃ kind ≠ EdgeKind.fallthrough, ∃ target next,
      passagesOf p l f = passageTo l kind target ++ passageTo l .fallthrough next := by
  rw [passagesOf]
  cases f.operation with
  | jump => exact ⟨.jump, EdgeKind.noConfusion, _, none, (List.append_nil _).symm⟩
  | jpif => exact ⟨.condJump, EdgeKind.noConfusion, _, _, rfl⟩
  | call => exact ⟨.call, EdgeKind.noConfusion, _, _, rfl⟩
  | rlod => exact ⟨.dataRef, EdgeKind.noConfusion, _, _, rfl⟩
  | rsto => exact ⟨.dataRef, EdgeKind.noConfusion, _, _, rfl⟩
  | rtn => exact ⟨.jump, EdgeKind.noConfusion, none, none, rfl⟩
  | _ => exact ⟨.jump, EdgeKind.noConfusion, none, _, rfl⟩

section Passages

variable (s : InstructionSet) (p : Program) (l : Location)

/-- **The successors of a location are where its passages lead on to.** -/
theorem successors_eq :
    successors s p l = ((passages s p l).filter (Edge.leadsOn p)).map Edge.target := by
  have honward (n : ℕ) := map_target_passageTo (p := p) (l := l) .fallthrough (fun _ => rfl)
    (l.advance n)
  rw [successors, passages]
  rcases p.byteAt? l.bank l.offset with - | opcode
  · rfl
  rcases hdecode : s.decode opcode with - | f
  · simp only [hdecode]
    exact (honward 1).symm
  simp only [hdecode]
  rw [successorsOf, passagesOf]
  simp only [slotAt_eq_literalAt?]
  cases f.operation with
  | jump => exact (map_target_passageTo .jump (fun _ => rfl) _).symm
  | jpif =>
    rw [List.filter_append, List.map_append, honward, map_target_passageTo .condJump fun _ => rfl]
  | call => rw [List.filter_append, List.map_append, honward, map_target_passageTo_call]
  | rlod => rw [List.filter_append, List.map_append, honward, map_target_passageTo_dataRef]; rfl
  | rsto => rw [List.filter_append, List.map_append, honward, map_target_passageTo_dataRef]; rfl
  | rtn => rfl
  | _ => exact (honward f.width).symm

theorem exists_passages_eq :
    ∃ kind ≠ EdgeKind.fallthrough, ∃ target next,
      passages s p l = passageTo l kind target ++ passageTo l .fallthrough next := by
  rw [passages]
  rcases p.byteAt? l.bank l.offset with - | opcode
  · exact ⟨.jump, EdgeKind.noConfusion, none, none, rfl⟩
  rcases hdecode : s.decode opcode with - | f
  · simp only [hdecode]
    exact ⟨.jump, EdgeKind.noConfusion, none, _, rfl⟩
  · simp only [hdecode]
    exact exists_passagesOf_eq p l f

theorem nodup_passages : (passages s p l).Nodup := by
  obtain ⟨kind, hkind, target, next, heq⟩ := exists_passages_eq s p l
  rw [heq]
  exact nodup_passageTo_append hkind target next

theorem length_passages_le : (passages s p l).length ≤ 2 := by
  have hone (kind : EdgeKind) (target : Option Location) :
      (passageTo l kind target).length ≤ 1 := by
    cases target with
    | none => exact Nat.zero_le _
    | some m => exact Nat.le_refl _
  obtain ⟨kind, -, target, next, heq⟩ := exists_passages_eq s p l
  rw [heq, List.length_append]
  exact Nat.add_le_add (hone kind target) (hone _ next)

variable {s p l}

theorem source_of_mem_passages {e : Edge} (h : e ∈ passages s p l) : e.source = l := by
  obtain ⟨kind, -, target, next, heq⟩ := exists_passages_eq s p l
  rw [heq] at h
  rcases List.mem_append.mp h with h | h
  · obtain ⟨m, -, rfl⟩ := mem_passageTo.mp h
    rfl
  · obtain ⟨m, -, rfl⟩ := mem_passageTo.mp h
    rfl

theorem target_mem_successors {e : Edge} (h : e ∈ passages s p l) (hleads : e.leadsOn p = true) :
    e.target ∈ successors s p l := by
  rw [successors_eq]
  exact List.mem_map_of_mem (List.mem_filter.mpr ⟨h, hleads⟩)

/-- **Only a call leads to another bank**, to one that the program has. -/
theorem bank_of_mem_successors {m : Location} (h : m ∈ successors s p l) :
    m.bank = l.bank ∨ p.has m.bank = true ∧ m.bank ∈ calledBanks (passages s p l) := by
  rcases hbyte : p.byteAt? l.bank l.offset with - | opcode
  · rw [successors, hbyte] at h
    cases h
  rw [successors, hbyte] at h
  rw [passages, hbyte]
  rcases hdecode : s.decode opcode with - | f
  · simp only [hdecode] at h
    exact .inl (bank_of_mem_advance h)
  simp only [hdecode] at h ⊢
  rcases mem_successorsOf h with heq | ⟨hcall, hslot, hpresent⟩
  · exact .inl heq
  · rw [slotAt_eq_literalAt?] at hslot
    refine .inr ⟨hpresent, ?_⟩
    rw [passagesOf, hcall]
    simp only [hslot]
    exact mem_calledBanks_append.mpr (.inl List.mem_cons_self)

end Passages

end Protocell.Flow
