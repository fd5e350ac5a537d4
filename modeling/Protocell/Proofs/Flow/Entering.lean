import Protocell.Proofs.Flow.Passages

/-!
# Proofs/Flow/Entering — a search enters the passages from a location

Decoding a location in a search is to note what the location is by itself, and then to enter its
passages one after another (`decodeAt_eq`).  What entering does to each part of the search is one
statement (`Enters`): a passage decides for itself whether it is drawn, which bank it notes and
whether its target is queued, so that the passages of a list do so independently of each other.
-/

namespace Protocell.Flow

namespace Search

/-- Whether a passage is drawn as an edge.  All are, but those on to a location that is visited. -/
def draws (x : Search) (e : Edge) : Bool :=
  e.kind != .fallthrough || !x.found.visited.get e.target

/-- Whether the target of a passage is queued.  It is if the passage leads on there and it is not
visited; a call is not asked about the latter. -/
def queues (p : Program) (x : Search) (e : Edge) : Bool :=
  e.leadsOn p && (e.kind == .call || !x.found.visited.get e.target)

/-- The search after a passage is entered. -/
def pass (p : Program) (x : Search) (e : Edge) : Search :=
  let bank := e.target.bank
  { found :=
      { x.found with
        edges := if x.draws e then x.found.edges.push e else x.found.edges
        banks :=
          if e.kind == .call && p.has bank then x.found.banks.insert bank else x.found.banks
        missing :=
          if e.kind == .call && !p.has bank then x.found.missing.insert bank else x.found.missing }
    queue := if x.queues p e then x.queue ++ [e.target] else x.queue }

/-- Notes what a location is by itself: its width if a byte is stored there, and whether its
instruction leaves the frame or takes its target off the stack. -/
def note (s : InstructionSet) (p : Program) (x : Search) (l : Location) : Search :=
  { x with
    found :=
      { x.found with
        widths := (widthAt? s p l).elim x.found.widths fun w => x.found.widths.set l (some w)
        returns := if (formAt? s p l).any leaves then x.found.returns.insert l else x.found.returns
        dynamic :=
          if (formAt? s p l).any opens then x.found.dynamic.insert l else x.found.dynamic } }

variable (x : Search) (p : Program) (l : Location)

/-- Going on to the next instruction is entering the passage there, if there is one. -/
theorem fallThrough_eq (width : ℕ) :
    x.fallThrough l width = (passageTo l .fallthrough (l.advance width)).foldl (pass p) x := by
  rw [fallThrough]
  cases l.advance width with
  | none => rfl
  | some next =>
    change _ = x.pass p ⟨l, next, .fallthrough⟩
    rw [pass, draws, queues]
    dsimp only
    cases x.found.visited.get next <;> rfl

theorem branch_eq_pass {kind : EdgeKind} (hkind : kind = .jump ∨ kind = .condJump) (o : UInt8) :
    x.branch l kind (some o) = x.pass p ⟨l, ⟨l.bank, o⟩, kind⟩ := by
  have hvisited : (x.addEdge l ⟨l.bank, o⟩ kind).found.visited = x.found.visited := rfl
  rw [branch, hvisited, pass, queues]
  rcases hkind with rfl | rfl
  · cases x.found.visited.get ⟨l.bank, o⟩ <;> rfl
  · cases x.found.visited.get ⟨l.bank, o⟩ <;> rfl

theorem enterBank_eq (b : UInt8) :
    x.enterBank p b =
      { found :=
          { x.found with
            banks := if p.has b then x.found.banks.insert b else x.found.banks
            missing := if !p.has b then x.found.missing.insert b else x.found.missing }
        queue := if p.has b then x.queue ++ [⟨b, 0⟩] else x.queue } := by
  rw [enterBank]
  cases p.has b <;> rfl

theorem call_eq_pass (b : UInt8) : x.call p l (some b) = x.pass p ⟨l, ⟨b, 0⟩, .call⟩ := by
  rw [call, enterBank_eq, pass, queues, Edge.leadsOn]
  cases p.has b <;> rfl

/-- **Following an instruction is noting where its passages end and entering them.** -/
theorem follow_eq (f : Form) :
    x.follow p l f = (passagesOf p l f).foldl (pass p)
      { x with
        found :=
          { x.found with
            returns := if leaves f then x.found.returns.insert l else x.found.returns
            dynamic := if opens f then x.found.dynamic.insert l else x.found.dynamic } } := by
  have hslot (i : ℕ) : ((slotValues p l 1 f.slots)[i]?).join = literalAt? p l f i :=
    slotAt_eq_literalAt? p l f i
  rw [follow, passagesOf, leaves, opens_eq_isOpenAt p l f, isOpenAt]
  simp only [hslot, slotAt_eq_literalAt?]
  -- Where the argument that names a target is no literal, there is no passage and `opens` holds.
  cases f.operation with
  | jump =>
    cases literalAt? p l f 0 with
    | none => rfl
    | some o => exact branch_eq_pass x p l (.inl rfl) o
  | jpif =>
    rw [List.foldl_append, ← fallThrough_eq]
    cases literalAt? p l f 1 with
    | none => rfl
    | some o => exact congrArg (fallThrough · l f.width) (branch_eq_pass x p l (.inr rfl) o)
  | call =>
    rw [List.foldl_append, ← fallThrough_eq]
    cases literalAt? p l f 0 with
    | none => rfl
    | some b => exact congrArg (fallThrough · l f.width) (call_eq_pass x p l b)
  | rlod | rsto =>
    rw [List.foldl_append, ← fallThrough_eq]
    cases literalAt? p l f 0 <;> rfl
  | rtn => rfl
  | _ => exact fallThrough_eq x p l _

/-- **Decoding a location is noting it and entering its passages.** -/
theorem decodeAt_eq (s : InstructionSet) {opcode : UInt8}
    (h : p.byteAt? l.bank l.offset = some opcode) :
    x.decodeAt s p l opcode = (passages s p l).foldl (pass p) (x.note s p l) := by
  rw [decodeAt, passages, note, widthAt?, formAt?, h, Option.map_some, Option.bind_some]
  rcases hdecode : s.decode opcode with - | f
  · simp only [hdecode]
    exact fallThrough_eq _ p l 1
  · simp only [hdecode]
    exact follow_eq _ p l f

theorem get_widths_note (s : InstructionSet) (k : Location) :
    (x.note s p l).found.widths.get k
      = if l = k then (widthAt? s p l).or (x.found.widths.get k) else x.found.widths.get k := by
  rw [note]
  cases widthAt? s p l with
  | none => rw [Option.none_or, ite_self]; rfl
  | some w => exact LocationTable.get_set _ l k _

/-- A set to which a location is added under a condition. -/
theorem get_ite_insert_iff (c : Bool) (t : LocationSet) (l k : Location) :
    (if c then t.insert l else t).get k = true ↔ l = k ∧ c = true ∨ t.get k = true := by
  cases c with
  | false => exact (or_iff_right fun h => Bool.false_ne_true h.2).symm
  | true =>
    rw [if_pos rfl, LocationSet.get_insert, Bool.or_eq_true, decide_eq_true_iff, and_iff_left rfl]

/-- A set to which a byte is added if it passes a test. -/
theorem get_ite_insert_iff_of_test (q : UInt8 → Bool) (t : ByteSet) (c b : UInt8) :
    (if q c then t.insert c else t).get b = true ↔ t.get b = true ∨ q b = true ∧ b = c := by
  rcases hq : q c with - | -
  · refine (or_iff_left ?_).symm
    rintro ⟨hb, rfl⟩
    exact Bool.false_ne_true (hq.symm.trans hb)
  · rw [if_pos rfl, ByteSet.get_insert, Bool.or_eq_true, beq_iff_eq, or_comm, eq_comm (a := c)]
    refine or_congr_right (and_iff_right_of_imp ?_).symm
    rintro rfl
    exact hq

/-- A set to which the bank of a call is added if it passes a test. -/
theorem get_ite_insert_called (q : UInt8 → Bool) (t : ByteSet) (e : Edge) (b : UInt8) :
    (if e.kind == .call && q e.target.bank then t.insert e.target.bank else t).get b = true
      ↔ t.get b = true ∨ q b = true ∧ b ∈ calledBanks [e] := by
  by_cases hkind : e.kind = .call
  · rw [beq_iff_eq.mpr hkind, Bool.true_and, calledBanks_singleton hkind, List.mem_singleton]
    exact get_ite_insert_iff_of_test q t _ b
  · rw [beq_eq_false_iff_ne.mpr hkind, Bool.false_and, calledBanks_singleton_of_ne hkind]
    exact (or_iff_left fun h => List.not_mem_nil h.2).symm

variable {x p l}

/-- **A search has entered some passages**: it has drawn those that are to be drawn, noted the banks
that are called, and queued the targets that are to be queued. -/
structure Enters (p : Program) (x x' : Search) (es : List Edge) : Prop where
  visited_eq : x'.found.visited = x.found.visited
  widths_eq : x'.found.widths = x.found.widths
  returns_eq : x'.found.returns = x.found.returns
  dynamic_eq : x'.found.dynamic = x.found.dynamic
  edges_eq : x'.found.edges.toList = x.found.edges.toList ++ es.filter x.draws
  banks_iff : ∀ b, x'.found.banks.get b = true ↔
    x.found.banks.get b = true ∨ p.has b = true ∧ b ∈ calledBanks es
  missing_iff : ∀ b, x'.found.missing.get b = true ↔
    x.found.missing.get b = true ∨ p.has b = false ∧ b ∈ calledBanks es
  queue_eq : x'.queue = x.queue ++ (es.filter (x.queues p)).map Edge.target

theorem Enters.refl : Enters p x x [] where
  visited_eq := rfl
  widths_eq := rfl
  returns_eq := rfl
  dynamic_eq := rfl
  edges_eq := (List.append_nil _).symm
  banks_iff _ := (or_iff_left fun h => List.not_mem_nil h.2).symm
  missing_iff _ := (or_iff_left fun h => List.not_mem_nil h.2).symm
  queue_eq := (List.append_nil _).symm

theorem Enters.trans {x' x'' : Search} {es es' : List Edge} (h : Enters p x x' es)
    (h' : Enters p x' x'' es') : Enters p x x'' (es ++ es') where
  visited_eq := h'.visited_eq.trans h.visited_eq
  widths_eq := h'.widths_eq.trans h.widths_eq
  returns_eq := h'.returns_eq.trans h.returns_eq
  dynamic_eq := h'.dynamic_eq.trans h.dynamic_eq
  edges_eq := by
    have hdraws : x'.draws = x.draws := by
      funext e
      rw [draws, draws, h.visited_eq]
    rw [h'.edges_eq, h.edges_eq, hdraws, List.filter_append, List.append_assoc]
  banks_iff b := by
    rw [h'.banks_iff, h.banks_iff, mem_calledBanks_append, and_or_left, or_assoc]
  missing_iff b := by
    rw [h'.missing_iff, h.missing_iff, mem_calledBanks_append, and_or_left, or_assoc]
  queue_eq := by
    have hqueues : x'.queues p = x.queues p := by
      funext e
      rw [queues, queues, h.visited_eq]
    rw [h'.queue_eq, h.queue_eq, hqueues, List.filter_append, List.map_append, List.append_assoc]

theorem enters_pass (e : Edge) : Enters p x (x.pass p e) [e] where
  visited_eq := rfl
  widths_eq := rfl
  returns_eq := rfl
  dynamic_eq := rfl
  edges_eq := by
    rw [pass, List.filter_singleton]
    cases x.draws e with
    | false => exact (List.append_nil _).symm
    | true => exact Array.toList_push
  banks_iff b := get_ite_insert_called p.has x.found.banks e b
  missing_iff b := by
    rw [← Bool.not_eq_true']
    exact get_ite_insert_called (fun b => !p.has b) x.found.missing e b
  queue_eq := by
    rw [pass, List.filter_singleton]
    cases x.queues p e with
    | false => exact (List.append_nil _).symm
    | true => rfl

/-- **Passages entered one after another are entered.** -/
theorem enters_foldl_pass (es : List Edge) (x : Search) : Enters p x (es.foldl (pass p) x) es := by
  induction es generalizing x with
  | nil => exact .refl
  | cons e es ih => exact (enters_pass e).trans (ih _)

end Search

end Protocell.Flow
