import Protocell.Assembly.Draft
import Protocell.InstructionSet.Standard
import Protocell.Proofs.Flow.Closure
import Protocell.Proofs.Success

/-!
# Proofs/Flow/Onward — which passages to the next instruction are drawn

Behind every location but a return or a jump execution can go on (`goesOn`), and if the bank reaches
that far there is a passage on to the next instruction (`onward_mem_passages_iff`).

Whether it is drawn as an edge is up to the order of the visits alone (`count_onward_edge`).  So the
edges that fall through are not complete: where the next instruction was come upon another way
first, the passage on to it is left out (`onward_edge_left_out`).
-/

namespace Protocell.Flow

section Passages

variable {s : InstructionSet} {p : Program} {l m : Location}

/-- **Whether execution can go on behind a location**: its instruction, if it has one, neither
returns nor jumps. -/
def goesOn (s : InstructionSet) (p : Program) (l : Location) : Bool :=
  (formAt? s p l).all fun f => f.operation != .rtn && f.operation != .jump

/-- An edge of another kind is no such passage. -/
theorem not_mem_passageTo {kind : EdgeKind} {target : Option Location} {e : Edge}
    (hkind : e.kind ≠ kind) : e ∉ passageTo l kind target := by
  rw [mem_passageTo]
  rintro ⟨m, -, rfl⟩
  exact hkind rfl

/-- A passage on to the next instruction is one of no other kind. -/
theorem onward_mem_passageTo_iff {kind : EdgeKind} {target : Option Location} :
    (⟨l, m, .fallthrough⟩ : Edge) ∈ passageTo l kind target ↔
      kind = .fallthrough ∧ target = some m := by
  rw [mem_passageTo]
  constructor
  · rintro ⟨m', htarget, heq⟩
    obtain ⟨-, rfl, rfl⟩ := Edge.mk.inj heq
    exact ⟨rfl, htarget⟩
  · rintro ⟨rfl, htarget⟩
    exact ⟨m, htarget, rfl⟩

theorem onward_mem_passagesOf_iff {f : Form} :
    (⟨l, m, .fallthrough⟩ : Edge) ∈ passagesOf p l f ↔
      (f.operation != .rtn && f.operation != .jump) = true ∧ l.advance f.width = some m := by
  have hbranch {kind : EdgeKind} (hkind : .fallthrough ≠ kind) (target : Option Location) :
      (⟨l, m, .fallthrough⟩ : Edge) ∉ passageTo l kind target := not_mem_passageTo hkind
  have hpair {kind : EdgeKind} (hkind : .fallthrough ≠ kind) (target : Option Location) :
      (⟨l, m, .fallthrough⟩ : Edge) ∈
          passageTo l kind target ++ passageTo l .fallthrough (l.advance f.width) ↔
        true = true ∧ l.advance f.width = some m := by
    rw [List.mem_append, or_iff_right (hbranch hkind target), onward_mem_passageTo_iff,
      and_iff_right rfl, and_iff_right rfl]
  rw [passagesOf]
  cases f.operation with
  | jump => exact iff_of_false (hbranch EdgeKind.noConfusion _) fun h => Bool.false_ne_true h.1
  | rtn => exact iff_of_false List.not_mem_nil fun h => Bool.false_ne_true h.1
  | jpif | call | rlod | rsto => exact hpair EdgeKind.noConfusion _
  | _ => exact onward_mem_passageTo_iff.trans (and_congr_left' (iff_of_true rfl rfl))

/-- **There is a passage on to the next instruction just if execution can go on there.** -/
theorem onward_mem_passages_iff :
    (⟨l, m, .fallthrough⟩ : Edge) ∈ passages s p l ↔
      goesOn s p l = true ∧ (widthAt? s p l).bind l.advance = some m := by
  rw [passages, goesOn, formAt?, widthAt?]
  rcases p.byteAt? l.bank l.offset with - | opcode
  · exact iff_of_false List.not_mem_nil fun h => Option.some_ne_none m h.2.symm
  rcases hdecode : s.decode opcode with - | f
  · simp only [Option.bind_some, Option.map_some, hdecode, Option.elim_none, Option.all_none]
    exact onward_mem_passageTo_iff.trans (and_congr_left' (iff_of_true rfl trivial))
  · simp only [Option.bind_some, Option.map_some, hdecode, Option.elim_some, Option.all_some]
    exact onward_mem_passagesOf_iff

/-- Just behind a return and a jump execution cannot go on. -/
theorem goesOn_eq_false_iff : goesOn s p l = false ↔
    ∃ f, formAt? s p l = some f ∧ (f.operation = .rtn ∨ f.operation = .jump) := by
  rw [goesOn, Option.all_eq_false]
  refine exists_congr fun f => and_congr_right' ?_
  rw [Bool.and_eq_false_iff, bne_eq_false_iff_eq, bne_eq_false_iff_eq]

theorem goesOn_of_leaves (h : (formAt? s p l).any leaves = true) : goesOn s p l = false := by
  obtain ⟨f, hf, hleaves⟩ := (Option.any_eq_true _ _).mp h
  exact goesOn_eq_false_iff.mpr ⟨f, hf, .inl (of_decide_eq_true hleaves)⟩

theorem operation_of_jump_mem_passagesOf {f : Form} {e : Edge} (he : e ∈ passagesOf p l f)
    (hkind : e.kind = .jump) : f.operation = .jump := by
  have hnot {kind : EdgeKind} {target : Option Location} (hne : .jump ≠ kind) :
      e ∉ passageTo l kind target := not_mem_passageTo (hkind ▸ hne)
  have hpair {kind : EdgeKind} {target target' : Option Location} (hne : .jump ≠ kind) :
      e ∉ passageTo l kind target ++ passageTo l .fallthrough target' :=
    mt List.mem_append.mp (not_or.mpr ⟨hnot hne, hnot EdgeKind.noConfusion⟩)
  rw [passagesOf] at he
  cases hop : f.operation with
  | jump => rfl
  | rtn =>
    rw [hop] at he
    cases he
  | jpif | call | rlod | rsto =>
    rw [hop] at he
    exact (hpair EdgeKind.noConfusion he).elim
  | _ =>
    rw [hop] at he
    exact (hnot EdgeKind.noConfusion he).elim

/-- **Only behind a jump is there a passage of its kind**, and none on to the next instruction. -/
theorem goesOn_of_jump {e : Edge} (he : e ∈ passages s p l) (hkind : e.kind = .jump) :
    goesOn s p l = false := by
  rw [passages] at he
  rcases hbyte : p.byteAt? l.bank l.offset with - | opcode
  · rw [hbyte] at he
    cases he
  rcases hdecode : s.decode opcode with - | f
  · simp only [hbyte, hdecode] at he
    exact absurd he (not_mem_passageTo (hkind ▸ EdgeKind.noConfusion))
  · simp only [hbyte, hdecode] at he
    have hform : formAt? s p l = some f := by rw [formAt?, hbyte, Option.bind_some, hdecode]
    exact goesOn_eq_false_iff.mpr ⟨f, hform, .inr (operation_of_jump_mem_passagesOf he hkind)⟩

/-- A jump makes a passage, or it takes its target off the stack. -/
theorem exists_jump_of_not_opens {f : Form} (hf : formAt? s p l = some f)
    (hjump : f.operation = .jump) (hopens : opens f = false) :
    ∃ o, (⟨l, ⟨l.bank, o⟩, .jump⟩ : Edge) ∈ passages s p l := by
  obtain ⟨opcode, hbyte, hdecode⟩ := Option.bind_eq_some_iff.mp hf
  have hslot : f.slots[0]? = some true := by
    rw [opens, hjump] at hopens
    exact bne_eq_false_iff_eq.mp hopens
  rw [passages, hbyte]
  simp only [hdecode]
  rw [passagesOf, hjump]
  simp only [literalAt?, if_pos hslot, Option.map_some]
  exact ⟨_, List.mem_cons_self⟩

end Passages

/-- **Which edges fall through.**  Let execution be able to go on from a decoded location to the
next instruction.  The passage there is drawn once if the location is visited before the next one,
and otherwise it is left out. -/
theorem count_onward_edge (s : InstructionSet) (p : Program) (entry : UInt8) (budget : ℕ)
    {l next : Location} {w : ℕ} (hdecoded : (analyze s p entry budget).widths.get l = some w)
    (hgoes : goesOn s p l = true) (hnext : l.advance w = some next) :
    (analyze s p entry budget).edges.toList.count ⟨l, next, .fallthrough⟩ =
      if (visitOrder s p entry budget).idxOf l < (visitOrder s p entry budget).idxOf next then 1
      else 0 := by
  obtain ⟨hvisited, hwidth⟩ := widths_eq_some_iff.mp hdecoded
  have hpassage : (⟨l, next, .fallthrough⟩ : Edge) ∈ passages s p l :=
    onward_mem_passages_iff.mpr ⟨hgoes, by rw [hwidth]; exact hnext⟩
  have hmem : (⟨l, next, .fallthrough⟩ : Edge) ∈ (analyze s p entry budget).edges.toList ↔
      (visitOrder s p entry budget).idxOf l < (visitOrder s p entry budget).idxOf next := by
    rw [mem_edges_iff, and_iff_right hvisited, and_iff_right hpassage, forall_prop_of_true rfl]
  rw [List.Nodup.count nodup_edges]
  exact if_congr hmem rfl rfl

/-- A branch over one instruction: the passage behind the branch is drawn, and that on to its target
is not. -/
theorem onward_edges_around_branch :
    ∃ program, assemble .standard ".prg 0\nJPIF 1 4\nNOP\nRTN\n" = .ok program ∧
      let a := analyze .standard program 0 6
      visitOrder .standard program 0 6 = [⟨0, 0⟩, ⟨0, 4⟩, ⟨0, 3⟩] ∧
        a.widths.get ⟨0, 0⟩ = some 3 ∧ goesOn .standard program ⟨0, 0⟩ = true ∧
        a.edges.toList.count ⟨⟨0, 0⟩, ⟨0, 3⟩, .fallthrough⟩ = 1 ∧
        a.widths.get ⟨0, 3⟩ = some 1 ∧ goesOn .standard program ⟨0, 3⟩ = true ∧
        a.edges.toList.count ⟨⟨0, 3⟩, ⟨0, 4⟩, .fallthrough⟩ = 0 := by
  have hrun : (assemble .standard ".prg 0\nJPIF 1 4\nNOP\nRTN\n").toOption.map
      (fun p => (visitOrder .standard p 0 6,
        ((analyze .standard p 0 6).widths.get ⟨0, 0⟩, goesOn .standard p ⟨0, 0⟩),
        (analyze .standard p 0 6).widths.get ⟨0, 3⟩, goesOn .standard p ⟨0, 3⟩))
      = some ([⟨0, 0⟩, ⟨0, 4⟩, ⟨0, 3⟩], (some 3, true), some 1, true) := by decide +kernel
  obtain ⟨program, hassemble, hrun⟩ := Option.map_eq_some_iff.mp hrun
  simp only [Prod.mk.injEq] at hrun
  obtain ⟨horder, ⟨hbranch, hbranchGoes⟩, hover, hoverGoes⟩ := hrun
  have hfirst := count_onward_edge .standard program 0 6 hbranch hbranchGoes
    (show (⟨0, 0⟩ : Location).advance 3 = some ⟨0, 3⟩ by decide)
  have hsecond := count_onward_edge .standard program 0 6 hover hoverGoes
    (show (⟨0, 3⟩ : Location).advance 1 = some ⟨0, 4⟩ by decide)
  rw [horder] at hfirst hsecond
  exact ⟨program, toOption_eq_some_iff.mp hassemble, horder, hbranch, hbranchGoes, hfirst, hover,
    hoverGoes, hsecond⟩

/-- **The edges that fall through are not complete.**  The operand of the push is the opcode of a
call whose bank comes off the stack, and the jump leads to it.  From the call execution goes on to
the jump, which is visited before, and no edge says so. -/
theorem onward_edge_left_out :
    ∃ program, assemble .standard ".prg 0\nPUSH 15\nJUMP 1\n" = .ok program ∧
      storedBytes program < 6 ∧
      let a := analyze .standard program 0 6
      a.widths.get ⟨0, 1⟩ = some 1 ∧ goesOn .standard program ⟨0, 1⟩ = true ∧
        a.dynamic.get ⟨0, 1⟩ = true ∧ (⟨0, 1⟩ : Location).advance 1 = some ⟨0, 2⟩ ∧
        a.edges.toList = [⟨⟨0, 0⟩, ⟨0, 2⟩, .fallthrough⟩, ⟨⟨0, 2⟩, ⟨0, 1⟩, .jump⟩] := by
  have hrun : (assemble .standard ".prg 0\nPUSH 15\nJUMP 1\n").toOption.map
      (fun p => (decide (storedBytes p < 6), (analyze .standard p 0 6).widths.get ⟨0, 1⟩,
        goesOn .standard p ⟨0, 1⟩, (analyze .standard p 0 6).dynamic.get ⟨0, 1⟩,
        (analyze .standard p 0 6).edges.toList))
      = some (true, some 1, true, true,
        [⟨⟨0, 0⟩, ⟨0, 2⟩, .fallthrough⟩, ⟨⟨0, 2⟩, ⟨0, 1⟩, .jump⟩]) := by decide +kernel
  obtain ⟨program, hassemble, hrun⟩ := Option.map_eq_some_iff.mp hrun
  simp only [Prod.mk.injEq, decide_eq_true_eq] at hrun
  obtain ⟨hbudget, hdecoded, hgoes, hdynamic, hedges⟩ := hrun
  exact ⟨program, toOption_eq_some_iff.mp hassemble, hbudget, hdecoded, hgoes, hdynamic,
    by decide, hedges⟩

end Protocell.Flow
