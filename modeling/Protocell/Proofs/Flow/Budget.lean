import Mathlib.Data.List.Perm.Subperm
import Protocell.Assembly.Draft
import Protocell.InstructionSet.Standard
import Protocell.Proofs.Flow.Closure
import Protocell.Proofs.Success

/-!
# Proofs/Flow/Budget — a smaller budget stops the same search earlier

Two searches that differ in their budgets alone take up the same locations for as long as both have
budget left.  So the visits of the one with the smaller budget are the first of the other's, and if
they are not all of them, the smaller budget is used up to the last (`Search.exists_visits_eq`).
Budget is spent on stored locations only: those without a byte, and those that are visited already,
are for free.

All that an analysis finds is read off the order of its visits, so what a smaller budget finds is a
part of what a larger one finds, and its edges are the first of them (`begins_of_budget_le`).
-/

namespace Protocell.Flow

/-- Whether a byte is stored at a location. -/
def isStored (p : Program) (l : Location) : Bool := (p.byteAt? l.bank l.offset).isSome

namespace Search

variable {s : InstructionSet} {p : Program} {x : Search} {l : Location} {rest : List Location}

/-! ## Searches in step -/

theorem visits_of_nil (fuel budget : ℕ) (hqueue : x.queue = []) :
    visits s p fuel budget x = [] := by
  cases fuel with
  | zero => rfl
  | succ fuel =>
    rw [visits.eq_def]
    simp only [hqueue]

theorem visits_of_budget_zero (fuel : ℕ) (x : Search) : visits s p fuel 0 x = [] := by
  cases fuel with
  | zero => rfl
  | succ fuel =>
    rw [visits.eq_def]
    cases hqueue : x.queue <;> simp only [hqueue]

/-- The location that a search visits when it takes up `l`, if that is new to it. -/
def visitAt (x : Search) (l : Location) : List Location :=
  if x.found.visited.get l then [] else [l]

theorem visits_succ (fuel budget : ℕ) (hqueue : x.queue = l :: rest) :
    visits s p (fuel + 1) (budget + 1) x =
      visitAt x l ++
        visits s p fuel (if costs p x l then budget else budget + 1) (takeUp s p x l rest) := by
  rw [visits.eq_def, visitAt]
  simp only [hqueue]
  cases x.found.visited.get l <;> rfl

/-- **A location costs budget just if it is visited and a byte is stored there.** -/
theorem countP_visitAt (p : Program) (x : Search) (l : Location) :
    (visitAt x l).countP (isStored p) = if costs p x l then 1 else 0 := by
  rw [visitAt, costs, ← isStored]
  cases x.found.visited.get l with
  | true => rfl
  | false => exact List.countP_singleton

/-- **No more locations are decoded than the budget allows.** -/
theorem countP_visits_le (fuel budget : ℕ) (x : Search) :
    (visits s p fuel budget x).countP (isStored p) ≤ budget := by
  induction fuel generalizing x budget with
  | zero => exact Nat.zero_le _
  | succ fuel ih =>
    rcases hqueue : x.queue with - | ⟨l, rest⟩
    · rw [visits_of_nil _ _ hqueue]
      exact Nat.zero_le _
    · cases budget with
      | zero => rw [visits_of_budget_zero]; exact Nat.zero_le _
      | succ budget =>
        rw [visits_succ fuel budget hqueue, List.countP_append, countP_visitAt]
        split
        · have hlater := ih budget (takeUp s p x l rest)
          omega
        · have hlater := ih (budget + 1) (takeUp s p x l rest)
          omega

/-- **Searches with different budgets go in step.**  The one with the larger budget visits what the
other visits and goes on from there, and either the other has used up its budget by then, or there
is nothing left to visit and both have come to the same end. -/
theorem exists_visits_eq {m n : ℕ} (h : m ≤ n) (fuel : ℕ) (x : Search) :
    ∃ more, visits s p fuel n x = visits s p fuel m x ++ more ∧
      ((visits s p fuel m x).countP (isStored p) = m ∨
        more = [] ∧ explore s p fuel m x = explore s p fuel n x) := by
  induction fuel generalizing x m n with
  | zero => exact ⟨[], rfl, .inr ⟨rfl, rfl⟩⟩
  | succ fuel ih =>
    rcases hqueue : x.queue with - | ⟨l, rest⟩
    · rw [visits_of_nil _ _ hqueue, visits_of_nil _ _ hqueue, explore_of_nil _ _ hqueue,
        explore_of_nil _ _ hqueue]
      exact ⟨[], rfl, .inr ⟨rfl, rfl⟩⟩
    · cases m with
      | zero =>
        rw [visits_of_budget_zero]
        exact ⟨_, rfl, .inl rfl⟩
      | succ m =>
        obtain ⟨n, rfl⟩ := Nat.exists_eq_add_of_le' (Nat.le_of_add_left_le h)
        have hless : (if costs p x l then m else m + 1) ≤ if costs p x l then n else n + 1 := by
          split <;> omega
        obtain ⟨more, hmore, hend⟩ := ih hless (takeUp s p x l rest)
        rw [visits_succ fuel m hqueue, visits_succ fuel n hqueue,
          explore_succ fuel m hqueue, explore_succ fuel n hqueue, hmore, List.countP_append,
          countP_visitAt]
        refine ⟨more, (List.append_assoc _ _ _).symm, hend.imp_left fun hused => ?_⟩
        rw [hused]
        split <;> omega

end Search

/-! ## Orders of visits -/

section Budget

variable (s : InstructionSet) (p : Program) (entry : UInt8)

theorem exists_visitOrder_eq {m n : ℕ} (h : m ≤ n) :
    ∃ more, visitOrder s p entry n = visitOrder s p entry m ++ more ∧
      ((visitOrder s p entry m).countP (isStored p) = m ∨
        more = [] ∧ analyze s p entry m = analyze s p entry n) := by
  obtain ⟨more, hmore, hend⟩ := Search.exists_visits_eq (s := s) (p := p) h queueBound
    (({} : Search).enterBank p entry)
  exact ⟨more, hmore, hend.imp_right fun ⟨hnil, heq⟩ => ⟨hnil, congrArg Search.found heq⟩⟩

/-- No more locations are decoded than there are bytes. -/
theorem countP_visitOrder_le_storedBytes (budget : ℕ) :
    (visitOrder s p entry budget).countP (isStored p) ≤ storedBytes p := by
  rw [← countP_stored]
  exact (List.Nodup.subperm (nodup_visitOrder s p entry budget)
    fun l _ => mem_allLocations l).countP_le _

theorem nodup_allLocations : allLocations.Nodup := by
  have hbytes : allBytes.Nodup := pairwise_allBytes.imp UInt8.ne_of_lt
  refine List.nodup_flatMap.mpr ⟨fun bank _ => hbytes.map fun o o' h => ?_, ?_⟩
  · exact (Location.mk.inj h).2
  · refine hbytes.imp fun {b b'} hne => List.disjoint_left.mpr fun l hl hl' => hne ?_
    obtain ⟨o, -, rfl⟩ := List.mem_map.mp hl
    obtain ⟨o', -, heq⟩ := List.mem_map.mp hl'
    exact (Location.mk.inj heq).1.symm

/-- **The decoded locations are the stored ones among those visited.** -/
theorem length_decoded (budget : ℕ) : (analyze s p entry budget).decoded.length
    = (visitOrder s p entry budget).countP (isStored p) := by
  have hsome (l : Location) : ((analyze s p entry budget).widths.get l).isSome = true ↔
      l ∈ visitOrder s p entry budget ∧ isStored p l = true := by
    rw [Option.isSome_iff_exists]
    simp only [widths_eq_some_iff, exists_and_left, ← Option.isSome_iff_exists, widthAt?,
      Option.isSome_map, isStored]
  have hperm : (allLocations.filter fun l => ((analyze s p entry budget).widths.get l).isSome).Perm
      ((visitOrder s p entry budget).filter (isStored p)) := by
    rw [List.perm_ext_iff_of_nodup (nodup_allLocations.filter _)
      ((nodup_visitOrder s p entry budget).filter _)]
    intro l
    rw [List.mem_filter, List.mem_filter, hsome, and_iff_right (mem_allLocations l)]
  rw [Analysis.decoded, List.length_filterMap_eq_countP, List.countP_eq_length_filter,
    List.countP_eq_length_filter, ← hperm.length_eq]
  simp only [Option.isSome_map]

/-- **The analysis that no budget ends**: its budget is above the number of stored bytes. -/
def analyzeAll : Analysis := analyze s p entry (storedBytes p + 1)

/-- A budget above the number of stored bytes makes no difference. -/
theorem analyze_eq_analyzeAll {budget : ℕ} (h : storedBytes p < budget) :
    analyze s p entry budget = analyzeAll s p entry := by
  obtain ⟨more, -, hused | ⟨-, heq⟩⟩ := exists_visitOrder_eq s p entry (Nat.succ_le_of_lt h)
  · have hle := countP_visitOrder_le_storedBytes s p entry (storedBytes p + 1)
    rw [hused] at hle
    exact absurd hle (Nat.not_succ_le_self _)
  · exact heq.symm

/-- **As many locations are decoded as the budget allows**, or as there are to decode. -/
theorem length_decoded_eq_min (budget : ℕ) : (analyze s p entry budget).decoded.length
    = min budget (analyzeAll s p entry).decoded.length := by
  have hle : (visitOrder s p entry budget).countP (isStored p) ≤ budget :=
    Search.countP_visits_le _ _ _
  rcases Nat.lt_or_ge (storedBytes p) budget with henough | hfew
  · rw [← analyze_eq_analyzeAll s p entry henough, length_decoded]
    exact (Nat.min_eq_right hle).symm
  · rw [analyzeAll, length_decoded, length_decoded]
    obtain ⟨more, hmore, hend⟩ := exists_visitOrder_eq s p entry (Nat.le_succ_of_le hfew)
    rw [hmore, List.countP_append]
    rcases hend with hused | ⟨rfl, -⟩
    · omega
    · rw [List.countP_nil]
      omega

end Budget

/-! ## Analyses -/

/-- **An analysis that another one goes on from**: all that it has found the other has found too,
and its edges are the first of the other's. -/
structure Analysis.Begins (a b : Analysis) : Prop where
  edges : a.edges.toList <+: b.edges.toList
  visited : ∀ l, a.visited.get l = true → b.visited.get l = true
  widths : ∀ l w, a.widths.get l = some w → b.widths.get l = some w
  returns : ∀ l, a.returns.get l = true → b.returns.get l = true
  dynamic : ∀ l, a.dynamic.get l = true → b.dynamic.get l = true
  banks : ∀ i, a.banks.get i = true → b.banks.get i = true
  missing : ∀ i, a.missing.get i = true → b.missing.get i = true

/-- Visits that come later draw their edges behind the others. -/
theorem edgesDrawn_prefix (s : InstructionSet) (p : Program) (later earlier : List Location) :
    edgesDrawn s p earlier <+: edgesDrawn s p (later ++ earlier) := by
  induction later with
  | nil => exact List.prefix_rfl
  | cons l later ih => exact ih.trans (List.prefix_append _ _)

theorem begins_of_budget_le (s : InstructionSet) (p : Program) (entry : UInt8) {m n : ℕ}
    (h : m ≤ n) : (analyze s p entry m).Begins (analyze s p entry n) := by
  obtain ⟨more, hmore, -⟩ := exists_visitOrder_eq s p entry h
  have hsub {l : Location} (hl : l ∈ visitOrder s p entry m) : l ∈ visitOrder s p entry n :=
    hmore ▸ List.mem_append_left more hl
  have hm := (exact_explore s p entry m).records
  have hn := (exact_explore s p entry n).records
  have hcalled {b : UInt8} :
      (b = entry ∨ ∃ l ∈ (visitOrder s p entry m).reverse, b ∈ calledBanks (passages s p l)) →
        b = entry ∨ ∃ l ∈ (visitOrder s p entry n).reverse, b ∈ calledBanks (passages s p l) := by
    refine Or.imp_right ?_
    rintro ⟨l, hl, hb⟩
    exact ⟨l, List.mem_reverse.mpr (hsub (List.mem_reverse.mp hl)), hb⟩
  refine ⟨?_, ?_, ?_, ?_, ?_, ?_, ?_⟩
  · rw [edges_eq, edges_eq, hmore, List.reverse_append]
    exact edgesDrawn_prefix s p _ _
  · exact fun l hl => visited_iff.mpr (hsub (visited_iff.mp hl))
  · intro l w hw
    exact widths_eq_some_iff.mpr ((widths_eq_some_iff.mp hw).imp_left hsub)
  · exact fun l hl => returns_iff.mpr ((returns_iff.mp hl).imp_left hsub)
  · exact fun l hl => dynamic_iff.mpr ((dynamic_iff.mp hl).imp_left hsub)
  · exact fun b hb => (hn.banks_iff b).mpr (((hm.banks_iff b).mp hb).imp_right hcalled)
  · exact fun b hb => (hn.missing_iff b).mpr (((hm.missing_iff b).mp hb).imp_right hcalled)

/-- **A smaller budget finds the first part of what a larger one finds.**  Its edges are the first
of the other's, everything else it finds is found with the larger budget too, and it decodes just as
many locations as it may, unless there are fewer to decode.  A budget above the number of stored
bytes is as good as none. -/
theorem smaller_budget_begins (s : InstructionSet) (p : Program) (entry : UInt8) {m n : ℕ}
    (h : m ≤ n) :
    (analyze s p entry m).Begins (analyze s p entry n) ∧
      (analyze s p entry m).decoded.length = min m (analyzeAll s p entry).decoded.length ∧
      ∀ k, storedBytes p < k → analyze s p entry k = analyzeAll s p entry :=
  ⟨begins_of_budget_le s p entry h, length_decoded_eq_min s p entry m,
    fun _ => analyze_eq_analyzeAll s p entry⟩

/-- A conditional jump to the instruction behind it, and a jump to where no byte is stored.  The
second location is queued twice and visited once, and the third one costs no budget, but it is
visited only if there is budget left. -/
theorem budget_of_one_begins :
    ∃ program, assemble .standard ".prg 0\nJPIF 1 3\nJUMP 9\n" = .ok program ∧
      (analyze .standard program 0 1).Begins (analyze .standard program 0 3) ∧
      (analyze .standard program 0 1).edges.toList =
        [⟨⟨0, 0⟩, ⟨0, 3⟩, .condJump⟩, ⟨⟨0, 0⟩, ⟨0, 3⟩, .fallthrough⟩] ∧
      (analyze .standard program 0 3).edges.toList =
        [⟨⟨0, 0⟩, ⟨0, 3⟩, .condJump⟩, ⟨⟨0, 0⟩, ⟨0, 3⟩, .fallthrough⟩, ⟨⟨0, 3⟩, ⟨0, 9⟩, .jump⟩] ∧
      (analyze .standard program 0 1).decoded.length = 1 ∧
      (analyzeAll .standard program 0).decoded.length = 2 ∧
      analyze .standard program 0 6 = analyzeAll .standard program 0 := by
  have hrun : (assemble .standard ".prg 0\nJPIF 1 3\nJUMP 9\n").toOption.map
      (fun p => (storedBytes p, (analyze .standard p 0 1).edges.toList,
        (analyze .standard p 0 3).edges.toList,
        (visitOrder .standard p 0 6).countP (isStored p)))
      = some (5, [⟨⟨0, 0⟩, ⟨0, 3⟩, .condJump⟩, ⟨⟨0, 0⟩, ⟨0, 3⟩, .fallthrough⟩],
        [⟨⟨0, 0⟩, ⟨0, 3⟩, .condJump⟩, ⟨⟨0, 0⟩, ⟨0, 3⟩, .fallthrough⟩, ⟨⟨0, 3⟩, ⟨0, 9⟩, .jump⟩],
        2) := by
    decide +kernel
  obtain ⟨program, hassemble, hrun⟩ := Option.map_eq_some_iff.mp hrun
  simp only [Prod.mk.injEq] at hrun
  obtain ⟨hstored, hsmall, hlarge, hcount⟩ := hrun
  obtain ⟨hbegins, hlength, hall⟩ :=
    smaller_budget_begins .standard program 0 (m := 1) (n := 3) (by decide)
  have henough := hall 6 (by omega)
  have htotal : (analyzeAll .standard program 0).decoded.length = 2 := by
    rw [← henough, length_decoded, hcount]
  rw [htotal] at hlength
  exact ⟨program, toOption_eq_some_iff.mp hassemble, hbegins, hsmall, hlarge, hlength, htotal,
    henough⟩

end Protocell.Flow
