import Protocell.Proofs.Flow.Order

/-!
# Proofs/Flow/Closure — an analysis that ends is closed

Two measures see to it that the queue of a search runs empty.  Each location is visited once and
adds two locations to the queue at most (`unvisited`), and each decoding uses up one of the stored
bytes (`unread`), so that a budget above their number is never used up.  One turn of the search
lessens what is left to do (`work_takeUp_lt`, `unread_takeUp_lt`).

When the queue is empty, what is visited is closed under successors (`closed_analyze`).
-/

namespace Protocell.Flow

/-- **The number of bytes that a program stores.** -/
def storedBytes (p : Program) : ℕ := (p.banks.map fun b => b.2.length).sum

/-! ## Counting locations -/

/-- A stricter test passes fewer elements if there is one that it alone refuses. -/
theorem countP_lt_countP {α : Type u} {q q' : α → Bool} {l : List α} {a : α}
    (hsub : ∀ b, q' b = true → q b = true) (ha : a ∈ l) (hq : q a = true) (hq' : q' a = false) :
    l.countP q' < l.countP q := by
  have hmem : a ∈ l.filter q := List.mem_filter.mpr ⟨ha, hq⟩
  have hlt : ((l.filter q).filter q').length < (l.filter q).length :=
    List.length_filter_lt_length_iff_exists.mpr ⟨a, hmem, by rw [hq']; exact Bool.false_ne_true⟩
  have hboth : (fun b => q' b && q b) = q' := by
    funext b
    cases hb : q' b with
    | false => rfl
    | true => rw [hsub b hb, Bool.and_true]
  rw [List.filter_filter, hboth] at hlt
  rw [List.countP_eq_length_filter, List.countP_eq_length_filter]
  exact hlt

theorem length_allBytes : allBytes.length = 256 := by
  rw [allBytes, List.length_map, List.length_range]

theorem length_allLocations : allLocations.length = 256 * 256 := by
  rw [allLocations, List.length_flatMap]
  simp only [List.length_map, length_allBytes, List.map_const', List.sum_replicate_nat]

/-- A bank has as many offsets as it stores bytes. -/
theorem countP_offsets (n : ℕ) (hn : n ≤ 256) :
    allBytes.countP (fun o => decide (o.toNat < n)) = n := by
  have hrange (k : ℕ) (hk : k ≤ 256) :
      (List.range k).countP (fun i => decide ((UInt8.ofNat i).toNat < n)) = min k n := by
    induction k with
    | zero => simp
    | succ k ih =>
      rw [List.range_succ, List.countP_append, ih (by omega), List.countP_singleton,
        UInt8.toNat_ofNat', Nat.mod_eq_of_lt (by omega)]
      split
      · rename_i hlt
        have := of_decide_eq_true hlt
        omega
      · rename_i hge
        have := of_decide_eq_false (Bool.eq_false_iff.mpr hge)
        omega
  rw [allBytes, List.countP_map]
  exact (hrange 256 (Nat.le_refl _)).trans (Nat.min_eq_right hn)

/-- **As many locations are stored as bytes.** -/
theorem countP_stored (p : Program) :
    allLocations.countP (fun l => (p.byteAt? l.bank l.offset).isSome) = storedBytes p := by
  have hbank (b : UInt8) : (allBytes.map fun o => (⟨b, o⟩ : Location)).countP
      (fun l => (p.byteAt? l.bank l.offset).isSome) = ((p.get? b).map List.length).getD 0 := by
    rw [List.countP_map]
    cases hget : p.get? b with
    | none =>
      have hnone : ((fun l : Location => (p.byteAt? l.bank l.offset).isSome) ∘ fun o => ⟨b, o⟩)
          = fun _ => false := by
        funext o
        simp [Program.byteAt?, hget]
      rw [hnone]
      simp
    | some bytes =>
      have hsome : ((fun l : Location => (p.byteAt? l.bank l.offset).isSome) ∘ fun o => ⟨b, o⟩)
          = fun o => decide (o.toNat < bytes.length) := by
        funext o
        rw [Bool.eq_iff_iff]
        simp [Program.byteAt?, hget]
      rw [hsome, countP_offsets _ (Program.length_le_of_get? hget)]
      rfl
  have hsum (bs : List UInt8) : (bs.map fun b => ((p.get? b).map List.length).getD 0).sum
      = (((bs.filter fun b => (p.slots.get b).isSome).filterMap fun b =>
          (p.get? b).map fun bytes => (b, bytes)).map fun b => b.2.length).sum := by
    induction bs with
    | nil => rfl
    | cons b bs ih =>
      rw [List.map_cons, List.sum_cons, ih, List.filter_cons]
      cases hslot : p.slots.get b with
      | none => simp [Program.get?, hslot]
      | some bank => simp [Program.get?, hslot]
  rw [allLocations, List.countP_flatMap, storedBytes, Program.banks, Program.indices,
    ByteTable.indices, ← hsum]
  congr 1
  exact List.map_congr_left fun b _ => hbank b

namespace Search

/-! ## The queue runs empty -/

variable {s : InstructionSet} {p : Program} {x : Search} {l : Location} {rest : List Location}

/-- The number of locations that are not visited. -/
def unvisited (x : Search) : ℕ := allLocations.countP fun l => !x.found.visited.get l

/-- The number of stored bytes at locations that are not visited. -/
def unread (p : Program) (x : Search) : ℕ :=
  allLocations.countP fun l => !x.found.visited.get l && (p.byteAt? l.bank l.offset).isSome

theorem unvisited_markVisited (h : x.found.visited.get l = false) :
    (x.markVisited l).unvisited < x.unvisited := by
  refine countP_lt_countP ?_ (mem_allLocations l) (by rw [h]; rfl) ?_
  · intro k hk
    rw [get_markVisited, Bool.not_or, Bool.and_eq_true] at hk
    exact hk.2
  · rw [get_markVisited, decide_eq_true rfl]
    rfl

theorem unread_markVisited_le (p : Program) (x : Search) (l : Location) :
    (x.markVisited l).unread p ≤ x.unread p := by
  refine List.countP_mono_left fun k _ hk => ?_
  rw [get_markVisited, Bool.not_or, Bool.and_eq_true, Bool.and_eq_true] at hk
  rw [Bool.and_eq_true]
  exact ⟨hk.1.2, hk.2⟩

theorem unread_markVisited (h : x.found.visited.get l = false)
    (hstored : (p.byteAt? l.bank l.offset).isSome = true) :
    (x.markVisited l).unread p < x.unread p := by
  refine countP_lt_countP ?_ (mem_allLocations l) (by rw [h, hstored]; rfl) ?_
  · intro k hk
    rw [get_markVisited, Bool.not_or, Bool.and_eq_true, Bool.and_eq_true] at hk
    rw [Bool.and_eq_true]
    exact ⟨hk.1.2, hk.2⟩
  · rw [get_markVisited, decide_eq_true rfl]
    rfl

/-- Each location taken up leaves less to do: it adds two to the queue at most, and only if it was
not visited. -/
theorem work_takeUp_lt (s : InstructionSet) (p : Program) (hqueue : x.queue = l :: rest) :
    (takeUp s p x l rest).queue.length + 2 * (takeUp s p x l rest).unvisited
      < x.queue.length + 2 * x.unvisited := by
  rw [hqueue, List.length_cons]
  rcases hvisited : x.found.visited.get l with - | -
  · have hless : (Search.markVisited { x with queue := rest } l).unvisited < x.unvisited :=
      unvisited_markVisited (x := { x with queue := rest }) hvisited
    have henters := enters_visit s p { x with queue := rest } l
    have htwo (q : Edge → Bool) : ((passages s p l).filter q).length ≤ 2 :=
      Nat.le_trans (List.length_filter_le q _) (length_passages_le s p l)
    rw [takeUp_of_unvisited hvisited, unvisited, henters.visited_eq, henters.queue_eq,
      List.length_append, List.length_map]
    have hnew := htwo (((Search.markVisited { x with queue := rest } l).note s p l).queues p)
    change rest.length + _ + 2 * (Search.markVisited { x with queue := rest } l).unvisited < _
    omega
  · rw [takeUp_of_visited hvisited]
    change rest.length + 2 * x.unvisited < _
    omega

/-- The budget that a location costs is for a byte that was not read before. -/
theorem unread_takeUp_lt (s : InstructionSet) {budget : ℕ} (hbudget : x.unread p < budget + 1) :
    (takeUp s p x l rest).unread p < if costs p x l then budget else budget + 1 := by
  rw [costs]
  rcases hvisited : x.found.visited.get l with - | -
  · have henters := enters_visit s p { x with queue := rest } l
    rw [takeUp_of_unvisited hvisited, unread, henters.visited_eq]
    change (Search.markVisited { x with queue := rest } l).unread p < _
    rcases hstored : (p.byteAt? l.bank l.offset).isSome with - | -
    · exact Nat.lt_of_le_of_lt (unread_markVisited_le p { x with queue := rest } l) hbudget
    · exact Nat.lt_of_lt_of_le (unread_markVisited (x := { x with queue := rest }) hvisited hstored)
        (Nat.le_of_lt_succ hbudget)
  · rw [takeUp_of_visited hvisited]
    exact hbudget

/-- **A search with enough fuel and budget ends with an empty queue.** -/
theorem queue_explore_eq_nil {n budget : ℕ} (hfuel : x.queue.length + 2 * x.unvisited ≤ n)
    (hbudget : x.unread p < budget) : (explore s p n budget x).queue = [] := by
  induction n generalizing x budget with
  | zero =>
    have hempty : x.queue = [] := List.length_eq_zero_iff.mp (by omega)
    exact hempty
  | succ n ih =>
    rcases hqueue : x.queue with - | ⟨l, rest⟩
    · rw [explore_of_nil (n + 1) budget hqueue]
      exact hqueue
    · obtain ⟨budget, rfl⟩ :=
        Nat.exists_eq_succ_of_ne_zero (Nat.ne_of_gt (Nat.zero_lt_of_lt hbudget))
      have hless := work_takeUp_lt s p hqueue
      rw [Nat.succ_eq_add_one, explore_succ n budget hqueue]
      exact ih (by omega) (unread_takeUp_lt s hbudget)

end Search

/-! ## The analysis -/

/-- **With a budget above the number of stored bytes** an analysis is a search that has nowhere left
to go. -/
theorem exists_search_of_budget (s : InstructionSet) (p : Program) (entry : UInt8) {budget : ℕ}
    (hbudget : storedBytes p < budget) :
    ∃ (order : List Location) (x : Search),
      analyze s p entry budget = x.found ∧ x.queue = [] ∧ x.Exact s p entry order := by
  have hqueue : (({} : Search).enterBank p entry).queue.length ≤ 1 := by
    rw [Search.enterBank]
    split
    · exact Nat.le_refl _
    · exact Nat.zero_le _
  have hunvisited : (({} : Search).enterBank p entry).unvisited ≤ 256 * 256 :=
    Nat.le_trans List.countP_le_length (Nat.le_of_eq length_allLocations)
  have hunread : (({} : Search).enterBank p entry).unread p ≤ storedBytes p := by
    rw [← countP_stored]
    refine List.countP_mono_left fun l _ hl => ?_
    exact (Bool.and_eq_true _ _ ▸ hl).2
  exact ⟨_, _, rfl, Search.queue_explore_eq_nil (by rw [queueBound]; omega)
    (Nat.lt_of_le_of_lt hunread hbudget), exact_explore s p entry budget⟩

/-- **What an analysis with enough budget has found**: a set of locations that holds the entry, is
closed under successors, lies in banks it has noted, and whose open members it has noted. -/
structure Analysis.Closed (a : Analysis) (s : InstructionSet) (p : Program) (entry : UInt8) :
    Prop where
  entered : p.has entry = true → a.visited.get ⟨entry, 0⟩ = true
  closed : ∀ l, a.visited.get l = true → ∀ m ∈ successors s p l, a.visited.get m = true
  banked : ∀ l, a.visited.get l = true → a.banks.get l.bank = true
  opened : ∀ l, a.visited.get l = true → isOpen s p l = true → a.dynamic.get l = true

/-- **An analysis with a budget above the number of stored bytes is closed.** -/
theorem closed_analyze (s : InstructionSet) (p : Program) (entry : UInt8) {budget : ℕ}
    (hbudget : storedBytes p < budget) : (analyze s p entry budget).Closed s p entry := by
  obtain ⟨order, x, heq, hqueue, hexact⟩ := exists_search_of_budget s p entry hbudget
  have hdone {l : Location} : l ∈ order ∨ l ∈ x.queue → l ∈ order :=
    Search.mem_of_queue_eq_nil hqueue
  rw [heq]
  refine ⟨?_, ?_, ?_, ?_⟩
  · exact fun hpresent => (hexact.visited_iff _).mpr (hdone (hexact.entered hpresent))
  · intro l hl m hm
    rw [successors_eq] at hm
    obtain ⟨e, he, rfl⟩ := List.mem_map.mp hm
    obtain ⟨hpassage, hleads⟩ := List.mem_filter.mp he
    exact (hexact.visited_iff _).mpr
      (hdone (hexact.closed l ((hexact.visited_iff l).mp hl) e hpassage hleads))
  · intro l hl
    refine (hexact.reached l (.inl ((hexact.visited_iff l).mp hl))).mem
      (S := {l | x.found.banks.get l.bank = true ∧ l ∈ order}) ?_ ?_ |>.1
    · intro hpresent
      exact ⟨(hexact.records.banks_iff entry).mpr ⟨hpresent, .inl rfl⟩,
        hdone (hexact.entered hpresent)⟩
    · rintro l ⟨hbank, hl⟩ e he hleads
      refine ⟨?_, hdone (hexact.closed l hl e he hleads)⟩
      rcases bank_of_mem_successors (target_mem_successors he hleads) with heq | ⟨hpresent, hcalled⟩
      · exact heq ▸ hbank
      · exact (hexact.records.banks_iff _).mpr ⟨hpresent, .inr ⟨l, hl, hcalled⟩⟩
  · intro l hl hopen
    rw [isOpen_eq] at hopen
    exact (hexact.records.dynamic_iff l).mpr ⟨(hexact.visited_iff l).mp hl, hopen⟩

end Protocell.Flow
