import Mathlib.Data.List.Nodup
import Protocell.Proofs.Flow.Visits

/-!
# Proofs/Flow/Order — the order of the visits says what is found

An analysis visits locations in an order (`visitOrder`), and all that it has found by the end of its
budget is a function of it: the locations are decoded as far as they are stored
(`widths_eq_some_iff`), and their passages are the edges, less those on to a next instruction that
comes no later in the order (`mem_edges_iff`).
-/

namespace Protocell.Flow

/-- **The locations that an analysis visits**, first to last. -/
def visitOrder (s : InstructionSet) (p : Program) (entry : UInt8) (budget : ℕ) : List Location :=
  Search.visits s p queueBound budget (({} : Search).enterBank p entry)

section Budget

variable (s : InstructionSet) (p : Program) (entry : UInt8) (budget : ℕ)

/-- **What an analysis has found**, whatever its budget. -/
theorem exact_explore :
    (Search.explore s p queueBound budget (({} : Search).enterBank p entry)).Exact s p entry
      (visitOrder s p entry budget).reverse := by
  rw [← List.append_nil (visitOrder s p entry budget).reverse]
  exact (Search.exact_enterBank s p entry).explore queueBound budget

theorem nodup_visitOrder : (visitOrder s p entry budget).Nodup :=
  List.nodup_reverse.mp (exact_explore s p entry budget).nodup

variable {s p entry budget} {l : Location}

theorem visited_iff : (analyze s p entry budget).visited.get l = true
    ↔ l ∈ visitOrder s p entry budget :=
  ((exact_explore s p entry budget).visited_iff l).trans List.mem_reverse

/-- A location is decoded just if it is visited and a byte is stored there. -/
theorem widths_eq_some_iff {w : ℕ} : (analyze s p entry budget).widths.get l = some w
    ↔ l ∈ visitOrder s p entry budget ∧ widthAt? s p l = some w := by
  rw [analyze, (exact_explore s p entry budget).records.widths_eq, Option.ite_none_right_eq_some,
    List.mem_reverse]

theorem returns_iff : (analyze s p entry budget).returns.get l = true
    ↔ l ∈ visitOrder s p entry budget ∧ (formAt? s p l).any leaves = true :=
  ((exact_explore s p entry budget).records.returns_iff l).trans
    (and_congr_left' List.mem_reverse)

theorem dynamic_iff : (analyze s p entry budget).dynamic.get l = true
    ↔ l ∈ visitOrder s p entry budget ∧ (formAt? s p l).any opens = true :=
  ((exact_explore s p entry budget).records.dynamic_iff l).trans
    (and_congr_left' List.mem_reverse)

theorem edges_eq : (analyze s p entry budget).edges.toList
    = edgesDrawn s p (visitOrder s p entry budget).reverse :=
  (exact_explore s p entry budget).records.edges_eq

/-! ## Edges -/

variable {e : Edge}

/-- **A passage is drawn when the location it is from is visited**, unless it goes on to a location
that is visited by then. -/
theorem mem_edgesDrawn_iff {order : List Location} :
    e ∈ edgesDrawn s p order ↔ ∃ later earlier, order = later ++ e.source :: earlier ∧
      e ∈ passages s p e.source ∧ (e.kind ≠ .fallthrough ∨ e.target ∉ e.source :: earlier) := by
  induction order with
  | nil =>
    refine iff_of_false List.not_mem_nil ?_
    rintro ⟨later, earlier, heq, -⟩
    exact List.append_ne_nil_of_right_ne_nil _ (List.cons_ne_nil _ _) heq.symm
  | cons l order ih =>
    rw [edgesDrawn, List.mem_append, ih, List.mem_filter, Bool.or_eq_true, bne_iff_ne,
      decide_eq_true_iff]
    constructor
    · rintro (⟨later, earlier, rfl, hrest⟩ | ⟨hpassage, hdrawn⟩)
      · exact ⟨l :: later, earlier, rfl, hrest⟩
      · obtain rfl := source_of_mem_passages hpassage
        exact ⟨[], order, rfl, hpassage, hdrawn⟩
    · rintro ⟨later, earlier, heq, hpassage, hdrawn⟩
      rcases later with - | ⟨k, later⟩
      · obtain ⟨rfl, rfl⟩ := List.cons.inj heq
        exact .inr ⟨hpassage, hdrawn⟩
      · obtain ⟨rfl, rfl⟩ := List.cons.inj heq
        exact .inl ⟨later, earlier, rfl, hpassage, hdrawn⟩

/-- What stands in a row before a place, or there, stands no later than it. -/
theorem idxOf_lt_idxOf_iff {α : Type u} [DecidableEq α] {earlier later : List α} {a b : α}
    (ha : a ∉ earlier) :
    (earlier ++ a :: later).idxOf a < (earlier ++ a :: later).idxOf b ↔ b ∉ a :: earlier := by
  rw [List.idxOf_append_of_notMem ha, List.idxOf_cons_self, Nat.add_zero, List.mem_cons, not_or]
  by_cases hb : b ∈ earlier
  · rw [List.idxOf_append_of_mem hb]
    exact iff_of_false (Nat.lt_asymm (List.idxOf_lt_length_of_mem hb)) fun h => h.2 hb
  · rw [List.idxOf_append_of_notMem hb, and_iff_left hb, List.idxOf_cons]
    by_cases hab : a = b
    · subst hab
      rw [cond_eq_ite, if_pos (beq_self_eq_true a)]
      exact iff_of_false (Nat.lt_irrefl _) (not_not_intro rfl)
    · rw [cond_eq_ite, if_neg (by simpa using hab)]
      exact iff_of_true (by omega) (Ne.symm hab)

/-- **The edges of an analysis are the passages of the visited locations**, less those on to a
location that was visited no later. -/
theorem mem_edges_iff :
    e ∈ (analyze s p entry budget).edges.toList ↔
      e.source ∈ visitOrder s p entry budget ∧ e ∈ passages s p e.source ∧
        (e.kind = .fallthrough → (visitOrder s p entry budget).idxOf e.source
          < (visitOrder s p entry budget).idxOf e.target) := by
  have hnodup := nodup_visitOrder s p entry budget
  rw [edges_eq, mem_edgesDrawn_iff]
  generalize visitOrder s p entry budget = order at hnodup
  -- The visits before one are those that stand before it in the order.
  have hdrawn {earlier later : List Location} (horder : order = earlier ++ e.source :: later) :
      order.idxOf e.source < order.idxOf e.target ↔ e.target ∉ e.source :: earlier := by
    subst horder
    exact idxOf_lt_idxOf_iff fun hmem =>
      (List.nodup_append.mp hnodup).2.2 _ hmem _ List.mem_cons_self rfl
  constructor
  · rintro ⟨later, earlier, horder, hpassage, hkind⟩
    rw [List.reverse_eq_iff, List.reverse_append, List.reverse_cons, List.append_assoc] at horder
    refine ⟨horder ▸ by simp, hpassage, fun hfalls => (hdrawn horder).mpr ?_⟩
    simpa using hkind.resolve_left (not_not_intro hfalls)
  · rintro ⟨hsource, hpassage, hkind⟩
    obtain ⟨earlier, later, horder⟩ := List.append_of_mem hsource
    refine ⟨later.reverse, earlier.reverse, by simp [horder], hpassage, ?_⟩
    by_cases hfalls : e.kind = .fallthrough
    · refine .inr ?_
      simpa using (hdrawn horder).mp (hkind hfalls)
    · exact .inl hfalls

theorem nodup_edges : (analyze s p entry budget).edges.toList.Nodup := by
  rw [edges_eq]
  exact nodup_edgesDrawn (exact_explore s p entry budget).nodup

end Budget

end Protocell.Flow
