import Mathlib.Data.Set.Defs
import Protocell.Proofs.Flow.Entering

/-!
# Proofs/Flow/Visits — what a search has found

A search takes one location after another off its queue (`takeUp`), and visits those that are new to
it (`visit`).  What it has found by then is a function of the row of its visits, and what can be
reached from there in one passage is visited or queued: this is the invariant of the search
(`Search.Exact`).  Taking up a location keeps it (`Search.Exact.takeUp`), so that it holds however
long the search goes on (`Search.Exact.explore`).
-/

namespace Protocell.Flow

/-- **What can be reached** from the start of a bank. -/
inductive Reached (s : InstructionSet) (p : Program) (entry : UInt8) : Location → Prop
  /-- The start, if the bank is present. -/
  | start (h : p.has entry = true) : Reached s p entry ⟨entry, 0⟩
  /-- Where a passage from a reached location leads on to. -/
  | passage {l : Location} {e : Edge} (hl : Reached s p entry l) (he : e ∈ passages s p l)
      (hleads : e.leadsOn p = true) : Reached s p entry e.target

/-- A set that holds the start and is closed under passages holds what can be reached. -/
theorem Reached.mem {s : InstructionSet} {p : Program} {entry : UInt8} {l : Location}
    (h : Reached s p entry l) {S : Set Location} (hstart : p.has entry = true → ⟨entry, 0⟩ ∈ S)
    (hS : ∀ l ∈ S, ∀ e ∈ passages s p l, e.leadsOn p = true → e.target ∈ S) : l ∈ S := by
  induction h with
  | start h => exact hstart h
  | passage _ he hleads ih => exact hS _ ih _ he hleads

/-- The edges drawn when locations are visited in a row, of which the latest comes first: the
passages from each, less those on to a location that is visited already. -/
def edgesDrawn (s : InstructionSet) (p : Program) : List Location → List Edge
  | [] => []
  | l :: earlier => edgesDrawn s p earlier ++
      (passages s p l).filter fun e => e.kind != .fallthrough || decide (e.target ∉ l :: earlier)

section Edges

variable {s : InstructionSet} {p : Program} {order : List Location}

theorem source_mem_of_mem_edgesDrawn {e : Edge} (h : e ∈ edgesDrawn s p order) :
    e.source ∈ order := by
  induction order with
  | nil => cases h
  | cons l earlier ih =>
    rcases List.mem_append.mp h with h | h
    · exact List.mem_cons_of_mem _ (ih h)
    · rw [source_of_mem_passages (List.mem_of_mem_filter h)]
      exact List.mem_cons_self

/-- **No edge is drawn twice.** -/
theorem nodup_edgesDrawn (h : order.Nodup) : (edgesDrawn s p order).Nodup := by
  induction order with
  | nil => exact List.nodup_nil
  | cons l earlier ih =>
    obtain ⟨hl, hearlier⟩ := List.nodup_cons.mp h
    refine List.nodup_append.mpr ⟨ih hearlier, (nodup_passages s p l).filter _, ?_⟩
    rintro e he e' he' rfl
    refine hl ?_
    rw [← source_of_mem_passages (List.mem_of_mem_filter he')]
    exact source_mem_of_mem_edgesDrawn he

end Edges

namespace Search

/-! ## Taking a location off the queue -/

variable {s : InstructionSet} {p : Program} {entry : UInt8} {x : Search} {l : Location}
  {order rest : List Location}

/-- The search after `l`, the first of its queue, was taken up and `rest` was left. -/
def takeUp (s : InstructionSet) (p : Program) (x : Search) (l : Location) (rest : List Location) :
    Search :=
  if x.found.visited.get l then { x with queue := rest }
  else
    match p.byteAt? l.bank l.offset with
    | some opcode => (Search.markVisited { x with queue := rest } l).decodeAt s p l opcode
    | none => Search.markVisited { x with queue := rest } l

/-- Whether taking up a location costs budget: it is new and a byte is stored there. -/
def costs (p : Program) (x : Search) (l : Location) : Bool :=
  !x.found.visited.get l && (p.byteAt? l.bank l.offset).isSome

theorem takeUp_of_visited (hl : x.found.visited.get l = true) :
    takeUp s p x l rest = { x with queue := rest } := if_pos hl

theorem takeUp_of_unstored (hl : x.found.visited.get l = false)
    (hbyte : p.byteAt? l.bank l.offset = none) :
    takeUp s p x l rest = Search.markVisited { x with queue := rest } l := by
  rw [takeUp, if_neg (Bool.eq_false_iff.mp hl), hbyte]

theorem takeUp_of_stored {opcode : UInt8} (hl : x.found.visited.get l = false)
    (hbyte : p.byteAt? l.bank l.offset = some opcode) :
    takeUp s p x l rest
      = (Search.markVisited { x with queue := rest } l).decodeAt s p l opcode := by
  rw [takeUp, if_neg (Bool.eq_false_iff.mp hl), hbyte]

theorem explore_of_nil (n budget : ℕ) (hqueue : x.queue = []) : explore s p n budget x = x := by
  rcases n with - | n
  · rfl
  · rw [explore.eq_def]
    simp only [hqueue]

theorem explore_succ (n budget : ℕ) (hqueue : x.queue = l :: rest) :
    explore s p (n + 1) (budget + 1) x
      = explore s p n (if costs p x l then budget else budget + 1) (takeUp s p x l rest) := by
  rw [explore.eq_def]
  simp only [hqueue]
  rw [costs]
  rcases hvisited : x.found.visited.get l with - | -
  · rw [if_neg Bool.false_ne_true]
    rcases hbyte : p.byteAt? l.bank l.offset with - | opcode
    · rw [takeUp_of_unstored hvisited hbyte]
      rfl
    · rw [takeUp_of_stored hvisited hbyte]
      rfl
  · rw [if_pos rfl, takeUp_of_visited hvisited]
    rfl

/-- The search after a new location is visited: it is noted, and its passages are entered. -/
def visit (s : InstructionSet) (p : Program) (x : Search) (l : Location) : Search :=
  (passages s p l).foldl (pass p) ((x.markVisited l).note s p l)

theorem enters_visit (s : InstructionSet) (p : Program) (x : Search) (l : Location) :
    Enters p ((x.markVisited l).note s p l) (x.visit s p l) (passages s p l) :=
  enters_foldl_pass _ _

/-- **A new location that is taken up is visited**, whether or not a byte is stored there. -/
theorem takeUp_of_unvisited (hl : x.found.visited.get l = false) :
    takeUp s p x l rest = Search.visit s p { x with queue := rest } l := by
  rw [visit]
  rcases hbyte : p.byteAt? l.bank l.offset with - | opcode
  · rw [takeUp_of_unstored hl hbyte, passages, note, widthAt?, formAt?, hbyte]
    rfl
  · rw [takeUp_of_stored hl hbyte, decodeAt_eq _ p l s hbyte]

/-- What holds of a search and is kept by taking up a location holds for good. -/
theorem explore_induction {motive : Search → Prop} (hx : motive x)
    (htakes : ∀ x l rest, motive x → x.queue = l :: rest → motive (Search.takeUp s p x l rest))
    (n budget : ℕ) : motive (explore s p n budget x) := by
  induction n generalizing x budget with
  | zero => exact hx
  | succ n ih =>
    rcases hqueue : x.queue with - | ⟨l, rest⟩
    · rw [explore_of_nil (n + 1) budget hqueue]
      exact hx
    · cases budget with
      | zero =>
        rw [explore.eq_def]
        simp only [hqueue]
        exact hx
      | succ budget =>
        rw [explore_succ n budget hqueue]
        exact ih (htakes x l rest hx hqueue) _

/-! ## The invariant -/

/-- **Where a search has been and will go**, when it has visited the locations of a row, of which
the latest comes first: both can be reached, and what is one passage behind a visit is among
them. -/
structure Frontier (s : InstructionSet) (p : Program) (entry : UInt8) (order : List Location)
    (x : Search) : Prop where
  nodup : order.Nodup
  visited_iff : ∀ l, x.found.visited.get l = true ↔ l ∈ order
  reached : ∀ l, l ∈ order ∨ l ∈ x.queue → Reached s p entry l
  entered : p.has entry = true → ⟨entry, 0⟩ ∈ order ∨ ⟨entry, 0⟩ ∈ x.queue
  closed : ∀ l ∈ order, ∀ e ∈ passages s p l, e.leadsOn p = true →
    e.target ∈ order ∨ e.target ∈ x.queue

/-- **What has been noted of the locations of a row.** -/
structure Records (s : InstructionSet) (p : Program) (entry : UInt8) (order : List Location)
    (a : Analysis) : Prop where
  widths_eq : ∀ l, a.widths.get l = if l ∈ order then widthAt? s p l else none
  returns_iff : ∀ l, a.returns.get l = true ↔ l ∈ order ∧ (formAt? s p l).any leaves = true
  dynamic_iff : ∀ l, a.dynamic.get l = true ↔ l ∈ order ∧ (formAt? s p l).any opens = true
  banks_iff : ∀ b, a.banks.get b = true ↔
    p.has b = true ∧ (b = entry ∨ ∃ l ∈ order, b ∈ calledBanks (passages s p l))
  missing_iff : ∀ b, a.missing.get b = true ↔
    p.has b = false ∧ (b = entry ∨ ∃ l ∈ order, b ∈ calledBanks (passages s p l))
  edges_eq : a.edges.toList = edgesDrawn s p order

/-- **What a search has found** by the visits of a row. -/
structure Exact (s : InstructionSet) (p : Program) (entry : UInt8) (order : List Location)
    (x : Search) : Prop extends Frontier s p entry order x where
  records : Records s p entry order x.found

/-- When nothing is queued, what is known is visited. -/
theorem mem_of_queue_eq_nil (hqueue : x.queue = []) (hl : l ∈ order ∨ l ∈ x.queue) : l ∈ order :=
  hl.resolve_right (hqueue ▸ List.not_mem_nil)

theorem exact_enterBank (s : InstructionSet) (p : Program) (entry : UInt8) :
    (({} : Search).enterBank p entry).Exact s p entry [] := by
  have hnone (l : Location) (P : Prop) : LocationSet.empty.get l = true ↔ l ∈ [] ∧ P :=
    iff_of_false (by rw [LocationSet.empty, LocationTable.get_fill]; exact Bool.false_ne_true)
      fun h => List.not_mem_nil h.1
  have hbank (q : UInt8 → Bool) (b : UInt8) :
      (if q entry then ByteSet.empty.insert entry else .empty).get b = true
        ↔ q b = true ∧ (b = entry ∨ ∃ l ∈ [], b ∈ calledBanks (passages s p l)) := by
    rw [get_ite_insert_iff_of_test, ByteSet.empty, ByteTable.get_fill,
      or_iff_right Bool.false_ne_true]
    refine and_congr_right fun _ => (or_iff_left ?_).symm
    rintro ⟨l, hl, -⟩
    exact List.not_mem_nil hl
  have hqueue (l : Location) : l ∈ (if p.has entry then [] ++ [⟨entry, 0⟩] else [])
      ↔ p.has entry = true ∧ l = ⟨entry, 0⟩ := by
    cases p.has entry <;> simp
  rw [enterBank_eq]
  refine ⟨⟨List.nodup_nil, ?_, ?_, ?_, ?_⟩, ⟨?_, ?_, ?_, ?_, ?_, rfl⟩⟩
  · intro l
    exact (hnone l True).trans (and_iff_left trivial)
  · rintro l (hl | hl)
    · exact absurd hl List.not_mem_nil
    · obtain ⟨hpresent, rfl⟩ := (hqueue l).mp hl
      exact .start hpresent
  · exact fun hpresent => .inr ((hqueue _).mpr ⟨hpresent, rfl⟩)
  · exact fun l hl => absurd hl List.not_mem_nil
  · exact fun l => LocationTable.get_fill _ l
  · exact fun l => hnone l _
  · exact fun l => hnone l _
  · exact hbank p.has
  · intro b
    rw [← Bool.not_eq_true']
    exact hbank (fun b => !p.has b) b

/-- A location that is visited already is left out. -/
theorem Exact.skip (h : x.Exact s p entry order) (hqueue : x.queue = l :: rest) (hl : l ∈ order) :
    Search.Exact s p entry order { x with queue := rest } := by
  have hknown {k : Location} (hk : k ∈ order ∨ k ∈ x.queue) : k ∈ order ∨ k ∈ rest := by
    rw [hqueue, List.mem_cons] at hk
    rcases hk with hk | rfl | hk
    · exact .inl hk
    · exact .inl hl
    · exact .inr hk
  refine ⟨⟨h.nodup, h.visited_iff, ?_, ?_, ?_⟩, h.records⟩
  · exact fun k hk => h.reached k (hk.imp_right fun hk => hqueue ▸ List.mem_cons_of_mem _ hk)
  · exact fun hpresent => hknown (h.entered hpresent)
  · exact fun k hk e he hleads => hknown (h.closed k hk e he hleads)

theorem get_markVisited (x : Search) (l k : Location) :
    (x.markVisited l).found.visited.get k = (decide (l = k) || x.found.visited.get k) :=
  LocationSet.get_insert _ l k

theorem get_visited_markVisited (hvisited : ∀ k, x.found.visited.get k = true ↔ k ∈ order)
    (l k : Location) : (x.markVisited l).found.visited.get k = true ↔ k ∈ l :: order := by
  rw [get_markVisited, Bool.or_eq_true, decide_eq_true_iff, hvisited, List.mem_cons, eq_comm]

/-- **Visiting a location puts it at the head of the row**, and its passages lead to places that are
visited or queued. -/
theorem Frontier.visit {y : Search} (h : x.Frontier s p entry order)
    (hqueue : x.queue = l :: y.queue) (hfound : y.found = x.found) (hl : l ∉ order) :
    (y.visit s p l).Frontier s p entry (l :: order) := by
  have henters := enters_visit s p y l
  have hvisited (k : Location) : (y.visit s p l).found.visited.get k = true ↔ k ∈ l :: order := by
    rw [henters.visited_eq]
    exact get_visited_markVisited (fun k => hfound ▸ h.visited_iff k) l k
  have hhere : Reached s p entry l := h.reached l (.inr (hqueue ▸ List.mem_cons_self))
  have hknown {k : Location} (hk : k ∈ order ∨ k ∈ x.queue) :
      k ∈ l :: order ∨ k ∈ (y.visit s p l).queue := by
    rw [hqueue, List.mem_cons] at hk
    rcases hk with hk | rfl | hk
    · exact .inl (List.mem_cons_of_mem _ hk)
    · exact .inl List.mem_cons_self
    · exact .inr (henters.queue_eq ▸ List.mem_append_left _ hk)
  refine ⟨List.nodup_cons.mpr ⟨hl, h.nodup⟩, hvisited, ?_, ?_, ?_⟩
  · rintro k (hk | hk)
    · rcases List.mem_cons.mp hk with rfl | hk
      · exact hhere
      · exact h.reached k (.inl hk)
    · rw [henters.queue_eq] at hk
      rcases List.mem_append.mp hk with hk | hk
      · exact h.reached k (.inr (hqueue ▸ List.mem_cons_of_mem _ hk))
      · obtain ⟨e, he, rfl⟩ := List.mem_map.mp hk
        obtain ⟨hpassage, hqueues⟩ := List.mem_filter.mp he
        exact hhere.passage hpassage (Bool.and_eq_true_iff.mp hqueues).1
  · exact fun hpresent => hknown (h.entered hpresent)
  · intro k hk e he hleads
    rcases List.mem_cons.mp hk with rfl | hk
    · rw [← hvisited, henters.visited_eq]
      rcases hseen : ((y.markVisited k).note s p k).found.visited.get e.target with - | -
      · right
        rw [henters.queue_eq]
        refine List.mem_append_right _ (List.mem_map_of_mem (List.mem_filter.mpr ⟨he, ?_⟩))
        rw [queues, hleads, hseen, Bool.not_false, Bool.or_true, Bool.and_true]
      · exact .inl rfl
    · exact hknown (h.closed k hk e he hleads)

/-- **Visiting a location notes what it is and where it leads.** -/
theorem Records.visit (h : Records s p entry order x.found)
    (hvisited : ∀ k, x.found.visited.get k = true ↔ k ∈ order) (hl : l ∉ order) :
    Records s p entry (l :: order) (x.visit s p l).found := by
  have henters := enters_visit s p x l
  have hnoted {q : Form → Bool} {t : LocationSet}
      (ht : ∀ k, t.get k = true ↔ k ∈ order ∧ (formAt? s p k).any q = true) (k : Location) :
      (if (formAt? s p l).any q then t.insert l else t).get k = true
        ↔ k ∈ l :: order ∧ (formAt? s p k).any q = true := by
    rw [get_ite_insert_iff, ht, List.mem_cons, or_and_right, eq_comm (a := k)]
    refine or_congr_left (and_congr_right ?_)
    rintro rfl
    exact Iff.rfl
  have hcalled (b : UInt8) {P : Prop} :
      P ∧ (b = entry ∨ ∃ k ∈ order, b ∈ calledBanks (passages s p k))
          ∨ P ∧ b ∈ calledBanks (passages s p l)
        ↔ P ∧ (b = entry ∨ ∃ k ∈ l :: order, b ∈ calledBanks (passages s p k)) := by
    rw [← and_or_left, or_assoc, List.exists_mem_cons_iff, or_comm (a := ∃ k ∈ order, _)]
  refine ⟨?_, ?_, ?_, ?_, ?_, ?_⟩
  · intro k
    rw [henters.widths_eq, get_widths_note]
    change (if l = k then (widthAt? s p l).or (x.found.widths.get k) else x.found.widths.get k) = _
    rw [h.widths_eq]
    by_cases heq : l = k
    · -- A location without a stored byte keeps its entry, which is empty as it is new.
      subst heq
      rw [if_pos rfl, if_neg hl, Option.or_none, if_pos List.mem_cons_self]
    · simp only [if_neg heq, List.mem_cons, Ne.symm heq, false_or]
  · intro k
    rw [henters.returns_eq]
    exact hnoted h.returns_iff k
  · intro k
    rw [henters.dynamic_eq]
    exact hnoted h.dynamic_iff k
  · intro b
    rw [henters.banks_iff, ← hcalled, ← h.banks_iff]
    rfl
  · intro b
    rw [henters.missing_iff, ← hcalled, ← h.missing_iff]
    rfl
  · rw [henters.edges_eq]
    change x.found.edges.toList ++ _ = _
    rw [h.edges_eq, edgesDrawn]
    congr 1
    refine List.filter_congr fun e _ => ?_
    have hget : (x.markVisited l).found.visited.get e.target = decide (e.target ∈ l :: order) := by
      rw [Bool.eq_iff_iff, get_visited_markVisited hvisited, decide_eq_true_iff]
    rw [decide_not, ← hget]
    rfl

/-- **Taking up a location keeps what is known of the search**, which has visited it then. -/
theorem Exact.takeUp (h : x.Exact s p entry order) (hqueue : x.queue = l :: rest) :
    (Search.takeUp s p x l rest).Exact s p entry
      (if x.found.visited.get l then order else l :: order) := by
  rcases hvisited : x.found.visited.get l with - | -
  · have hl : l ∉ order := mt (h.visited_iff l).mpr (Bool.eq_false_iff.mp hvisited)
    rw [takeUp_of_unvisited hvisited, if_neg Bool.false_ne_true]
    exact ⟨h.toFrontier.visit hqueue rfl hl,
      h.records.visit (x := { x with queue := rest }) h.visited_iff hl⟩
  · rw [takeUp_of_visited hvisited, if_pos rfl]
    exact h.skip hqueue ((h.visited_iff l).mp hvisited)

/-- The locations that a search visits as it goes on, first to last. -/
def visits (s : InstructionSet) (p : Program) : ℕ → ℕ → Search → List Location
  | 0, _, _ => []
  | n + 1, budget, x =>
    match x.queue, budget with
    | [], _ => []
    | _ :: _, 0 => []
    | l :: rest, budget + 1 =>
      let later := visits s p n (if costs p x l then budget else budget + 1) (takeUp s p x l rest)
      if x.found.visited.get l then later else l :: later

/-- What a search has found, however long it has gone on. -/
theorem Exact.explore (h : x.Exact s p entry order) (n budget : ℕ) :
    (explore s p n budget x).Exact s p entry ((visits s p n budget x).reverse ++ order) := by
  induction n generalizing x budget order with
  | zero => exact h
  | succ n ih =>
    rcases hqueue : x.queue with - | ⟨l, rest⟩
    · rw [explore_of_nil (n + 1) budget hqueue, visits.eq_def]
      simp only [hqueue]
      exact h
    · cases budget with
      | zero =>
        rw [explore.eq_def, visits.eq_def]
        simp only [hqueue]
        exact h
      | succ budget =>
        have hnext := ih (h.takeUp hqueue) (if costs p x l then budget else budget + 1)
        rw [explore_succ n budget hqueue, visits.eq_def]
        simp only [hqueue]
        by_cases hvisited : x.found.visited.get l = true
        · rw [if_pos hvisited] at hnext ⊢
          exact hnext
        · rw [if_neg hvisited] at hnext ⊢
          rw [List.reverse_cons, List.append_assoc]
          exact hnext

end Search

end Protocell.Flow
