import Protocell.Proofs.Flow.Order

/-!
# Proofs/Flow/Discovery — what is visited is linked to the start by edges

The edges of an analysis leave some passages out, but none by which a location was found: a location
is put into the queue together with an edge that leads to it (`Search.draws_of_queues`).  So the
edges link every visited location to the start of the entry bank (`linked_of_visited`).

This is so whatever the budget, and so is that all records are true of the program
(`faithful_analyze`).
-/

namespace Protocell.Flow

/-- **The edges of an analysis link a location to the start** of the entry bank. -/
inductive Analysis.Linked (a : Analysis) (p : Program) (entry : UInt8) : Location → Prop
  /-- The start itself, if the bank is present. -/
  | start (h : p.has entry = true) : a.Linked p entry ⟨entry, 0⟩
  /-- Where an edge from a linked location leads on to. -/
  | edge {e : Edge} (hsource : a.Linked p entry e.source) (he : e ∈ a.edges.toList)
      (hleads : e.leadsOn p = true) : a.Linked p entry e.target

variable {s : InstructionSet} {p : Program} {entry : UInt8}

/-- More edges link more. -/
theorem Analysis.Linked.mono {a b : Analysis} {l : Location} (h : a.Linked p entry l)
    (hsub : ∀ e ∈ a.edges.toList, e ∈ b.edges.toList) : b.Linked p entry l := by
  induction h with
  | start h => exact .start h
  | edge _ he hleads ih => exact .edge ih (hsub _ he) hleads

namespace Search

variable {x : Search} {l : Location} {rest : List Location}

/-- **A passage by which a location is queued is drawn as an edge.** -/
theorem draws_of_queues {e : Edge} (h : x.queues p e = true) : x.draws e = true := by
  rw [queues, Bool.and_eq_true, Bool.or_eq_true, beq_iff_eq] at h
  rw [draws, Bool.or_eq_true, bne_iff_ne]
  exact h.2.imp_left fun hcall hfalls => EdgeKind.noConfusion (hcall.symm.trans hfalls)

/-- Taking up a location leaves everything known linked to the start. -/
theorem linked_takeUp
    (h : ∀ k, x.found.visited.get k = true ∨ k ∈ x.queue → x.found.Linked p entry k)
    (hqueue : x.queue = l :: rest) (k : Location)
    (hk : (takeUp s p x l rest).found.visited.get k = true ∨ k ∈ (takeUp s p x l rest).queue) :
    (takeUp s p x l rest).found.Linked p entry k := by
  have hrest {k : Location} (hk : k ∈ rest) : x.found.Linked p entry k :=
    h k (.inr (hqueue ▸ List.mem_cons_of_mem _ hk))
  rcases hvisited : x.found.visited.get l with - | -
  · rw [takeUp_of_unvisited hvisited] at hk ⊢
    have henters := enters_visit s p { x with queue := rest } l
    have hkeeps (e : Edge) (he : e ∈ x.found.edges.toList) :
        e ∈ (Search.visit s p { x with queue := rest } l).found.edges.toList := by
      rw [henters.edges_eq]
      exact List.mem_append_left _ he
    have hhere := (h l (.inr (hqueue ▸ List.mem_cons_self))).mono hkeeps
    rw [henters.visited_eq, henters.queue_eq] at hk
    rcases hk with hk | hk
    · have hget := get_markVisited { x with queue := rest } l k
      rcases Bool.or_eq_true_iff.mp (hget.symm.trans hk) with heq | hk
      · exact of_decide_eq_true heq ▸ hhere
      · exact (h k (.inl hk)).mono hkeeps
    · rcases List.mem_append.mp hk with hk | hk
      · exact (hrest hk).mono hkeeps
      · obtain ⟨e, he, rfl⟩ := List.mem_map.mp hk
        obtain ⟨hpassage, hqueues⟩ := List.mem_filter.mp he
        have hsource := source_of_mem_passages hpassage
        refine .edge (hsource ▸ hhere) ?_ (Bool.and_eq_true_iff.mp hqueues).1
        rw [henters.edges_eq]
        exact List.mem_append_right _ (List.mem_filter.mpr ⟨hpassage, draws_of_queues hqueues⟩)
  · rw [takeUp_of_visited hvisited] at hk ⊢
    exact hk.elim (fun hk => h k (.inl hk)) hrest

end Search

/-- **Every visited location is linked to the start by edges**, whatever the budget. -/
theorem linked_of_visited {budget : ℕ} {l : Location}
    (hl : (analyze s p entry budget).visited.get l = true) :
    (analyze s p entry budget).Linked p entry l := by
  have hlinked := Search.explore_induction (s := s) (p := p) (x := ({} : Search).enterBank p entry)
    (motive := fun x => ∀ k, x.found.visited.get k = true ∨ k ∈ x.queue →
      x.found.Linked p entry k) ?_ (fun _ _ _ h hqueue => Search.linked_takeUp h hqueue)
    queueBound budget
  · exact hlinked l (.inl hl)
  · intro k hk
    rw [(Search.exact_enterBank s p entry).visited_iff, or_iff_right List.not_mem_nil,
      Search.enterBank_eq] at hk
    cases hpresent : p.has entry with
    | false => simp [hpresent] at hk
    | true =>
      obtain rfl : k = ⟨entry, 0⟩ := by simpa [hpresent] using hk
      exact .start hpresent

/-! ## True records -/

/-- A location that a passage is from has a byte stored. -/
theorem isSome_widthAt?_of_mem_passages {l : Location} {e : Edge} (he : e ∈ passages s p l) :
    (widthAt? s p l).isSome = true := by
  rw [passages] at he
  rw [widthAt?, Option.isSome_map]
  cases hbyte : p.byteAt? l.bank l.offset with
  | none =>
    rw [hbyte] at he
    cases he
  | some opcode => rfl

/-- **What an analysis records is true of the program**, and as complete as it needs to be for the
locations that are decoded. -/
structure Analysis.Faithful (a : Analysis) (s : InstructionSet) (p : Program) (entry : UInt8) :
    Prop where
  widthAt?_eq : ∀ l w, a.widths.get l = some w → widthAt? s p l = some w
  linked : ∀ l, (a.widths.get l).isSome = true → a.Linked p entry l
  entered : p.has entry = true → a.banks.get entry = true
  returns_iff : ∀ l, (a.widths.get l).isSome = true →
    (a.returns.get l = true ↔ (formAt? s p l).any leaves = true)
  dynamic_iff : ∀ l, (a.widths.get l).isSome = true →
    (a.dynamic.get l = true ↔ (formAt? s p l).any opens = true)
  /-- Every edge is a passage from a decoded location. -/
  passage : ∀ e ∈ a.edges.toList,
    (a.widths.get e.source).isSome = true ∧ e ∈ passages s p e.source
  /-- All passages from decoded locations are edges, but some on to the next instruction. -/
  drawn : ∀ l, (a.widths.get l).isSome = true → ∀ e ∈ passages s p l, e.kind ≠ .fallthrough →
    e ∈ a.edges.toList

/-- **The records of an analysis are true**, whatever its budget. -/
theorem faithful_analyze (s : InstructionSet) (p : Program) (entry : UInt8) (budget : ℕ) :
    (analyze s p entry budget).Faithful s p entry := by
  have hvisited {l : Location} (hl : ((analyze s p entry budget).widths.get l).isSome = true) :
      l ∈ visitOrder s p entry budget := by
    obtain ⟨w, hw⟩ := Option.isSome_iff_exists.mp hl
    exact (widths_eq_some_iff.mp hw).1
  refine ⟨fun l w hw => (widths_eq_some_iff.mp hw).2, ?_, ?_, ?_, ?_, ?_, ?_⟩
  · exact fun l hl => linked_of_visited (visited_iff.mpr (hvisited hl))
  · exact fun hpresent => ((exact_explore s p entry budget).records.banks_iff entry).mpr
      ⟨hpresent, .inl rfl⟩
  · exact fun l hl => returns_iff.trans (and_iff_right (hvisited hl))
  · exact fun l hl => dynamic_iff.trans (and_iff_right (hvisited hl))
  · intro e he
    obtain ⟨hsource, hpassage, -⟩ := mem_edges_iff.mp he
    obtain ⟨w, hw⟩ := Option.isSome_iff_exists.mp (isSome_widthAt?_of_mem_passages hpassage)
    exact ⟨Option.isSome_iff_exists.mpr ⟨w, widths_eq_some_iff.mpr ⟨hsource, hw⟩⟩, hpassage⟩
  · intro l hl e he hkind
    obtain rfl := source_of_mem_passages he
    exact mem_edges_iff.mpr ⟨hvisited hl, he, fun hfalls => absurd hfalls hkind⟩

end Protocell.Flow
