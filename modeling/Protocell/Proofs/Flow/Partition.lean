import Mathlib.Data.List.Pairwise
import Protocell.Assembly.Draft
import Protocell.InstructionSet.Standard
import Protocell.Proofs.Flow.Chains
import Protocell.Proofs.Flow.Discovery
import Protocell.Proofs.Flow.Onward
import Protocell.Proofs.Success

/-!
# Proofs/Flow/Partition — blocks cover and partition what is decoded

Every decoded location is on the chain of a block, by induction on the edges that link it to the
start (`Faithful.exists_straight_mem`): an edge to a block's start gives it a block of its own, and
along an edge that falls through the block goes on.

If no decoded location lies within another instruction (`Analysis.IsApart`), a location lies right
behind one other at most, so chains do not merge (`Faithful.eq_of_straight_mem`).  A block then ends
just where the code says so (`Faithful.endsAt_iff`), although it is told by the edges, of which some
are left out: the next location can only have been found by the edge on to it or by one that makes
it the start of a block.
-/

namespace Protocell.Flow

/-! ## The order of blocks -/

/-- Whether a location is in a lower bank than another, or in the same bank at a lower offset. -/
def Location.IsBefore (l m : Location) : Prop :=
  l.bank < m.bank ∨ l.bank = m.bank ∧ l.offset < m.offset

theorem pairwise_allLocations : allLocations.Pairwise Location.IsBefore := by
  rw [allLocations, List.pairwise_flatMap]
  constructor
  · intro b _
    rw [List.pairwise_map]
    exact pairwise_allBytes.imp fun hlt => .inr ⟨rfl, hlt⟩
  · refine pairwise_allBytes.imp fun hlt l hl m hm => ?_
    obtain ⟨o, -, rfl⟩ := List.mem_map.mp hl
    obtain ⟨o', -, rfl⟩ := List.mem_map.mp hm
    exact .inl hlt

namespace Analysis

/-- **Blocks stand in the order of their starts**, of which no two are the same. -/
theorem pairwise_blocks (a : Analysis) :
    a.blocks.Pairwise fun b c => b.location.IsBefore c.location := by
  rw [blocks, List.pairwise_filterMap]
  refine (pairwise_allLocations.filter _).imp fun {l m} hlt b hb c hc => ?_
  obtain ⟨stop, -, rfl⟩ := Option.map_eq_some_iff.mp hb
  obtain ⟨stop', -, rfl⟩ := Option.map_eq_some_iff.mp hc
  exact hlt

/-! ## Starts and ends -/

variable {a : Analysis} {s : InstructionSet} {p : Program} {entry : UInt8} {k l m : Location}
  {e : Edge}

theorem get_starts_iff : a.starts.get m = true ↔
    m.offset = 0 ∧ a.banks.get m.bank = true ∨
      ∃ e ∈ a.edges.toList, (e.kind ≠ .fallthrough ∧ e.kind ≠ .dataRef) ∧ e.target = m := by
  rw [starts, LocationSet.get_ofList, List.mem_append]
  refine or_congr ?_ ?_
  · simp only [List.mem_map, ByteSet.members, ByteTable.mem_indices, id_eq]
    constructor
    · rintro ⟨bank, hbank, rfl⟩
      exact ⟨rfl, hbank⟩
    · rintro ⟨hoffset, hbank⟩
      obtain ⟨bank, offset⟩ := m
      exact ⟨bank, hbank, congrArg _ hoffset.symm⟩
  · simp only [targets, List.mem_map, List.mem_filter, Bool.and_eq_true, bne_iff_ne, and_assoc]

theorem mem_sources_iff {kind : EdgeKind} :
    (a.sources (· == kind)).get l = true ↔ ∃ e ∈ a.edges.toList, e.kind = kind ∧ e.source = l := by
  simp only [sources, LocationSet.get_ofList, List.mem_map, List.mem_filter, beq_iff_eq, and_assoc]

theorem get_ends_iff : a.ends.get l = true ↔
    a.returns.get l = true ∨ (∃ e ∈ a.edges.toList, e.kind = .jump ∧ e.source = l) ∨
      a.dynamic.get l = true ∧ ¬ ∃ e ∈ a.edges.toList, e.kind = .fallthrough ∧ e.source = l := by
  rw [ends, LocationSet.get_ofList, List.mem_filter, and_iff_right (mem_allLocations l),
    Bool.or_eq_true, Bool.or_eq_true, Bool.and_eq_true, Bool.not_eq_true', ← Bool.not_eq_true,
    mem_sources_iff, mem_sources_iff, or_assoc]

/-- **A bank entry, or where a branch or call from a decoded location leads.** -/
def IsEntrance (a : Analysis) (s : InstructionSet) (p : Program) (m : Location) : Prop :=
  m.offset = 0 ∧ a.banks.get m.bank = true ∨
    ∃ l, (a.widths.get l).isSome = true ∧ ∃ e ∈ passages s p l,
      (e.kind ≠ .fallthrough ∧ e.kind ≠ .dataRef) ∧ e.target = m

/-- **Whether the code ends a block behind a decoded location**: there is a return or a jump, or the
next location is behind the bank, is not decoded, or can be entered from elsewhere. -/
def EndsAt (a : Analysis) (s : InstructionSet) (p : Program) (l : Location) : Prop :=
  goesOn s p l = false ∨ a.next? l = none ∨
    ∃ m, a.next? l = some m ∧ (a.widths.get m = none ∨ a.IsEntrance s p m)

/-- **No decoded location lies within the bytes of another decoded instruction.** -/
def IsApart (a : Analysis) : Prop :=
  ∀ l m w, a.widths.get l = some w → (a.widths.get m).isSome = true → m.bank = l.bank →
    l.offset < m.offset → l.offset.toNat + w ≤ m.offset.toNat

/-- **A block holds a location** if the location is on the chain from its start to its stop. -/
def Holds (a : Analysis) (b : Block) (l : Location) : Prop :=
  ∃ ls, a.Chain b.location b.stop ls ∧ l ∈ ls

/-- Where instructions are apart, a location lies right behind one other at most. -/
theorem IsApart.eq_of_next? (hapart : a.IsApart) (ha : a.HasBytes) (hk : a.next? k = some m)
    (hl : a.next? l = some m) : k = l := by
  have hnot {k l : Location} (hk : a.next? k = some m) (hl : a.next? l = some m) :
      ¬ k.offset < l.offset := by
    intro hlt
    obtain ⟨w, hw, hbank, hoffset⟩ := next?_eq_some_iff.mp hk
    obtain ⟨w', hw', hbank', hoffset'⟩ := next?_eq_some_iff.mp hl
    have hle := hapart k l w hw (hw' ▸ rfl) (hbank'.symm.trans hbank) hlt
    have hpos := ha l w' hw'
    omega
  obtain ⟨w, -, hbank, -⟩ := next?_eq_some_iff.mp hk
  obtain ⟨w', -, hbank', -⟩ := next?_eq_some_iff.mp hl
  refine eq_of_bank_offset (hbank.symm.trans hbank') ?_
  have hle := UInt8.le_iff_toNat_le.mp (UInt8.not_lt.mp (hnot hk hl))
  have hge := UInt8.le_iff_toNat_le.mp (UInt8.not_lt.mp (hnot hl hk))
  exact Nat.le_antisymm hge hle

namespace Faithful

theorem hasBytes (h : a.Faithful s p entry) : a.HasBytes := by
  intro l w hw
  obtain ⟨opcode, -, rfl⟩ := Option.map_eq_some_iff.mp (h.widthAt?_eq l w hw)
  cases s.decode opcode with
  | none => exact Nat.one_pos
  | some f => exact Nat.add_pos_left Nat.one_pos _

/-- The starts of blocks are read off the code. -/
theorem get_starts_iff (h : a.Faithful s p entry) :
    a.starts.get m = true ↔ a.IsEntrance s p m := by
  rw [Analysis.get_starts_iff, IsEntrance]
  refine or_congr_right ?_
  constructor
  · rintro ⟨e, he, hkind, rfl⟩
    obtain ⟨hsource, hpassage⟩ := h.passage e he
    exact ⟨e.source, hsource, e, hpassage, hkind, rfl⟩
  · rintro ⟨l, hl, e, he, hkind, rfl⟩
    exact ⟨e, h.drawn l hl e he hkind.1, hkind, rfl⟩

/-- An edge that leads on to no start of a block falls through. -/
theorem kind_eq_fallthrough (he : e ∈ a.edges.toList) (hleads : e.leadsOn p = true)
    (hstart : a.starts.get e.target = false) : e.kind = .fallthrough := by
  by_contra hkind
  have hdata : e.kind ≠ .dataRef := by
    intro hdata
    rw [Edge.leadsOn, hdata] at hleads
    cases hleads
  have hstarts := Analysis.get_starts_iff.mpr (.inr ⟨e, he, ⟨hkind, hdata⟩, rfl⟩)
  exact Bool.false_ne_true (hstart.symm.trans hstarts)

/-- The edge on from a location leads to the next one. -/
theorem onward_of_mem (h : a.Faithful s p entry) (he : (⟨k, l, .fallthrough⟩ : Edge) ∈
    a.edges.toList) : goesOn s p k = true ∧ a.next? k = some l := by
  obtain ⟨hsource, hpassage⟩ := h.passage _ he
  obtain ⟨w, hw⟩ := Option.isSome_iff_exists.mp hsource
  obtain ⟨hgoes, hnext⟩ := onward_mem_passages_iff.mp hpassage
  rw [h.widthAt?_eq k w hw] at hnext
  exact ⟨hgoes, by rw [next?, hw]; exact hnext⟩

/-- A block ends at a return and at a jump. -/
theorem get_ends_of_not_goesOn (h : a.Faithful s p entry) (hl : (a.widths.get l).isSome = true)
    (hgoes : goesOn s p l = false) : a.ends.get l = true := by
  obtain ⟨f, hf, hrtn | hjump⟩ := goesOn_eq_false_iff.mp hgoes
  · have hleaves : leaves f = true := decide_eq_true hrtn
    exact get_ends_iff.mpr (.inl ((h.returns_iff l hl).mpr (by rw [hf]; exact hleaves)))
  · rcases hopens : opens f with - | -
    · obtain ⟨o, hpassage⟩ := exists_jump_of_not_opens hf hjump hopens
      exact get_ends_iff.mpr
        (.inr (.inl ⟨_, h.drawn l hl _ hpassage EdgeKind.noConfusion, rfl, rfl⟩))
    · refine get_ends_iff.mpr
        (.inr (.inr ⟨(h.dynamic_iff l hl).mpr (by rw [hf]; exact hopens), ?_⟩))
      rintro ⟨⟨source, target, kind⟩, he, hkind, hsource⟩
      obtain rfl : kind = .fallthrough := hkind
      obtain rfl : source = l := hsource
      exact Bool.false_ne_true (hgoes.symm.trans (h.onward_of_mem he).1)

/-- A block does not end where the edge on to the next location is drawn. -/
theorem get_ends_of_mem (h : a.Faithful s p entry)
    (he : (⟨k, l, .fallthrough⟩ : Edge) ∈ a.edges.toList) : a.ends.get k = false := by
  have hk := (h.passage _ he).1
  have hgoes := (h.onward_of_mem he).1
  rw [← Bool.not_eq_true, get_ends_iff]
  rintro (hreturns | ⟨e, hjump, hkind, rfl⟩ | ⟨-, hfalls⟩)
  · have hleaves := goesOn_of_leaves ((h.returns_iff k hk).mp hreturns)
    exact Bool.false_ne_true (hleaves.symm.trans hgoes)
  · have hjumps := goesOn_of_jump (h.passage e hjump).2 hkind
    exact Bool.false_ne_true (hjumps.symm.trans hgoes)
  · exact hfalls ⟨_, he, rfl, rfl⟩

/-! ## Covering -/

/-- **Every decoded location is on the chain of a block.** -/
theorem exists_straight_mem (h : a.Faithful s p entry) (hl : (a.widths.get l).isSome = true) :
    ∃ b ∈ a.blocks, ∃ ls, a.Straight b.location b.stop ls ∧ l ∈ ls := by
  have hstarts {l : Location} (hl : (a.widths.get l).isSome = true)
      (hstart : a.starts.get l = true) :
      ∃ b ∈ a.blocks, ∃ ls, a.Straight b.location b.stop ls ∧ l ∈ ls := by
    obtain ⟨b, hb, rfl, ls, hstraight⟩ := exists_block_of_start h.hasBytes hstart hl
    exact ⟨b, hb, ls, hstraight, hstraight.chain.head_mem⟩
  induction h.linked l hl with
  | start hpresent =>
    exact hstarts hl (Analysis.get_starts_iff.mpr (.inl ⟨rfl, h.entered hpresent⟩))
  | @edge e hsource he hleads ih =>
    rcases hstart : a.starts.get e.target with - | -
    · obtain ⟨source, target, kind⟩ := e
      obtain rfl : kind = .fallthrough := kind_eq_fallthrough he hleads hstart
      obtain ⟨b, hb, ls, hstraight, hmem⟩ := ih (h.passage _ he).1
      have hgoes : a.Continues source target :=
        ⟨(h.onward_of_mem he).2, h.get_ends_of_mem he, hl, hstart⟩
      exact ⟨b, hb, ls, hstraight, hstraight.mem_of_continues hmem hgoes⟩
    · exact hstarts hl hstart

/-! ## Partitioning -/

/-- **Where instructions are apart, no two blocks share a location.**  The chains of two blocks that
meet come from the same location, down to a start, and behind a start no chain goes on. -/
theorem eq_of_straight_mem (h : a.Faithful s p entry) (hapart : a.IsApart) {b c : Block}
    {ls ls' : List Location} (hb : a.Straight b.location b.stop ls)
    (hc : a.Straight c.location c.stop ls') (hbstart : a.starts.get b.location = true)
    (hcstart : a.starts.get c.location = true) (hl : l ∈ ls) (hl' : l ∈ ls') :
    b.location = c.location := by
  have hnot {k m : Location} (hgoes : a.Continues k m) (hm : a.starts.get m = true) : False :=
    Bool.false_ne_true (hgoes.not_start.symm.trans hm)
  induction hn : l.offset.toNat using Nat.strong_induction_on generalizing l with
  | _ n ih =>
    rcases hb.eq_or_continues hl with rfl | ⟨k, hk, hgoes⟩
    · rcases hc.eq_or_continues hl' with heq | ⟨k', -, hgoes'⟩
      · exact heq
      · exact (hnot hgoes' hbstart).elim
    · rcases hc.eq_or_continues hl' with rfl | ⟨k', hk', hgoes'⟩
      · exact (hnot hgoes hcstart).elim
      · obtain rfl := hapart.eq_of_next? h.hasBytes hgoes.next hgoes'.next
        exact ih _ (hn ▸ hgoes.offset_lt h.hasBytes) hk hk' rfl

/-- **Where instructions are apart, the edge on to a decoded location that starts no block is
drawn**: the location was found by an edge, and it can only be this one. -/
theorem onward_mem_of_next (h : a.Faithful s p entry) (hapart : a.IsApart) (hm : a.next? l = some m)
    (hdecoded : (a.widths.get m).isSome = true) (hstart : a.starts.get m = false) :
    (⟨l, m, .fallthrough⟩ : Edge) ∈ a.edges.toList := by
  cases h.linked m hdecoded with
  | start hpresent =>
    have hentry : a.starts.get ⟨entry, 0⟩ = true :=
      Analysis.get_starts_iff.mpr (.inl ⟨rfl, h.entered hpresent⟩)
    exact (Bool.false_ne_true (hstart.symm.trans hentry)).elim
  | @edge e hsource he hleads =>
    obtain ⟨source, target, kind⟩ := e
    obtain rfl : kind = .fallthrough := kind_eq_fallthrough he hleads hstart
    obtain rfl := hapart.eq_of_next? h.hasBytes (h.onward_of_mem he).2 hm
    exact he

/-- A block does not go on where the code says that it ends. -/
theorem not_continues_of_endsAt (h : a.Faithful s p entry) (hl : (a.widths.get l).isSome = true)
    (hends : a.EndsAt s p l) : ¬ a.Continues l m := by
  intro hgoes
  rcases hends with hstops | hnone | ⟨m', hm, hout⟩
  · exact Bool.false_ne_true (hgoes.not_end.symm.trans (h.get_ends_of_not_goesOn hl hstops))
  · exact nomatch hnone.symm.trans hgoes.next
  · obtain rfl := Option.some.inj (hm.symm.trans hgoes.next)
    rcases hout with hundecoded | hentrance
    · have hdecoded := hgoes.decoded
      rw [hundecoded] at hdecoded
      cases hdecoded
    · exact Bool.false_ne_true (hgoes.not_start.symm.trans (h.get_starts_iff.mpr hentrance))

/-- **Where instructions are apart, a block ends just where the code says so.** -/
theorem endsAt_iff (h : a.Faithful s p entry) (hapart : a.IsApart)
    (hl : (a.widths.get l).isSome = true) : a.EndsAt s p l ↔ ∀ m, ¬ a.Continues l m := by
  refine ⟨fun hends m => h.not_continues_of_endsAt hl hends, fun hlast => ?_⟩
  by_contra hends
  rw [EndsAt, not_or, not_or] at hends
  obtain ⟨-, hsome, hinside⟩ := hends
  obtain ⟨m, hm⟩ := Option.ne_none_iff_exists'.mp hsome
  have hdecoded : (a.widths.get m).isSome = true :=
    Option.isSome_iff_ne_none.mpr fun hnone => hinside ⟨m, hm, .inl hnone⟩
  have hstart : a.starts.get m = false := Bool.eq_false_iff.mpr fun hstart =>
    hinside ⟨m, hm, .inr (h.get_starts_iff.mp hstart)⟩
  have hdrawn := h.onward_mem_of_next hapart hm hdecoded hstart
  exact hlast m ⟨hm, h.get_ends_of_mem hdrawn, hdecoded, hstart⟩

end Faithful

/-! ## What blocks hold -/

/-- What a block holds lies on the chain along which it goes on. -/
theorem holds_iff (ha : a.HasBytes) {b : Block} (hb : b ∈ a.blocks) :
    a.Holds b l ↔ ∃ ls, a.Straight b.location b.stop ls ∧ l ∈ ls := by
  constructor
  · rintro ⟨ls, hchain, hl⟩
    obtain ⟨-, ls', hstraight⟩ := (mem_blocks_iff ha).mp hb
    exact ⟨ls', hstraight, hstraight.chain.unique ha hchain ▸ hl⟩
  · rintro ⟨ls, hstraight, hl⟩
    exact ⟨ls, hstraight.chain, hl⟩

namespace Faithful

theorem exists_holds (h : a.Faithful s p entry) (hl : (a.widths.get l).isSome = true) :
    ∃ b ∈ a.blocks, a.Holds b l := by
  obtain ⟨b, hb, hmem⟩ := h.exists_straight_mem hl
  exact ⟨b, hb, (holds_iff h.hasBytes hb).mpr hmem⟩

/-- Where instructions are apart, blocks that share a location are the same. -/
theorem eq_of_holds (h : a.Faithful s p entry) (hapart : a.IsApart) {b c : Block}
    (hb : b ∈ a.blocks) (hc : c ∈ a.blocks) (hbl : a.Holds b l) (hcl : a.Holds c l) : b = c := by
  obtain ⟨ls, hstraight, hmem⟩ := (holds_iff h.hasBytes hb).mp hbl
  obtain ⟨ls', hstraight', hmem'⟩ := (holds_iff h.hasBytes hc).mp hcl
  have hlocation := h.eq_of_straight_mem hapart hstraight hstraight'
    ((mem_blocks_iff h.hasBytes).mp hb).1 ((mem_blocks_iff h.hasBytes).mp hc).1 hmem hmem'
  obtain ⟨hstop, -⟩ := (hlocation ▸ hstraight).unique hstraight'
  obtain ⟨bank, start, stop⟩ := b
  obtain ⟨bank', start', stop'⟩ := c
  obtain ⟨rfl, rfl⟩ := Location.mk.inj hlocation
  exact congrArg _ hstop

/-- Where instructions are apart, a block ends at the first location of its chain where the code
says so. -/
theorem exists_chain_endsAt (h : a.Faithful s p entry) (hapart : a.IsApart) {b : Block}
    (hb : b ∈ a.blocks) : ∃ init l, a.Chain b.location b.stop (init ++ [l]) ∧ a.EndsAt s p l ∧
      ∀ k ∈ init, ¬ a.EndsAt s p k := by
  obtain ⟨-, ls, hstraight⟩ := (mem_blocks_iff h.hasBytes).mp hb
  obtain ⟨init, l, rfl, hlast, hinit⟩ := hstraight.exists_eq_append
  have hdecoded := hstraight.chain.decoded
  refine ⟨init, l, hstraight.chain, ?_, fun k hk hends => ?_⟩
  · exact (h.endsAt_iff hapart (hdecoded l (by simp))).mpr hlast
  · obtain ⟨m, hgoes⟩ := hinit k hk
    exact h.not_continues_of_endsAt (hdecoded k (by simp [hk])) hends hgoes

end Faithful

end Analysis

/-- Whether instructions are apart can be told from the visited locations. -/
theorem isApart_analyze_iff {s : InstructionSet} {p : Program} {entry : UInt8} {budget : ℕ} :
    (analyze s p entry budget).IsApart ↔
      ∀ l ∈ visitOrder s p entry budget, ∀ m ∈ visitOrder s p entry budget,
        ∀ w ∈ widthAt? s p l, (widthAt? s p m).isSome = true → m.bank = l.bank →
          l.offset < m.offset → l.offset.toNat + w ≤ m.offset.toNat := by
  constructor
  · intro hapart l hl m hm w hw hm'
    obtain ⟨w', hw'⟩ := Option.isSome_iff_exists.mp hm'
    have hdecoded := widths_eq_some_iff.mpr ⟨hm, hw'⟩
    exact hapart l m w (widths_eq_some_iff.mpr ⟨hl, hw⟩)
      (Option.isSome_iff_exists.mpr ⟨w', hdecoded⟩)
  · intro hvisited l m w hw hm
    obtain ⟨hl, hw⟩ := widths_eq_some_iff.mp hw
    obtain ⟨w', hw'⟩ := Option.isSome_iff_exists.mp hm
    obtain ⟨hm, hw'⟩ := widths_eq_some_iff.mp hw'
    exact hvisited l hl m hm w hw (Option.isSome_iff_exists.mpr ⟨w', hw'⟩)

instance (s : InstructionSet) (p : Program) (entry : UInt8) (budget : ℕ) :
    Decidable (analyze s p entry budget).IsApart :=
  decidable_of_iff' _ isApart_analyze_iff

/-- **Blocks cover and partition the decoded code**, whatever the budget.  They stand in the order
of their starts, no two of which are the same, and each decoded location is on the chain of a block.
If no decoded location lies within another instruction, it is on the chain of just one block, and
each block ends with the first instruction of its chain that returns or jumps or behind which the
bank ends, nothing is decoded, or a bank is entered or a branch or call leads. -/
theorem blocks_partition (s : InstructionSet) (p : Program) (entry : UInt8) (budget : ℕ) :
    let a := analyze s p entry budget
    a.blocks.Pairwise (fun b c => b.location.IsBefore c.location) ∧
      (∀ l, (a.widths.get l).isSome = true → ∃ b ∈ a.blocks, a.Holds b l) ∧
      (a.IsApart →
        (∀ l, (a.widths.get l).isSome = true → ∃! b, b ∈ a.blocks ∧ a.Holds b l) ∧
        ∀ b ∈ a.blocks, ∃ init l, a.Chain b.location b.stop (init ++ [l]) ∧ a.EndsAt s p l ∧
          ∀ k ∈ init, ¬ a.EndsAt s p k) := by
  intro a
  have ha : a.Faithful s p entry := faithful_analyze s p entry budget
  refine ⟨a.pairwise_blocks, fun l hl => ha.exists_holds hl, fun hapart =>
    ⟨fun l hl => ?_, fun b hb => ha.exists_chain_endsAt hapart hb⟩⟩
  obtain ⟨b, hb, hbl⟩ := ha.exists_holds hl
  exact ⟨b, ⟨hb, hbl⟩, fun c hc => ha.eq_of_holds hapart hc.1 hb hc.2 hbl⟩

/-- A loop with a branch back to its head and a call out of it. -/
theorem blocks_partition_loop :
    ∃ program, assemble .standard
        ".prg 0\nPUSH 0\n:top\nINC\nJPIF 1 @top\nCALL 1\nJUMP @top\n.prg 1\nRTN\n"
          = .ok program ∧
      let a := analyze .standard program 0 20
      a.IsApart ∧ a.widths.get ⟨0, 6⟩ = some 2 ∧
        (∃! b, b ∈ a.blocks ∧ a.Holds b ⟨0, 6⟩) ∧
        ∀ b ∈ a.blocks, ∃ init l, a.Chain b.location b.stop (init ++ [l]) ∧
          a.EndsAt .standard program l ∧ ∀ k ∈ init, ¬ a.EndsAt .standard program k := by
  have hrun : (assemble .standard
      ".prg 0\nPUSH 0\n:top\nINC\nJPIF 1 @top\nCALL 1\nJUMP @top\n.prg 1\nRTN\n").toOption.map
      (fun p => (decide (analyze .standard p 0 20).IsApart,
        (analyze .standard p 0 20).widths.get ⟨0, 6⟩)) = some (true, some 2) := by decide +kernel
  obtain ⟨program, hassemble, hrun⟩ := Option.map_eq_some_iff.mp hrun
  simp only [Prod.mk.injEq, decide_eq_true_eq] at hrun
  obtain ⟨hapart, hcall⟩ := hrun
  have hpartition := blocks_partition .standard program 0 20
  obtain ⟨hjust, hends⟩ := hpartition.2.2 hapart
  have hdecoded : ((analyze .standard program 0 20).widths.get ⟨0, 6⟩).isSome = true := by
    rw [hcall, Option.isSome_some]
  exact ⟨program, toOption_eq_some_iff.mp hassemble, hapart, hcall, hjust _ hdecoded, hends⟩

end Protocell.Flow
