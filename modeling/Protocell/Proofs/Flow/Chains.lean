import Mathlib.Data.List.Basic
import Protocell.Flow.Block
import Protocell.Proofs.Flow.Successors

/-!
# Proofs/Flow/Chains — a block is a chain of decoded locations

The search for where a block stops follows the decoded locations from its start, one behind the
other.  What it has come by is a chain (`Analysis.Chain`), which start and stop determine
(`Chain.unique`).  The block goes on from each location of the chain to the next
(`Analysis.Continues`) and not from the last, and this is all there is to blocks (`mem_blocks_iff`):
each start that is decoded has one.

Nothing here depends on how the analysis was made; of its widths it is only used that none is zero.
-/

namespace Protocell.Flow

theorem advance_eq_some_iff {l m : Location} {n : ℕ} :
    l.advance n = some m ↔ m.bank = l.bank ∧ m.offset.toNat = l.offset.toNat + n := by
  rw [Location.advance]
  split
  · rename_i hlt
    rw [Option.some.injEq]
    constructor
    · rintro rfl
      exact ⟨rfl, UInt8.toNat_ofNat_of_lt hlt⟩
    · rintro ⟨hbank, hoffset⟩
      obtain ⟨bank, offset⟩ := m
      rw [← hoffset, UInt8.ofNat_toNat, ← hbank]
  · rename_i hge
    refine iff_of_false (Option.some_ne_none m).symm ?_
    rintro ⟨-, hoffset⟩
    exact hge (hoffset ▸ m.offset.toNat_lt)

theorem eq_of_bank_offset {l m : Location} (hbank : l.bank = m.bank)
    (hoffset : l.offset.toNat = m.offset.toNat) : l = m := by
  obtain ⟨bank, offset⟩ := l
  obtain ⟨bank', offset'⟩ := m
  obtain rfl : bank = bank' := hbank
  obtain rfl : offset = offset' := UInt8.toNat_inj.mp hoffset
  rfl

/-- The location at which a block starts. -/
def Block.location (b : Block) : Location := ⟨b.bank, b.start⟩

namespace Analysis

variable {a : Analysis} {k l m : Location} {stop stop' w : ℕ} {ls ls' : List Location}

/-! ## Chains -/

/-- **A chain of decoded locations** from one location on, each right behind the one before, up to
where the last of them ends. -/
inductive Chain (a : Analysis) : Location → ℕ → List Location → Prop
  | last {l : Location} {w : ℕ} (hw : a.widths.get l = some w) :
      a.Chain l (l.offset.toNat + w) [l]
  | cons {l m : Location} {w stop : ℕ} {ls : List Location} (hw : a.widths.get l = some w)
      (hm : l.advance w = some m) (hrest : a.Chain m stop ls) : a.Chain l stop (l :: ls)

/-- No decoded location is without bytes. -/
def HasBytes (a : Analysis) : Prop := ∀ l w, a.widths.get l = some w → 0 < w

namespace Chain

/-- Everything on a chain is decoded. -/
theorem decoded (h : a.Chain l stop ls) : ∀ k ∈ ls, (a.widths.get k).isSome = true := by
  induction h with
  | last hw => exact List.forall_mem_singleton.mpr (hw ▸ rfl)
  | cons hw _ _ ih => exact List.forall_mem_cons.mpr ⟨hw ▸ rfl, ih⟩

theorem head_mem (h : a.Chain l stop ls) : l ∈ ls := by
  cases h with
  | last => exact List.mem_cons_self
  | cons => exact List.mem_cons_self

theorem lt_stop (ha : a.HasBytes) (h : a.Chain l stop ls) : l.offset.toNat < stop := by
  induction h with
  | last hw => exact Nat.lt_add_of_pos_right (ha _ _ hw)
  | cons _ hm _ ih =>
    rw [(advance_eq_some_iff.mp hm).2] at ih
    exact Nat.lt_of_le_of_lt (Nat.le_add_right _ _) ih

/-- **Start and stop determine a chain.** -/
theorem unique (ha : a.HasBytes) (h : a.Chain l stop ls) (h' : a.Chain l stop ls') : ls = ls' := by
  -- A chain that ends does not go on: what is behind it starts where it stops.
  have hends {l m : Location} {w : ℕ} {ls : List Location} (hm : l.advance w = some m)
      (hrest : a.Chain m (l.offset.toNat + w) ls) : False := by
    have hlt := hrest.lt_stop ha
    rw [(advance_eq_some_iff.mp hm).2] at hlt
    exact Nat.lt_irrefl _ hlt
  induction h generalizing ls' with
  | @last l w hw =>
    generalize hstop : l.offset.toNat + w = stop at h'
    cases h' with
    | last => rfl
    | cons hw' hm hrest =>
      obtain rfl := Option.some.inj (hw.symm.trans hw')
      exact (hends hm (hstop ▸ hrest)).elim
  | cons hw hm hrest ih =>
    cases h' with
    | last hw' =>
      obtain rfl := Option.some.inj (hw.symm.trans hw')
      exact (hends hm hrest).elim
    | cons hw' hm' hrest' =>
      obtain rfl := Option.some.inj (hw.symm.trans hw')
      obtain rfl := Option.some.inj (hm.symm.trans hm')
      exact congrArg _ (ih hrest')

end Chain

/-! ## Where blocks go on -/

/-- The location right behind a decoded one, if the bank reaches that far. -/
def next? (a : Analysis) (l : Location) : Option Location := (a.widths.get l).bind l.advance

/-- **The block that has come to a location goes on to the next**: nothing ends it there, and the
next location is decoded and starts no other block. -/
structure Continues (a : Analysis) (l m : Location) : Prop where
  next : a.next? l = some m
  not_end : a.ends.get l = false
  decoded : (a.widths.get m).isSome = true
  not_start : a.starts.get m = false

theorem next?_eq_some_iff : a.next? l = some m ↔ ∃ w, a.widths.get l = some w ∧ m.bank = l.bank ∧
    m.offset.toNat = l.offset.toNat + w := by
  rw [next?, Option.bind_eq_some_iff]
  exact exists_congr fun w => and_congr_right' advance_eq_some_iff

theorem Continues.unique {m' : Location} (h : a.Continues l m) (h' : a.Continues l m') : m = m' :=
  Option.some.inj (h.next.symm.trans h'.next)

theorem Continues.offset_lt (ha : a.HasBytes) (h : a.Continues l m) :
    l.offset.toNat < m.offset.toNat := by
  obtain ⟨w, hw, -, hoffset⟩ := next?_eq_some_iff.mp h.next
  rw [hoffset]
  exact Nat.lt_add_of_pos_right (ha l w hw)

/-- **A chain on which a block goes on** from every location but the last. -/
inductive Straight (a : Analysis) : Location → ℕ → List Location → Prop
  | last {l : Location} {w : ℕ} (hw : a.widths.get l = some w) (hlast : ∀ m, ¬ a.Continues l m) :
      a.Straight l (l.offset.toNat + w) [l]
  | cons {l m : Location} {stop : ℕ} {ls : List Location} (hnext : a.Continues l m)
      (hrest : a.Straight m stop ls) : a.Straight l stop (l :: ls)

namespace Straight

theorem chain (h : a.Straight l stop ls) : a.Chain l stop ls := by
  induction h with
  | last hw _ => exact .last hw
  | cons hnext _ ih =>
    obtain ⟨w, hw, hm⟩ := Option.bind_eq_some_iff.mp hnext.next
    exact .cons hw hm ih

theorem unique (h : a.Straight l stop ls) (h' : a.Straight l stop' ls') :
    stop = stop' ∧ ls = ls' := by
  induction h generalizing ls' with
  | last hw hlast =>
    cases h' with
    | last hw' => exact ⟨congrArg _ (Option.some.inj (hw.symm.trans hw')), rfl⟩
    | cons hnext => exact (hlast _ hnext).elim
  | cons hnext _ ih =>
    cases h' with
    | last _ hlast => exact (hlast _ hnext).elim
    | cons hnext' hrest' =>
      obtain rfl := hnext.unique hnext'
      exact (ih hrest').imp_right (congrArg _)

/-- Where a block goes on from a location of its chain is on the chain. -/
theorem mem_of_continues (h : a.Straight l stop ls) (hk : k ∈ ls) (hnext : a.Continues k m) :
    m ∈ ls := by
  induction h with
  | last _ hlast =>
    obtain rfl := List.mem_singleton.mp hk
    exact (hlast m hnext).elim
  | cons hhead hrest ih =>
    rcases List.mem_cons.mp hk with rfl | hk
    · obtain rfl := hhead.unique hnext
      exact List.mem_cons_of_mem _ hrest.chain.head_mem
    · exact List.mem_cons_of_mem _ (ih hk)

/-- A location on a chain is its start, or the block goes on to it. -/
theorem eq_or_continues (h : a.Straight l stop ls) (hm : m ∈ ls) :
    m = l ∨ ∃ k ∈ ls, a.Continues k m := by
  induction h with
  | last => exact .inl (List.mem_singleton.mp hm)
  | cons hhead _ ih =>
    rcases List.mem_cons.mp hm with rfl | hm
    · exact .inl rfl
    · rcases ih hm with rfl | ⟨k, hk, hnext⟩
      · exact .inr ⟨_, List.mem_cons_self, hhead⟩
      · exact .inr ⟨k, List.mem_cons_of_mem _ hk, hnext⟩

/-- **A block goes on from all locations of its chain but the last.** -/
theorem exists_eq_append (h : a.Straight l stop ls) :
    ∃ init k, ls = init ++ [k] ∧ (∀ m, ¬ a.Continues k m) ∧ ∀ j ∈ init, ∃ m, a.Continues j m := by
  induction h with
  | last _ hlast => exact ⟨[], _, rfl, hlast, fun _ hj => absurd hj List.not_mem_nil⟩
  | cons hnext _ ih =>
    obtain ⟨init, k, rfl, hlast, hinit⟩ := ih
    exact ⟨_ :: init, k, rfl, hlast, List.forall_mem_cons.mpr ⟨⟨_, hnext⟩, hinit⟩⟩

end Straight

/-! ## Blocks -/

theorem stopFrom_succ (starts ends : LocationSet) (n : ℕ) (hw : a.widths.get l = some w) :
    a.stopFrom starts ends (n + 1) l =
      match l.advance w with
      | none => some (l.offset.toNat + w)
      | some m =>
        if ends.get l || (a.widths.get m).isNone || starts.get m then some (l.offset.toNat + w)
        else a.stopFrom starts ends n m := by
  rw [stopFrom, hw]
  rfl

/-- The test by which the search for the stop of a block goes on. -/
theorem continues_iff (hnext : a.next? l = some m) : a.Continues l m ↔
    (a.ends.get l || (a.widths.get m).isNone || a.starts.get m) = false := by
  rw [Bool.or_eq_false_iff, Bool.or_eq_false_iff, Option.isNone_eq_false_iff]
  exact ⟨fun h => ⟨⟨h.not_end, h.decoded⟩, h.not_start⟩, fun h => ⟨hnext, h.1.1, h.1.2, h.2⟩⟩

/-- **The search for the stop of a block finds it**, as there are no more offsets than it may take
steps. -/
theorem exists_straight (ha : a.HasBytes) {n : ℕ} (hn : 256 ≤ l.offset.toNat + n)
    (hw : a.widths.get l = some w) :
    ∃ stop ls, a.stopFrom a.starts a.ends n l = some stop ∧ a.Straight l stop ls := by
  induction n generalizing l w with
  | zero => exact absurd l.offset.toNat_lt (Nat.not_lt.mpr hn)
  | succ n ih =>
    have hnext : a.next? l = l.advance w := by rw [next?, hw, Option.bind_some]
    rw [stopFrom_succ _ _ n hw]
    rcases hm : l.advance w with - | m
    · refine ⟨_, _, rfl, .last hw fun m hgoes => ?_⟩
      rw [hm, hgoes.next] at hnext
      cases hnext
    · rw [hm] at hnext
      have hgoes := continues_iff hnext
      rcases hguard : a.ends.get l || (a.widths.get m).isNone || a.starts.get m with - | -
      · have hnextGoes := hgoes.mpr hguard
        obtain ⟨w', hw'⟩ := Option.isSome_iff_exists.mp hnextGoes.decoded
        have hlt := hnextGoes.offset_lt ha
        obtain ⟨stop, ls, hstop, hrest⟩ := ih (by omega) hw'
        refine ⟨stop, l :: ls, ?_, .cons hnextGoes hrest⟩
        simp only [hguard]
        exact hstop
      · simp only [hguard]
        refine ⟨_, _, rfl, .last hw fun m' hgoes' => ?_⟩
        obtain rfl := Option.some.inj (hnext.symm.trans hgoes'.next)
        exact Bool.false_ne_true ((hgoes.mp hgoes').symm.trans hguard)

/-- **The blocks are the chains from the starts**, each as far as it goes on. -/
theorem mem_blocks_iff (ha : a.HasBytes) {b : Block} :
    b ∈ a.blocks ↔ a.starts.get b.location = true ∧ ∃ ls, a.Straight b.location b.stop ls := by
  rw [blocks, List.mem_filterMap]
  constructor
  · rintro ⟨l, hl, hb⟩
    obtain ⟨stop, hstop, rfl⟩ := Option.map_eq_some_iff.mp hb
    rcases hw : a.widths.get l with - | w
    · rw [stopFrom, hw] at hstop
      cases hstop
    · obtain ⟨stop', ls, hstop', hstraight⟩ := exists_straight ha (Nat.le_add_left 256 _) hw
      obtain rfl := Option.some.inj (hstop.symm.trans hstop')
      exact ⟨LocationSet.mem_members.mp hl, ls, hstraight⟩
  · rintro ⟨hstart, ls, hstraight⟩
    obtain ⟨w, hw⟩ := Option.isSome_iff_exists.mp
      (hstraight.chain.decoded _ hstraight.chain.head_mem)
    obtain ⟨stop, ls', hstop, hstraight'⟩ := exists_straight ha (Nat.le_add_left 256 _) hw
    obtain ⟨rfl, -⟩ := hstraight.unique hstraight'
    exact ⟨b.location, LocationSet.mem_members.mpr hstart, Option.map_eq_some_iff.mpr
      ⟨b.stop, hstop, rfl⟩⟩

/-- Every start that is decoded has a block. -/
theorem exists_block_of_start (ha : a.HasBytes) (hstart : a.starts.get l = true)
    (hl : (a.widths.get l).isSome = true) :
    ∃ b ∈ a.blocks, b.location = l ∧ ∃ ls, a.Straight l b.stop ls := by
  obtain ⟨w, hw⟩ := Option.isSome_iff_exists.mp hl
  obtain ⟨stop, ls, -, hstraight⟩ := exists_straight ha (Nat.le_add_left 256 _) hw
  exact ⟨⟨l.bank, l.offset, stop⟩, (mem_blocks_iff ha).mpr ⟨hstart, ls, hstraight⟩, rfl, ls,
    hstraight⟩

end Analysis

end Protocell.Flow
