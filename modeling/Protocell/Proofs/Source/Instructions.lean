import Protocell.Proofs.Folding.Applied
import Protocell.Proofs.Opcodes
import Protocell.Proofs.Source.Spelling
import Protocell.Proofs.Source.Stacking

/-!
# Proofs/Source/Instructions — the instructions of a source

Only a word of a code line becomes an instruction, and it becomes the one that it names.  So every
instruction among the tokens of a draft is one of the set (`Draft.instruction_mem`), whatever other
name it was written with, and the atoms of a section have the instructions of its tokens
(`Section.filterMap_atoms`).
-/

namespace Protocell.Assembly

/-- The instruction that a token is. -/
def Token.instruction? : Token → Option Instruction
  | literal _ => none
  | instruction i => some i

theorem Token.instruction?_eq_some {t : Token} {i : Instruction} :
    t.instruction? = some i ↔ t = .instruction i := by
  cases t with
  | literal l => exact iff_of_false (by rintro ⟨⟩) (by rintro ⟨⟩)
  | instruction j => rw [instruction?, Option.some.injEq, Token.instruction.injEq]

namespace Section

/-- **The instruction words of a bank**, in execution order. -/
def words (b : Section) : List Instruction := b.tokens.filterMap fun t => t.1.instruction?

/-- A token and its atom are the same instruction or none. -/
theorem instruction?_of_resolve {constants : List (String × UInt8)} {b : Section} {t : Token × ℕ}
    {a : Atom} (h : b.resolve constants t = .ok a) : a.instruction? = t.1.instruction? := by
  obtain ⟨u, n⟩ := t
  cases a with
  | instruction i =>
    rw [eq_of_resolve_instruction h]
    rfl
  | byte v =>
    cases u with
    | instruction i => cases h
    | literal l => rfl

/-- **The atoms of a section have the instructions of its tokens.** -/
theorem filterMap_atoms {constants : List (String × UInt8)} {b : Section} {as : List Atom}
    (h : b.atoms constants = .ok as) : as.filterMap Atom.instruction? = b.words := by
  rw [atoms, mapM_eq_ok_iff] at h
  rw [words]
  generalize b.tokens = tokens at h
  induction h with
  | nil => rfl
  | cons ht _ ih => rw [List.filterMap_cons, List.filterMap_cons, instruction?_of_resolve ht, ih]

end Section

namespace Statement

/-- A directive has no instructions among its tokens. -/
theorem instruction_not_mem_of_parseDirective {text : List Char} {ts : List Token} {i : Instruction}
    (h : parseDirective text = .ok (.tokens ts)) : Token.instruction i ∉ ts := by
  rw [parseDirective] at h
  split at h
  · cases h
  · split at h
    · rw [parseBank.eq_def] at h
      split at h
      · cases h
      · split at h
        · cases h
        · cases h
    · split at h
      · obtain ⟨literals, -, hts⟩ := bind_eq_ok_iff.mp h
        obtain rfl := Statement.tokens.inj (Except.ok.inj hts)
        intro hi
        obtain ⟨l, -, hl⟩ := List.mem_map.mp hi
        cases hl
      · split at h
        · rw [parseOrigin.eq_def] at h
          split at h
          · cases h
          · split at h
            · cases h
            · cases h
            · cases h
        · split at h
          · rw [parseText] at h
            split at h
            · obtain rfl := Statement.tokens.inj (Except.ok.inj h)
              intro hi
              obtain ⟨v, -, hv⟩ := List.mem_map.mp hi
              cases hv
            · cases h
          · cases h

/-- **An instruction among the tokens of a line is named there.** -/
theorem exists_lookup_of_parse? {s : InstructionSet} {line : List Char} {ts : List Token}
    {i : Instruction} (h : parse? s line = .ok (some (.tokens ts)))
    (hi : Token.instruction i ∈ ts) : ∃ name, s.lookup name = some i := by
  rw [parse?] at h
  split at h
  · cases h
  · obtain ⟨statement, hparse, hstatement⟩ := map_eq_ok_iff.mp h
    obtain rfl := Option.some.inj hstatement
    exact absurd hi (instruction_not_mem_of_parseDirective hparse)
  · obtain ⟨statement, hparse, hstatement⟩ := map_eq_ok_iff.mp h
    obtain rfl := Option.some.inj hstatement
    rw [parseLabel] at hparse
    split at hparse
    · cases hparse
    · cases hparse
  · obtain ⟨statement, hparse, hstatement⟩ := map_eq_ok_iff.mp h
    obtain rfl := Option.some.inj hstatement
    obtain ⟨us, hus, hreverse⟩ := bind_eq_ok_iff.mp hparse
    obtain rfl := Statement.tokens.inj (Except.ok.inj hreverse)
    obtain ⟨word, -, hword⟩ := exists_of_mapM_eq_ok hus (List.mem_reverse.mp hi)
    exact ⟨_, Token.lookup_of_parse hword⟩

end Statement

namespace Draft

/-- Where a token comes from that is there after a statement: it was there before, it is one of the
statement's, or it is a zero put in up to an offset. -/
theorem mem_tokens_of_add {d d' : Draft} {n : ℕ} {statement : Statement}
    (h : d.add n statement = .ok d') {b : Section} (hb : b ∈ d'.sections) {t : Token × ℕ}
    (ht : t ∈ b.tokens) :
    (∃ c ∈ d.sections, t ∈ c.tokens) ∨ (∃ ts, statement = .tokens ts ∧ t.1 ∈ ts) ∨
      t.1 = .byte 0 := by
  have hcurrent {c c' : Section} {cs : List Section} {more : List (Token × ℕ)}
      (hsections : d.sections = c :: cs) (hsections' : d'.sections = c' :: cs)
      (hmore : c'.tokens = c.tokens ++ more) : (∃ c ∈ d.sections, t ∈ c.tokens) ∨ t ∈ more := by
    rw [hsections', List.mem_cons] at hb
    rcases hb with rfl | hb
    · rw [hmore] at ht
      rcases List.mem_append.mp ht with ht | ht
      · exact .inl ⟨c, hsections ▸ List.mem_cons_self, ht⟩
      · exact .inr ht
    · exact .inl ⟨b, hsections ▸ List.mem_cons_of_mem _ hb, ht⟩
  cases statement with
  | bank index name =>
    obtain ⟨-, -, rfl⟩ := begin_eq_ok_iff.mp h
    rcases List.mem_cons.mp hb with rfl | hb
    · exact absurd ht List.not_mem_nil
    · exact .inl ⟨b, hb, ht⟩
  | label name =>
    obtain ⟨c, c', cs, hsections, hdefine, rfl⟩ := modifyCurrent_eq_ok h
    rw [Section.define_eq_ok hdefine] at hb hcurrent
    refine (hcurrent hsections rfl (List.append_nil _).symm).imp_right ?_
    exact fun ht => absurd ht List.not_mem_nil
  | tokens ts =>
    obtain ⟨c, cs, hsections, hsections'⟩ := add_tokens h
    refine (hcurrent hsections hsections' rfl).imp_right fun ht => .inl ⟨ts, rfl, ?_⟩
    obtain ⟨u, hu, rfl⟩ := List.mem_map.mp ht
    exact hu
  | origin offset =>
    obtain ⟨c, c', cs, hsections, hadvance, rfl⟩ := modifyCurrent_eq_ok h
    rw [Section.advance] at hadvance
    split at hadvance
    · cases hadvance
    · rw [Section.extend_eq_ok hadvance] at hb hcurrent
      refine (hcurrent hsections rfl rfl).imp_right fun ht => .inr ?_
      obtain ⟨u, hu, rfl⟩ := List.mem_map.mp ht
      exact List.eq_of_mem_replicate hu

/-- **The instructions of a source are those of the set.** -/
theorem instruction_mem {s : InstructionSet} (hs : s.Lawful) {lines : List (List Char)} {d : Draft}
    (h : ofLines s lines = .ok d) {b : Section} (hb : b ∈ d.sections) {i : Instruction}
    (hi : i ∈ b.words) : i ∈ s.instructions := by
  have hdraft : ∀ b ∈ d.sections, ∀ t ∈ b.tokens, t.1.instruction? = some i →
      i ∈ s.instructions := by
    refine foldlM_induction (P := fun d => ∀ b ∈ d.sections, ∀ t ∈ b.tokens,
      t.1.instruction? = some i → i ∈ s.instructions) h ?_ (fun b hb => absurd hb List.not_mem_nil)
    intro l _ d d' hd hline b hb t ht hi
    rcases addLine_eq_ok hline with ⟨-, rfl⟩ | ⟨statement, hparse, hadd⟩
    · exact hd b hb t ht hi
    · rcases mem_tokens_of_add hadd hb ht with ⟨c, hc, ht⟩ | ⟨ts, rfl, ht⟩ | hzero
      · exact hd c hc t ht hi
      · rw [Token.instruction?_eq_some.mp hi] at ht
        obtain ⟨name, hname⟩ := Statement.exists_lookup_of_parse? hparse ht
        exact hs.lookup_mem hname
      · rw [hzero] at hi
        cases hi
  obtain ⟨t, ht, hi⟩ := List.mem_filterMap.mp hi
  exact hdraft b hb t ht hi

end Draft

end Protocell.Assembly
