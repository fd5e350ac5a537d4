import Protocell.Proofs.Source.Numbering

/-!
# Proofs/Source/Stacking — one draft over another

Lines that begin a bank do not see what was read before them, but for the banks and names that are
taken.  So reading them on top of a draft is reading them on their own and putting the one draft
over the other, which works just if the two are apart (`readLines?_eq_some_iff`).

Three kinds of lines are told apart for this: those that change nothing, those that change the bank
begun last, and those that begin a bank (`readLine?_eq_some`).
-/

namespace Protocell.Assembly

/-- A line that begins a bank: it starts with a dot, and `prg` is the first word behind that. -/
def BeginsBank (line : List Char) : Prop :=
  (Text.trim (stripComment line)).head? = some '.' ∧
    (Text.words (Text.trim (stripComment line)).tail).head? = some "prg".toList

/-- A line that is blank but for a comment. -/
def IsBlank (line : List Char) : Prop := Text.trim (stripComment line) = []

instance : DecidablePred BeginsBank := fun _ => inferInstanceAs (Decidable (_ ∧ _))

instance : DecidablePred IsBlank := fun _ => inferInstanceAs (Decidable (_ = []))

/-- What is read off a line that begins a bank is the beginning of a bank. -/
theorem BeginsBank.exists_bank {s : InstructionSet} {line : List Char} {st : Option Statement}
    (h : BeginsBank line) (hparse : Statement.parse? s line = .ok st) :
    ∃ bank name, st = some (.bank bank name) := by
  obtain ⟨hdot, hword⟩ := h
  obtain ⟨text, htext⟩ := List.head?_eq_some_iff.mp hdot
  rw [htext, List.tail_cons] at hword
  obtain ⟨operands, hwords⟩ := List.head?_eq_some_iff.mp hword
  rw [Statement.parse?, htext] at hparse
  simp only [Statement.parseDirective, hwords, if_true] at hparse
  cases operands with
  | nil => cases hparse
  | cons index rest =>
    rw [Statement.parseBank] at hparse
    split at hparse
    · exact ⟨_, _, (Except.ok.inj hparse).symm⟩
    · cases hparse

namespace Draft

/-- The sections and names of one draft, and under them those of another. -/
def above (d e : Draft) : Draft := ⟨d.sections ++ e.sections, d.constants ++ e.constants⟩

/-- **Two drafts have no bank and no name in common.** -/
structure Apart (d e : Draft) : Prop where
  banks : ∀ b ∈ d.sections, ∀ c ∈ e.sections, b.bank ≠ c.bank
  names : ∀ x ∈ d.constants, ∀ y ∈ e.constants, x.1 ≠ y.1

theorem Apart.symm {d e : Draft} (h : d.Apart e) : e.Apart d where
  banks c hc b hb := (h.banks b hb c hc).symm
  names y hy x hx := (h.names x hx y hy).symm

/-- The beginning of a bank takes a bank and at most one name, which must both be free. -/
theorem begin_eq_ok_iff {d d' : Draft} {n : ℕ} {bank : UInt8} {name : Option String} :
    d.begin n bank name = .ok d' ↔ (∀ b ∈ d.sections, b.bank ≠ bank) ∧
      (∀ k ∈ name, ∀ x ∈ d.constants, x.1 ≠ k) ∧
      d' = above ⟨[{ bank, line := n }], (name.map fun k => (k, bank)).toList⟩ d := by
  have hany : (d.sections.any fun b => b.bank == bank) = true ↔
      ¬ ∀ b ∈ d.sections, b.bank ≠ bank := by
    simp only [List.any_eq_true, beq_iff_eq, not_forall, Classical.not_not, exists_prop]
  rw [begin.eq_def]
  split
  · rename_i htaken
    exact iff_of_false (by rintro ⟨⟩) fun h => hany.mp htaken h.1
  · rename_i hfree
    rw [hany, Classical.not_not] at hfree
    cases name with
    | none =>
      exact ⟨
        fun h => ⟨hfree, fun k hk => absurd hk (Option.not_mem_none k), (Except.ok.inj h).symm⟩,
        fun h => congrArg Except.ok h.2.2.symm⟩
    | some name =>
      have hlookup : (d.constants.lookup name).isSome = true ↔
          ¬ ∀ k ∈ some name, ∀ x ∈ d.constants, x.1 ≠ k := by
        rw [← not_iff_not, Classical.not_not, Bool.not_eq_true, Option.isSome_eq_false_iff,
          Option.isNone_iff_eq_none, List.lookup_eq_none_iff]
        simp only [Option.mem_some_iff, forall_eq', bne_iff_ne, ne_comm]
      simp only
      split
      · rename_i htaken
        exact iff_of_false (by rintro ⟨⟩) fun h => hlookup.mp htaken h.2.1
      · rename_i hnew
        rw [hlookup, Classical.not_not] at hnew
        exact ⟨fun h => ⟨hfree, hnew, (Except.ok.inj h).symm⟩,
          fun h => congrArg Except.ok h.2.2.symm⟩

/-- What begins no bank changes the bank begun last, and keeps its number. -/
theorem modifyCurrent_of_add {d d' : Draft} {n : ℕ} {statement : Statement}
    (h : d.add n statement = .ok d') (hbank : ∀ bank name, statement ≠ .bank bank name) :
    ∃ b b' bs, d.sections = b :: bs ∧ b'.bank = b.bank ∧ d' = { d with sections := b' :: bs } := by
  cases statement with
  | bank index name => exact absurd rfl (hbank index name)
  | label name =>
    obtain ⟨b, b', bs, hsections, hchange, rfl⟩ := modifyCurrent_eq_ok h
    exact ⟨b, b', bs, hsections, by rw [Section.define_eq_ok hchange], rfl⟩
  | tokens ts =>
    obtain ⟨b, b', bs, hsections, hchange, rfl⟩ := modifyCurrent_eq_ok h
    exact ⟨b, b', bs, hsections, by rw [Section.extend_eq_ok hchange], rfl⟩
  | origin offset =>
    obtain ⟨b, b', bs, hsections, hchange, rfl⟩ := modifyCurrent_eq_ok h
    refine ⟨b, b', bs, hsections, ?_, rfl⟩
    rw [Section.advance] at hchange
    split at hchange
    · cases hchange
    · rw [Section.extend_eq_ok hchange]

/-- Only the number of a section and the names decide what a draft is apart from. -/
theorem apart_cons_iff {b b' : Section} {bs : List Section} {constants : List (String × UInt8)}
    {e : Draft} (h : b'.bank = b.bank) :
    Apart ⟨b' :: bs, constants⟩ e ↔ Apart ⟨b :: bs, constants⟩ e := by
  have hsides (bs' : List Section) : Apart ⟨bs', constants⟩ e ↔
      (∀ b ∈ bs', ∀ c ∈ e.sections, b.bank ≠ c.bank) ∧
        ∀ x ∈ constants, ∀ y ∈ e.constants, x.1 ≠ y.1 :=
    ⟨fun h => ⟨h.banks, h.names⟩, fun h => ⟨h.1, h.2⟩⟩
  rw [hsides, hsides, List.forall_mem_cons, List.forall_mem_cons, h]

theorem apart_above_iff {d e f : Draft} : (d.above e).Apart f ↔ d.Apart f ∧ e.Apart f := by
  constructor
  · rintro ⟨hbanks, hnames⟩
    obtain ⟨hd, he⟩ := List.forall_mem_append.mp hbanks
    obtain ⟨hd', he'⟩ := List.forall_mem_append.mp hnames
    exact ⟨⟨hd, hd'⟩, ⟨he, he'⟩⟩
  · rintro ⟨hd, he⟩
    exact ⟨List.forall_mem_append.mpr ⟨hd.banks, he.banks⟩,
      List.forall_mem_append.mpr ⟨hd.names, he.names⟩⟩

theorem above_assoc (d e f : Draft) : (d.above e).above f = d.above (e.above f) := by
  simp only [above, List.append_assoc]

/-! ## Reading on top of a draft -/

theorem readLine?_of_isBlank {line : List Char} (h : IsBlank line) (s : InstructionSet)
    (d : Draft) : readLine? s d line = some d := by
  rw [readLine?, Statement.parse?, h]

/-- Lines that are blank but for comments change nothing. -/
theorem readLines?_of_isBlank {lines : List (List Char)} (h : ∀ line ∈ lines, IsBlank line)
    (s : InstructionSet) (d : Draft) : readLines? s d lines = some d := by
  induction lines with
  | nil => rfl
  | cons line lines ih =>
    obtain ⟨hline, hlines⟩ := List.forall_mem_cons.mp h
    rw [readLines?, List.foldlM_cons, readLine?_of_isBlank hline]
    exact ih hlines

/-- What begins a bank on top of a draft begins it anywhere, if the bank and the name are free. -/
theorem begin_above {d e c : Draft} (hde : d.Apart e) {n : ℕ} {bank : UInt8}
    {name : Option String} :
    (d.above e).begin n bank name = .ok c ↔
      ∃ d', d.begin n bank name = .ok d' ∧ d'.Apart e ∧ c = d'.above e := by
  simp only [begin_eq_ok_iff]
  constructor
  · rintro ⟨hbank, hname, rfl⟩
    obtain ⟨hbank, hbank'⟩ := List.forall_mem_append.mp hbank
    have hnew : Apart ⟨[{ bank, line := n }], (name.map fun k => (k, bank)).toList⟩ e := by
      refine ⟨List.forall_mem_singleton.mpr fun b hb => (hbank' b hb).symm, ?_⟩
      intro x hx y hy
      obtain ⟨k, hk, rfl⟩ := Option.map_eq_some_iff.mp (Option.mem_toList.mp hx)
      exact (hname k hk y (List.mem_append_right _ hy)).symm
    refine ⟨_, ⟨hbank, fun k hk x hx => hname k hk x (List.mem_append_left _ hx), rfl⟩,
      apart_above_iff.mpr ⟨hnew, hde⟩, (above_assoc _ _ _).symm⟩
  · rintro ⟨_, ⟨hbank, hname, rfl⟩, hapart, rfl⟩
    obtain ⟨⟨hbanks, hnames⟩, -⟩ := apart_above_iff.mp hapart
    refine ⟨List.forall_mem_append.mpr ⟨hbank, ?_⟩, ?_, above_assoc _ _ _⟩
    · exact fun b hb => (hbanks _ List.mem_cons_self b hb).symm
    · intro k hk
      refine List.forall_mem_append.mpr ⟨hname k hk, fun y hy => ?_⟩
      have hmem : (k, bank) ∈ (name.map fun k => (k, bank)).toList :=
        Option.mem_toList.mpr (Option.map_eq_some_iff.mpr ⟨k, hk, rfl⟩)
      exact (hnames _ hmem y hy).symm

/-- What begins no bank sees the bank begun last alone. -/
theorem add_above {d : Draft} (e : Draft) (hd : d.sections ≠ []) {n : ℕ} {statement : Statement}
    (hbank : ∀ bank name, statement ≠ .bank bank name) :
    (d.above e).add n statement = (d.add n statement).map fun d' => d'.above e := by
  have hmodify (change : Section → Except Cause Section) :
      (d.above e).modifyCurrent change = (d.modifyCurrent change).map fun d' => d'.above e := by
    obtain ⟨bs, constants⟩ := d
    cases bs with
    | nil => exact absurd rfl hd
    | cons b bs =>
      change (change b).map _ = ((change b).map _).map _
      cases change b with
      | error e => rfl
      | ok b' => rfl
  cases statement with
  | bank index name => exact absurd rfl (hbank index name)
  | label name => exact hmodify _
  | tokens ts => exact hmodify _
  | origin offset => exact hmodify _

variable {s : InstructionSet}

/-- **What a line does to a draft**: nothing, or it changes the bank begun last, or it begins a
bank. -/
theorem readLine?_eq_some {d d' : Draft} {line : List Char} (h : readLine? s d line = some d') :
    d' = d ∨
      (∃ b b' bs, d.sections = b :: bs ∧ b'.bank = b.bank ∧
        d' = { d with sections := b' :: bs }) ∨
      ∃ bank name, d.begin 0 bank name = .ok d' := by
  rw [readLine?] at h
  split at h
  · cases h
  · exact .inl (Option.some.inj h).symm
  · rename_i statement _
    rw [toOption_eq_some_iff] at h
    by_cases hbank : ∀ bank name, statement ≠ .bank bank name
    · exact .inr (.inl (modifyCurrent_of_add h hbank))
    · simp only [not_forall, Classical.not_not] at hbank
      obtain ⟨bank, name, rfl⟩ := hbank
      exact .inr (.inr ⟨bank, name, h⟩)

theorem Apart.of_readLine? {d d' e : Draft} {line : List Char} (h : readLine? s d line = some d')
    (hd' : d'.Apart e) : d.Apart e := by
  rcases readLine?_eq_some h with rfl | ⟨b, b', bs, hsections, hbank, rfl⟩ | ⟨bank, name, hbegin⟩
  · exact hd'
  · obtain ⟨_, constants⟩ := d
    obtain rfl := hsections
    exact (apart_cons_iff hbank).mp hd'
  · obtain ⟨-, -, rfl⟩ := begin_eq_ok_iff.mp hbegin
    exact (apart_above_iff.mp hd').2

theorem sections_ne_nil_of_readLine? {d d' : Draft} {line : List Char}
    (h : readLine? s d line = some d') (hd : d.sections ≠ [] ∨ BeginsBank line) :
    d'.sections ≠ [] := by
  rcases hd with hd | hbegins
  · rcases readLine?_eq_some h with rfl | ⟨b, b', bs, -, -, rfl⟩ | ⟨bank, name, hbegin⟩
    · exact hd
    · exact List.cons_ne_nil _ _
    · obtain ⟨-, -, rfl⟩ := begin_eq_ok_iff.mp hbegin
      exact List.cons_ne_nil _ _
  · rw [readLine?] at h
    split at h
    · cases h
    · obtain ⟨bank, name, heq⟩ := hbegins.exists_bank ‹_›
      cases heq
    · obtain ⟨bank, name, heq⟩ := hbegins.exists_bank ‹_›
      obtain rfl := Option.some.inj heq
      obtain ⟨-, -, rfl⟩ := begin_eq_ok_iff.mp (toOption_eq_some_iff.mp h)
      exact List.cons_ne_nil _ _

/-- **A line that begins a bank, or stands behind one, does not see what is under the draft**, but
for the banks and names that are taken. -/
theorem readLine?_above {d e c : Draft} (hde : d.Apart e) {line : List Char}
    (hd : d.sections ≠ [] ∨ BeginsBank line) :
    readLine? s (d.above e) line = some c ↔
      ∃ d', readLine? s d line = some d' ∧ d'.Apart e ∧ c = d'.above e := by
  simp only [readLine?]
  cases hparse : Statement.parse? s line with
  | error cause => exact iff_of_false (by rintro ⟨⟩) (by rintro ⟨_, ⟨⟩, _⟩)
  | ok statement? =>
    cases statement? with
    | none =>
      simp only [Option.some.injEq, exists_eq_left', hde, true_and]
      exact eq_comm
    | some statement =>
      simp only [toOption_eq_some_iff]
      by_cases hbank : ∀ bank name, statement ≠ .bank bank name
      · have hne : d.sections ≠ [] := by
          refine hd.resolve_right fun hbegins => ?_
          obtain ⟨bank, name, heq⟩ := hbegins.exists_bank hparse
          exact hbank bank name (Option.some.inj heq)
        rw [add_above e hne hbank]
        cases hadd : d.add 0 statement with
        | error cause => exact iff_of_false (by rintro ⟨⟩) (by rintro ⟨_, ⟨⟩, _⟩)
        | ok d' =>
          obtain ⟨b, b', bs, hsections, heq, rfl⟩ := modifyCurrent_of_add hadd hbank
          have hapart : Apart { d with sections := b' :: bs } e := by
            refine (apart_cons_iff heq).mpr ?_
            rw [← hsections]
            exact hde
          simp only [Except.map, Except.ok.injEq, exists_eq_left', hapart, true_and]
          exact eq_comm
      · simp only [not_forall, Classical.not_not] at hbank
        obtain ⟨bank, name, rfl⟩ := hbank
        exact begin_above hde

theorem Apart.of_readLines? {d d' e : Draft} {lines : List (List Char)}
    (h : readLines? s d lines = some d') (hd' : d'.Apart e) : d.Apart e := by
  induction lines generalizing d with
  | nil =>
    obtain rfl := Option.some.inj h
    exact hd'
  | cons line lines ih =>
    rw [readLines?, List.foldlM_cons] at h
    obtain ⟨d₁, h₁, h⟩ := Option.bind_eq_some_iff.mp h
    exact (ih h).of_readLine? h₁

/-- Lines behind the beginning of a bank do not see what is under the draft. -/
theorem readLines?_above {d e c : Draft} (hde : d.Apart e) (hd : d.sections ≠ [])
    {lines : List (List Char)} :
    readLines? s (d.above e) lines = some c ↔
      ∃ d', readLines? s d lines = some d' ∧ d'.Apart e ∧ c = d'.above e := by
  induction lines generalizing d with
  | nil =>
    simp only [readLines?, List.foldlM_nil]
    constructor
    · intro h
      exact ⟨d, rfl, hde, (Option.some.inj h).symm⟩
    · rintro ⟨d', h, -, rfl⟩
      obtain rfl := Option.some.inj h
      rfl
  | cons line lines ih =>
    simp only [readLines?, List.foldlM_cons, Option.bind_eq_bind, Option.bind_eq_some_iff]
    constructor
    · rintro ⟨c₁, h₁, h⟩
      obtain ⟨d₁, hd₁, hapart, rfl⟩ := (readLine?_above hde (.inl hd)).mp h₁
      have hne := sections_ne_nil_of_readLine? hd₁ (.inl hd)
      obtain ⟨d', hd', hapart', rfl⟩ := (ih hapart hne).mp h
      exact ⟨d', ⟨d₁, hd₁, hd'⟩, hapart', rfl⟩
    · rintro ⟨d', ⟨d₁, hd₁, hd'⟩, hapart', rfl⟩
      have hapart := hapart'.of_readLines? hd'
      have hne := sections_ne_nil_of_readLine? hd₁ (.inl hd)
      exact ⟨d₁.above e, (readLine?_above hde (.inl hd)).mpr ⟨d₁, hd₁, hapart, rfl⟩,
        (ih hapart hne).mpr ⟨d', hd', hapart', rfl⟩⟩

/-- **Reading a bank on top of a draft is reading it on its own**, if it is apart from the draft. -/
theorem readLines?_eq_some_iff {e c : Draft} {lines : List (List Char)}
    (hlines : ∃ line ∈ lines.head?, BeginsBank line) :
    readLines? s e lines = some c ↔
      ∃ d, readLines? s {} lines = some d ∧ d.Apart e ∧ c = d.above e := by
  obtain ⟨line, hline, hbegins⟩ := hlines
  obtain ⟨lines, rfl⟩ := List.head?_eq_some_iff.mp hline
  have hempty : Apart {} e := ⟨fun b hb => (nomatch hb), fun x hx => (nomatch hx)⟩
  have hhead {c₁ : Draft} := readLine?_above (s := s) (c := c₁) hempty (.inr hbegins)
  have habove : above {} e = e := rfl
  rw [habove] at hhead
  simp only [readLines?, List.foldlM_cons, Option.bind_eq_bind, Option.bind_eq_some_iff]
  constructor
  · rintro ⟨c₁, h₁, h⟩
    obtain ⟨d₁, hd₁, hapart, rfl⟩ := hhead.mp h₁
    have hne := sections_ne_nil_of_readLine? hd₁ (.inr hbegins)
    obtain ⟨d, hd, hapart', rfl⟩ := (readLines?_above hapart hne).mp h
    exact ⟨d, ⟨d₁, hd₁, hd⟩, hapart', rfl⟩
  · rintro ⟨d, ⟨d₁, hd₁, hd⟩, hapart', rfl⟩
    have hapart := hapart'.of_readLines? hd
    have hne := sections_ne_nil_of_readLine? hd₁ (.inr hbegins)
    exact ⟨d₁.above e, hhead.mpr ⟨d₁, hd₁, hapart, rfl⟩,
      (readLines?_above hapart hne).mpr ⟨d, hd, hapart', rfl⟩⟩

end Draft

end Protocell.Assembly
