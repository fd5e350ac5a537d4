import Protocell.Assembly.Draft
import Protocell.Proofs.Success

/-!
# Proofs/Source/Sections — which bank a line's tokens are in

A line changes the sections of a draft in one of three ways, and in none of them does it touch the
tokens of other lines (`Grows`).  Line numbers only go up, so the tokens of a line stand together in
one section, behind those of smaller numbers and before those of larger ones
(`Stands`, `stands_of_ofLines`).

Every section of a draft that is finished has become a bank of the program (`get?_of_finish`).
-/

namespace Protocell.Assembly

/-- **What a line does to the sections of a draft.** -/
inductive Grows (n : ℕ) : List Section → List Section → Prop
  /-- It leaves them alone. -/
  | same (bs : List Section) : Grows n bs bs
  /-- It begins a bank that was not begun before. -/
  | begin {bs : List Section} (b : Section) : b.tokens = [] → (∀ c ∈ bs, c.bank ≠ b.bank) →
      Grows n bs (b :: bs)
  /-- It adds to the last section, tokens of its own if any. -/
  | extend {b b' : Section} {bs : List Section} (more : List (Token × ℕ)) : b'.bank = b.bank →
      b'.tokens = b.tokens ++ more → (∀ x ∈ more, x.2 = n) → Grows n (b :: bs) (b' :: bs)

namespace Section

theorem extend_eq_ok {b b' : Section} {n : ℕ} {ts : List Token} (h : b.extend n ts = .ok b') :
    b' = { b with tokens := b.tokens ++ ts.map fun t => (t, n) } := by
  rw [extend] at h
  split at h
  · cases h
  · exact (Except.ok.inj h).symm

theorem define_eq_ok {b b' : Section} {name : String} (h : b.define name = .ok b') :
    b' = { b with labels := (name, UInt8.ofNat b.offset) :: b.labels } := by
  rw [define] at h
  split at h
  · cases h
  · split at h
    · cases h
    · exact (Except.ok.inj h).symm

end Section

/-- Whoever changes the current section of a draft changes the first of its sections. -/
theorem Draft.modifyCurrent_eq_ok {d d' : Draft} {change : Section → Except Cause Section}
    (h : d.modifyCurrent change = .ok d') :
    ∃ b b' bs, d.sections = b :: bs ∧ change b = .ok b' ∧ d' = { d with sections := b' :: bs } := by
  rw [modifyCurrent] at h
  split at h
  · cases h
  · rename_i b bs hsections
    cases hchange : change b with
    | error e =>
      rw [hchange] at h
      cases h
    | ok b' =>
      rw [hchange] at h
      exact ⟨b, b', bs, hsections, hchange, (Except.ok.inj h).symm⟩

/-- A draft in which every section is changed in the same way. -/
def Draft.mapSections (f : Section → Section) (d : Draft) : Draft :=
  { d with sections := d.sections.map f }

theorem Draft.modifyCurrent_mapSections {f : Section → Section} {d : Draft}
    {change change' : Section → Except Cause Section} (h : ∀ b, change' (f b) = (change b).map f) :
    (d.mapSections f).modifyCurrent change' = (d.modifyCurrent change).map (mapSections f) := by
  obtain ⟨bs, constants⟩ := d
  cases bs with
  | nil => rfl
  | cons b bs =>
    change (change' (f b)).map _ = ((change b).map _).map (mapSections f)
    rw [h]
    cases change b with
    | error e => rfl
    | ok b' => rfl

theorem Draft.begin_mapSections {f : Section → Section} (d : Draft) {n m : ℕ} {bank : UInt8}
    (name : Option String) (hbank : ∀ b, (f b).bank = b.bank)
    (hnew : f { bank, line := n } = { bank, line := m }) :
    (d.mapSections f).begin m bank name = (d.begin n bank name).map (mapSections f) := by
  have hany : ((d.mapSections f).sections.any fun b => b.bank == bank)
      = d.sections.any fun b => b.bank == bank := by
    rw [mapSections, List.any_map]
    simp only [Function.comp_def, hbank]
  rw [begin.eq_def, begin.eq_def, hany, ← hnew]
  split
  · rfl
  · cases name with
    | none => rfl
    | some name =>
      change (if (d.constants.lookup name).isSome then _ else _) = _
      by_cases hname : (d.constants.lookup name).isSome = true
      · simp only [if_pos hname]
        rfl
      · simp only [if_neg hname]
        rfl

/-- Tokens go to the end of the current section. -/
theorem Draft.add_tokens {d d' : Draft} {n : ℕ} {ts : List Token}
    (h : d.add n (.tokens ts) = .ok d') :
    ∃ b bs, d.sections = b :: bs ∧
      d'.sections = { b with tokens := b.tokens ++ ts.map fun t => (t, n) } :: bs := by
  obtain ⟨b, b', bs, hsections, hextend, rfl⟩ := modifyCurrent_eq_ok h
  exact ⟨b, bs, hsections, by rw [Section.extend_eq_ok hextend]⟩

theorem mem_map_line {n : ℕ} {ts : List Token} :
    ∀ x ∈ ts.map fun t => (t, n), x.2 = n := by
  intro x hx
  obtain ⟨t, -, rfl⟩ := List.mem_map.mp hx
  rfl

theorem Draft.add_grows {d d' : Draft} {n : ℕ} {statement : Statement}
    (h : d.add n statement = .ok d') : Grows n d.sections d'.sections := by
  cases statement with
  | bank index name =>
    rw [add, begin.eq_def] at h
    split at h
    · cases h
    · rename_i hnew
      have hbanks : ∀ c ∈ d.sections, c.bank ≠ index := by
        intro c hc heq
        exact hnew (List.any_eq_true.mpr ⟨c, hc, beq_iff_eq.mpr heq⟩)
      split at h
      · obtain rfl := Except.ok.inj h
        exact .begin _ rfl hbanks
      · split at h
        · cases h
        · obtain rfl := Except.ok.inj h
          exact .begin _ rfl hbanks
  | label name =>
    obtain ⟨b, b', bs, hsections, hdefine, rfl⟩ := modifyCurrent_eq_ok h
    rw [hsections, Section.define_eq_ok hdefine]
    exact .extend [] rfl (List.append_nil _).symm fun x hx => nomatch hx
  | tokens ts =>
    obtain ⟨b, bs, hsections, hsections'⟩ := add_tokens h
    rw [hsections, hsections']
    exact .extend _ rfl rfl mem_map_line
  | origin offset =>
    obtain ⟨b, b', bs, hsections, hadvance, rfl⟩ := modifyCurrent_eq_ok h
    rw [Section.advance] at hadvance
    split at hadvance
    · cases hadvance
    · rw [hsections, Section.extend_eq_ok hadvance]
      exact .extend _ rfl rfl mem_map_line

/-- Taking a line is reading it and adding what it says. -/
theorem Draft.addLine_eq_ok {s : InstructionSet} {d d' : Draft} {line : List Char} {n : ℕ}
    (h : addLine s d (line, n) = .ok d') :
    (Statement.parse? s line = .ok none ∧ d' = d) ∨
      ∃ statement, Statement.parse? s line = .ok (some statement) ∧ d.add n statement = .ok d' := by
  rw [addLine] at h
  split at h
  · cases h
  · rename_i hparse
    exact .inl ⟨hparse, (Except.ok.inj h).symm⟩
  · rename_i statement hparse
    split at h
    · cases h
    · rename_i d₁ hadd
      obtain rfl := Except.ok.inj h
      exact .inr ⟨statement, hparse, hadd⟩

theorem Draft.addLine_grows {s : InstructionSet} {d d' : Draft} {l : List Char × ℕ}
    (h : addLine s d l = .ok d') : Grows l.2 d.sections d'.sections := by
  rcases addLine_eq_ok h with ⟨-, rfl⟩ | ⟨statement, -, hadd⟩
  · exact .same _
  · exact add_grows hadd

/-! ## What growing keeps -/

/-- No two sections are of one bank. -/
theorem Grows.nodup {n : ℕ} {bs bs' : List Section} (h : Grows n bs bs')
    (hbs : (bs.map Section.bank).Nodup) : (bs'.map Section.bank).Nodup := by
  cases h with
  | same => exact hbs
  | begin b _ hnew =>
    rw [List.map_cons, List.nodup_cons]
    refine ⟨?_, hbs⟩
    intro hmem
    obtain ⟨c, hc, heq⟩ := List.mem_map.mp hmem
    exact hnew c hc heq
  | extend more hbank _ _ =>
    rw [List.map_cons, hbank]
    exact hbs

/-- Tokens have the numbers of lines that were taken. -/
theorem Grows.lines_lt {n k : ℕ} {bs bs' : List Section} (h : Grows n bs bs') (hn : n < k)
    (hbs : ∀ b ∈ bs, ∀ x ∈ b.tokens, x.2 < k) : ∀ b ∈ bs', ∀ x ∈ b.tokens, x.2 < k := by
  cases h with
  | same => exact hbs
  | begin b hempty _ =>
    refine List.forall_mem_cons.mpr ⟨?_, hbs⟩
    rw [hempty]
    exact fun x hx => nomatch hx
  | extend more _ htokens hmore =>
    obtain ⟨hb, hbs⟩ := List.forall_mem_cons.mp hbs
    refine List.forall_mem_cons.mpr ⟨?_, hbs⟩
    intro x hx
    rw [htokens] at hx
    rcases List.mem_append.mp hx with hx | hx
    · exact hb x hx
    · exact hmore x hx ▸ hn

/-- **The tokens `ts` of line `n` stand together in section `b`**: smaller lines before them, larger
ones behind, and no more of this line in sections that were begun later. -/
structure Stands (n : ℕ) (ts : List Token) (bs : List Section) (b : Section) : Prop where
  mem : ∃ newer older, bs = newer ++ b :: older ∧ ∀ c ∈ newer, ∀ x ∈ c.tokens, n < x.2
  tokens : ∃ before after, b.tokens = before ++ (ts.map fun t => (t, n)) ++ after ∧
    (∀ x ∈ before, x.2 < n) ∧ ∀ x ∈ after, n < x.2

theorem Grows.stands {n k : ℕ} {ts : List Token} {bs bs' : List Section} {b : Section}
    (h : Grows k bs bs') (hk : n < k) (hb : Stands n ts bs b) : ∃ b', Stands n ts bs' b' := by
  obtain ⟨⟨newer, older, hbs, hnewer⟩, before, after, htokens, hbefore, hafter⟩ := hb
  cases h with
  | same => exact ⟨b, ⟨newer, older, hbs, hnewer⟩, before, after, htokens, hbefore, hafter⟩
  | begin c hempty _ =>
    refine ⟨b, ⟨c :: newer, older, by rw [hbs]; rfl, ?_⟩, before, after, htokens, hbefore, hafter⟩
    refine List.forall_mem_cons.mpr ⟨?_, hnewer⟩
    rw [hempty]
    exact fun x hx => nomatch hx
  | @extend c c' cs more hbank hmore hlines =>
    cases newer with
    | nil =>
      obtain ⟨rfl, rfl⟩ := List.cons.inj hbs
      refine ⟨c', ⟨[], cs, rfl, hnewer⟩, before, after ++ more, ?_, hbefore, ?_⟩
      · rw [hmore, htokens, List.append_assoc _ after]
      · intro x hx
        rcases List.mem_append.mp hx with hx | hx
        · exact hafter x hx
        · exact (hlines x hx).symm ▸ hk
    | cons e newer =>
      obtain ⟨rfl, rfl⟩ := List.cons.inj hbs
      obtain ⟨hc, hnewer⟩ := List.forall_mem_cons.mp hnewer
      refine ⟨b, ⟨c' :: newer, older, rfl, ?_⟩, before, after, htokens, hbefore, hafter⟩
      refine List.forall_mem_cons.mpr ⟨?_, hnewer⟩
      intro x hx
      rw [hmore] at hx
      rcases List.mem_append.mp hx with hx | hx
      · exact hc x hx
      · exact (hlines x hx).symm ▸ hk

/-! ## Whole sources -/

/-- The sections of a source are of different banks. -/
theorem Draft.nodup_of_ofLines {s : InstructionSet} {lines : List (List Char)} {d : Draft}
    (h : ofLines s lines = .ok d) : (d.sections.map Section.bank).Nodup :=
  foldlM_induction (P := fun d => (d.sections.map Section.bank).Nodup) h
    (fun _ _ _ _ hd h => (addLine_grows h).nodup hd) List.nodup_nil

/-- **The tokens of a code or data line stand together.** -/
theorem Draft.stands_of_ofLines {s : InstructionSet} {lines : List (List Char)} {d : Draft} {n : ℕ}
    {line : List Char} {ts : List Token} (h : ofLines s lines = .ok d)
    (hline : lines[n]? = some line) (hparse : Statement.parse? s line = .ok (some (.tokens ts))) :
    ∃ b, Stands (n + 1) ts d.sections b := by
  obtain ⟨hlt, hget⟩ := List.getElem?_eq_some_iff.mp hline
  have hsplit : lines = lines.take n ++ line :: lines.drop (n + 1) := by
    rw [← hget, ← List.drop_eq_getElem_cons hlt, List.take_append_drop]
  have hnum : 1 + (lines.take n).length = n + 1 := by
    rw [List.length_take, Nat.min_eq_left (Nat.le_of_lt hlt), Nat.add_comm]
  rw [ofLines, hsplit, List.zipIdx_append, List.zipIdx_cons, hnum, List.foldlM_append] at h
  obtain ⟨d₁, h₁, h⟩ := bind_eq_ok_iff.mp h
  rw [List.foldlM_cons] at h
  obtain ⟨d₂, h₂, h₃⟩ := bind_eq_ok_iff.mp h
  -- Up to the line there are smaller numbers only.
  have hlow : ∀ b ∈ d₁.sections, ∀ x ∈ b.tokens, x.2 < n + 1 := by
    refine foldlM_induction (P := fun d => ∀ b ∈ d.sections, ∀ x ∈ b.tokens, x.2 < n + 1) h₁ ?_
      (fun b hb => nomatch hb)
    intro l hl d d' hd hadd
    have hnumber := List.snd_lt_add_of_mem_zipIdx hl
    rw [hnum] at hnumber
    exact (addLine_grows hadd).lines_lt hnumber hd
  have hhere : ∃ b, Stands (n + 1) ts d₂.sections b := by
    rcases addLine_eq_ok h₂ with ⟨hnone, -⟩ | ⟨statement, hsome, hadd⟩
    · rw [hparse] at hnone
      cases hnone
    · rw [hparse] at hsome
      obtain rfl := Option.some.inj (Except.ok.inj hsome)
      obtain ⟨b, bs, hsections, hsections'⟩ := add_tokens hadd
      rw [hsections] at hlow
      refine ⟨_, ⟨[], bs, hsections', fun c hc => nomatch hc⟩, b.tokens, [], ?_, ?_, ?_⟩
      · exact (List.append_nil _).symm
      · exact hlow b List.mem_cons_self
      · exact fun x hx => nomatch hx
  -- From the line on there are larger numbers only.
  refine foldlM_induction (P := fun d => ∃ b, Stands (n + 1) ts d.sections b) h₃ ?_ hhere
  rintro l hl d d' ⟨b, hb⟩ hadd
  exact (addLine_grows hadd).stands (List.le_snd_of_mem_zipIdx hl) hb

/-! ## Banks -/

/-- A section is put into a program as the bytes of its atoms. -/
theorem Draft.emit_eq_ok_iff {constants : List (String × UInt8)} {p q : Program} {b : Section} :
    emit constants p b = .ok q ↔
      ∃ atoms, b.atoms constants = .ok atoms ∧ p.insert b.bank (fold atoms) = .ok q := by
  rw [emit, bind_eq_ok_iff]
  refine exists_congr fun atoms => and_congr_right fun _ => ?_
  cases p.insert b.bank (fold atoms) with
  | error e => exact iff_of_false (fun h => nomatch h) fun h => nomatch h
  | ok q' =>
    exact ⟨fun h => congrArg Except.ok (Except.ok.inj h),
      fun h => congrArg Except.ok (Except.ok.inj h)⟩

/-- **What a draft becomes**: each of its sections is a bank, and there are no other banks. -/
structure Draft.Yields (d : Draft) (p : Program) : Prop where
  bank : ∀ b ∈ d.sections, ∃ atoms, b.atoms d.constants = .ok atoms ∧
    p.get? b.bank = some (fold atoms)
  other : ∀ i, (∀ b ∈ d.sections, b.bank ≠ i) → p.get? i = none

/-- Sections of different banks can be put into a program in any order, since each has a slot of its
own. -/
theorem Draft.foldlM_emit_eq_ok_iff {constants : List (String × UInt8)} {bs : List Section}
    (hbs : (bs.map Section.bank).Nodup) {p q : Program} :
    bs.foldlM (emit constants) q = .ok p ↔
      (∀ b ∈ bs, ∃ atoms, b.atoms constants = .ok atoms ∧ p.get? b.bank = some (fold atoms)) ∧
        ∀ i, (∀ b ∈ bs, b.bank ≠ i) → p.get? i = q.get? i := by
  induction bs generalizing q with
  | nil =>
    constructor
    · intro h
      obtain rfl := Except.ok.inj h
      exact ⟨fun b hb => absurd hb List.not_mem_nil, fun i _ => rfl⟩
    · rintro ⟨-, hget⟩
      exact congrArg Except.ok (Program.ext fun i => (hget i fun b hb => nomatch hb).symm)
  | cons b bs ih =>
    rw [List.map_cons, List.nodup_cons] at hbs
    obtain ⟨hb, hbs⟩ := hbs
    have hfresh : ∀ c ∈ bs, c.bank ≠ b.bank := fun c hc heq => hb (heq ▸ List.mem_map_of_mem hc)
    rw [List.foldlM_cons, bind_eq_ok_iff, List.forall_mem_cons]
    constructor
    · rintro ⟨q₁, hemit, hrest⟩
      obtain ⟨atoms, hatoms, hinsert⟩ := emit_eq_ok_iff.mp hemit
      obtain ⟨hbanks, hother⟩ := (ih hbs).mp hrest
      refine ⟨⟨⟨atoms, hatoms, ?_⟩, hbanks⟩, fun i hi => ?_⟩
      · rw [hother _ hfresh, Program.get?_insert hinsert, if_pos rfl]
      · obtain ⟨hi, his⟩ := List.forall_mem_cons.mp hi
        rw [hother i his, Program.get?_insert hinsert, if_neg hi]
    · rintro ⟨⟨⟨atoms, hatoms, hget⟩, hbanks⟩, hother⟩
      obtain ⟨q₁, hinsert⟩ := q.exists_insert_eq_ok b.bank (Program.length_le_of_get? hget)
      refine ⟨q₁, emit_eq_ok_iff.mpr ⟨atoms, hatoms, hinsert⟩,
        (ih hbs).mpr ⟨hbanks, fun i hi => ?_⟩⟩
      rw [Program.get?_insert hinsert]
      by_cases heq : b.bank = i
      · rw [if_pos heq, ← heq, hget]
      · rw [if_neg heq]
        exact hother i (List.forall_mem_cons.mpr ⟨heq, hi⟩)

/-- **A draft of different banks is finished just if it becomes the program.** -/
theorem Draft.finish_eq_ok_iff {d : Draft} (hbanks : (d.sections.map Section.bank).Nodup)
    {p : Program} : d.finish = .ok p ↔ d.Yields p := by
  have hreverse : (d.sections.reverse.map Section.bank).Nodup := by
    rw [List.map_reverse]
    exact (List.reverse_perm _).nodup_iff.mpr hbanks
  have hempty (i : UInt8) : Program.empty.get? i = none := by
    rw [Program.get?, Program.empty, ByteTable.get_fill]
    rfl
  rw [finish, foldlM_emit_eq_ok_iff hreverse]
  simp only [List.mem_reverse, hempty]
  exact ⟨fun h => ⟨h.1, h.2⟩, fun h => ⟨h.bank, h.other⟩⟩

/-- **Every section becomes a bank.** -/
theorem Draft.get?_of_finish {d : Draft} {p : Program} (h : d.finish = .ok p)
    (hbanks : (d.sections.map Section.bank).Nodup) {b : Section} (hb : b ∈ d.sections) :
    ∃ atoms, b.atoms d.constants = .ok atoms ∧ p.get? b.bank = some (fold atoms) :=
  ((finish_eq_ok_iff hbanks).mp h).bank b hb

end Protocell.Assembly
