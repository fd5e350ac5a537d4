import Mathlib.Data.List.Nodup
import Protocell.Proofs.Source.Order

/-!
# Proofs/Source/Parts — a source as its banks

A source is cut before each line that begins a bank (`split`).  A part of it is that line and the
lines behind it, and says of its bank which tokens it has, which names stand for which of its
offsets, and under which name other banks know it.  All of this is read off the lines from top to
bottom, with the offset as the only state (`tokensFrom`, `labelsFrom`).

Reading a source line by line comes to the same: if no line raises an error, the draft consists of
the sections of the parts and of the names of banks (`eq_ofParts`), and every line is one that its
bank takes at the offset reached (`takesAll_of_mem_parts`).  No name is given twice, so that it does
not matter in which order names are kept (`lookup_toSection`).
-/

namespace Protocell.Assembly

/-- **What a source says of one bank**: the line that begins it with what that line says, and the
lines behind it up to the next one that begins a bank.  Lines have their numbers with them. -/
structure Part where
  head : List Char × ℕ
  bank : UInt8
  /-- The name under which all banks know it. -/
  name : Option String
  body : List (List Char × ℕ)
deriving DecidableEq, Repr

/-- The lines before the first bank, and the parts in order. -/
def split (s : InstructionSet) : List (List Char × ℕ) → List (List Char × ℕ) × List Part
  | [] => ([], [])
  | l :: ls =>
    match Statement.parse? s l.1 with
    | .ok (some (.bank bank name)) => ([], ⟨l, bank, name, (split s ls).1⟩ :: (split s ls).2)
    | _ => (l :: (split s ls).1, (split s ls).2)

/-- **The parts of a source**, in the order in which their banks are begun. -/
def parts (s : InstructionSet) (lines : List (List Char)) : List Part :=
  (split s (lines.zipIdx 1)).2

/-- The lines of a part. -/
def Part.lines (p : Part) : List (List Char × ℕ) := p.head :: p.body

/-- Cutting a source loses no line. -/
theorem split_append (s : InstructionSet) (ls : List (List Char × ℕ)) :
    (split s ls).1 ++ (split s ls).2.flatMap Part.lines = ls := by
  induction ls with
  | nil => rfl
  | cons l ls ih =>
    rw [split]
    split
    · rw [List.nil_append, List.flatMap_cons, Part.lines, List.cons_append, ih]
    · rw [List.cons_append, ih]

/-- **A part as it is cut**: its first line begins the bank, and no other line begins one. -/
def Part.IsCut (s : InstructionSet) (p : Part) : Prop :=
  Statement.parse? s p.head.1 = .ok (some (.bank p.bank p.name)) ∧
    ∀ l ∈ p.body, ∀ bank name, Statement.parse? s l.1 ≠ .ok (some (.bank bank name))

theorem isCut_of_split (s : InstructionSet) (ls : List (List Char × ℕ)) :
    (∀ l ∈ (split s ls).1, ∀ bank name, Statement.parse? s l.1 ≠ .ok (some (.bank bank name))) ∧
      ∀ p ∈ (split s ls).2, p.IsCut s := by
  induction ls with
  | nil => exact ⟨by rintro _ ⟨⟩, by rintro _ ⟨⟩⟩
  | cons l ls ih =>
    obtain ⟨hbody, hparts⟩ := ih
    rw [split]
    split
    · rename_i hparse
      exact ⟨by rintro _ ⟨⟩, List.forall_mem_cons.mpr ⟨⟨hparse, hbody⟩, hparts⟩⟩
    · rename_i hother
      exact ⟨List.forall_mem_cons.mpr ⟨hother, hbody⟩, hparts⟩

/-- Lines that begin no bank stand before the first part. -/
theorem split_append_of_forall {s : InstructionSet} {pre : List (List Char × ℕ)}
    (h : ∀ l ∈ pre, ∀ bank name, Statement.parse? s l.1 ≠ .ok (some (.bank bank name)))
    (ls : List (List Char × ℕ)) :
    split s (pre ++ ls) = (pre ++ (split s ls).1, (split s ls).2) := by
  induction pre with
  | nil => rfl
  | cons l pre ih =>
    obtain ⟨hl, hpre⟩ := List.forall_mem_cons.mp h
    rw [List.cons_append, split]
    split
    · exact absurd ‹_› (hl _ _)
    · rw [ih hpre]
      rfl

/-- **What is put together from parts is cut into them.** -/
theorem split_eq_of_isCut {s : InstructionSet} {pre : List (List Char × ℕ)} {ps : List Part}
    (hpre : ∀ l ∈ pre, ∀ bank name, Statement.parse? s l.1 ≠ .ok (some (.bank bank name)))
    (hps : ∀ p ∈ ps, p.IsCut s) : split s (pre ++ ps.flatMap Part.lines) = (pre, ps) := by
  induction ps generalizing pre with
  | nil => rw [split_append_of_forall hpre, List.flatMap_nil, split, List.append_nil]
  | cons p ps ih =>
    obtain ⟨hp, hps⟩ := List.forall_mem_cons.mp hps
    rw [split_append_of_forall hpre, List.flatMap_cons, Part.lines, List.cons_append, split, hp.1,
      ih hp.2 hps, List.append_nil]

/-! ## What lines say of their bank -/

/-- The tokens that a line puts into its bank, if the next offset is `n`. -/
def tokensAt (s : InstructionSet) (n : ℕ) (line : List Char) : List Token :=
  match Statement.parse? s line with
  | .ok (some (.tokens ts)) => ts
  | .ok (some (.origin origin)) => List.replicate (origin.toNat - n) (.byte 0)
  | _ => []

/-- The name that a line gives to the next offset. -/
def label? (s : InstructionSet) (line : List Char) : Option String :=
  match Statement.parse? s line with
  | .ok (some (.label name)) => some name
  | _ => none

/-- **The tokens of lines**, with the numbers of their lines, if the next offset is `n`. -/
def tokensFrom (s : InstructionSet) (n : ℕ) : List (List Char × ℕ) → List (Token × ℕ)
  | [] => []
  | l :: ls => (tokensAt s n l.1).map (fun t => (t, l.2)) ++
      tokensFrom s (n + (tokensAt s n l.1).length) ls

/-- **The labels of lines**, each with the number it stands for, if the next offset is `n`. -/
def labelsFrom (s : InstructionSet) (n : ℕ) : List (List Char × ℕ) → List (String × UInt8)
  | [] => []
  | l :: ls => ((label? s l.1).map fun name => (name, UInt8.ofNat n)).toList ++
      labelsFrom s (n + (tokensAt s n l.1).length) ls

/-- Whether a bank of `n` bytes takes a line: it says nothing, its tokens fit, its origin does not
lie behind, or its label is for an offset of the bank. -/
def Takes (s : InstructionSet) (n : ℕ) (line : List Char) : Prop :=
  match Statement.parse? s line with
  | .ok none => True
  | .ok (some (.tokens ts)) => n + ts.length ≤ bankSize
  | .ok (some (.origin origin)) => n ≤ origin.toNat
  | .ok (some (.label _)) => n ≤ 255
  | .ok (some (.bank _ _)) | .error _ => False

/-- Whether a bank of `n` bytes takes some lines, one after another. -/
def TakesAll (s : InstructionSet) (n : ℕ) : List (List Char × ℕ) → Prop
  | [] => True
  | l :: ls => Takes s n l.1 ∧ TakesAll s (n + (tokensAt s n l.1).length) ls

theorem tokensAt_of_label? {s : InstructionSet} {line : List Char} {name : String}
    (h : label? s line = some name) (n : ℕ) : tokensAt s n line = [] := by
  rw [label?] at h
  split at h
  · rename_i hparse
    rw [tokensAt, hparse]
  · cases h

theorem Takes.exists_parse? {s : InstructionSet} {n : ℕ} {line : List Char} (h : Takes s n line) :
    ∃ st, Statement.parse? s line = .ok st := by
  rw [Takes] at h
  cases hparse : Statement.parse? s line with
  | error c =>
    rw [hparse] at h
    exact h.elim
  | ok st => exact ⟨st, rfl⟩

/-- A label is for an offset of the bank. -/
theorem Takes.le_of_label? {s : InstructionSet} {n : ℕ} {line : List Char} {name : String}
    (h : Takes s n line) (hname : label? s line = some name) : n ≤ 255 := by
  rw [label?] at hname
  split at hname
  · rename_i hparse
    rwa [Takes, hparse] at h
  · cases hname

theorem tokensFrom_append (s : InstructionSet) (n : ℕ) (ls ms : List (List Char × ℕ)) :
    tokensFrom s n (ls ++ ms)
      = tokensFrom s n ls ++ tokensFrom s (n + (tokensFrom s n ls).length) ms := by
  induction ls generalizing n with
  | nil => rfl
  | cons l ls ih =>
    rw [List.cons_append, tokensFrom, ih, tokensFrom, List.append_assoc, List.length_append,
      List.length_map, Nat.add_assoc]

theorem labelsFrom_append (s : InstructionSet) (n : ℕ) (ls ms : List (List Char × ℕ)) :
    labelsFrom s n (ls ++ ms)
      = labelsFrom s n ls ++ labelsFrom s (n + (tokensFrom s n ls).length) ms := by
  induction ls generalizing n with
  | nil => rfl
  | cons l ls ih =>
    rw [List.cons_append, labelsFrom, ih, labelsFrom, List.append_assoc, tokensFrom,
      List.length_append, List.length_map, Nat.add_assoc]

theorem takesAll_append (s : InstructionSet) (n : ℕ) (ls ms : List (List Char × ℕ)) :
    TakesAll s n (ls ++ ms) ↔
      TakesAll s n ls ∧ TakesAll s (n + (tokensFrom s n ls).length) ms := by
  induction ls generalizing n with
  | nil => exact (true_and _).symm ▸ Iff.rfl
  | cons l ls ih =>
    rw [List.cons_append, TakesAll, ih, TakesAll, and_assoc, tokensFrom, List.length_append,
      List.length_map, Nat.add_assoc]

theorem exists_mem_labelsFrom_iff {s : InstructionSet} {n : ℕ} {ls : List (List Char × ℕ)}
    {name : String} :
    (∃ v, (name, v) ∈ labelsFrom s n ls) ↔ ∃ l ∈ ls, label? s l.1 = some name := by
  induction ls generalizing n with
  | nil => exact iff_of_false (by rintro ⟨_, ⟨⟩⟩) (by rintro ⟨_, ⟨⟩, _⟩)
  | cons l ls ih =>
    have hhead : (∃ v, (name, v) ∈ ((label? s l.1).map fun name => (name, UInt8.ofNat n)).toList) ↔
        label? s l.1 = some name := by
      cases label? s l.1 with
      | none => exact iff_of_false (by rintro ⟨_, ⟨⟩⟩) (by rintro ⟨⟩)
      | some k =>
        simp only [Option.map_some, Option.toList_some, List.mem_singleton, Prod.mk.injEq,
          exists_and_left, exists_eq, and_true, Option.some.injEq, eq_comm]
    simp only [labelsFrom, List.mem_append, exists_or, hhead, ih, List.mem_cons, or_and_right,
      exists_eq_left]

theorem TakesAll.exists_parse? {s : InstructionSet} {n : ℕ} {ls : List (List Char × ℕ)}
    (h : TakesAll s n ls) {l : List Char × ℕ} (hl : l ∈ ls) :
    ∃ st, Statement.parse? s l.1 = .ok st := by
  induction ls generalizing n with
  | nil => cases hl
  | cons m ls ih =>
    rcases List.mem_cons.mp hl with rfl | hl
    · exact h.1.exists_parse?
    · exact ih h.2 hl

/-- The tokens of a line are among those of all lines. -/
theorem mem_tokensFrom {s : InstructionSet} {n : ℕ} {ls : List (List Char × ℕ)}
    {l : List Char × ℕ} {ts : List Token} {t : Token} (hl : l ∈ ls)
    (hparse : Statement.parse? s l.1 = .ok (some (.tokens ts))) (ht : t ∈ ts) :
    (t, l.2) ∈ tokensFrom s n ls := by
  induction ls generalizing n with
  | nil => cases hl
  | cons m ls ih =>
    rw [tokensFrom, List.mem_append]
    rcases List.mem_cons.mp hl with rfl | hl
    · refine .inl (List.mem_map.mpr ⟨t, ?_, rfl⟩)
      rw [tokensAt, hparse]
      exact ht
    · exact .inr (ih hl)

namespace Part

variable (s : InstructionSet) (p : Part)

/-- The tokens of a bank, each with its line. -/
def tokens : List (Token × ℕ) := tokensFrom s 0 p.body

/-- The labels of a bank with the numbers they stand for. -/
def labels : List (String × UInt8) := labelsFrom s 0 p.body

/-- The section that a part becomes. -/
def toSection : Section :=
  { bank := p.bank, line := p.head.2, tokens := p.tokens s, labels := (p.labels s).reverse }

/-- The name of a bank, if it has one, with the number of the bank. -/
def constant? : Option (String × UInt8) := p.name.map fun name => (name, p.bank)

/-- **The number that a name stands for in a bank** of a source with parts `ps`: that of its own
label, or else that of the bank so named. -/
def value? (ps : List Part) (name : String) : Option UInt8 :=
  ((p.labels s).lookup name).or ((ps.filterMap constant?).lookup name)

end Part

theorem lookup_eq_none_iff_forall {l : List (String × UInt8)} {name : String} :
    l.lookup name = none ↔ ¬ ∃ v, (name, v) ∈ l := by
  rw [List.lookup_eq_none_iff]
  constructor
  · rintro h ⟨v, hv⟩
    exact bne_iff_ne.mp (h _ hv) rfl
  · intro h x hx
    refine bne_iff_ne.mpr ?_
    rintro rfl
    exact h ⟨x.2, hx⟩

/-- A name that is given once stands for what it is given. -/
theorem lookup_of_nodup {xs ys : List (String × UInt8)} {name : String} {v : UInt8}
    (h : ((xs ++ (name, v) :: ys).map Prod.fst).Nodup) :
    (xs ++ (name, v) :: ys).lookup name = some v := by
  rw [List.map_append, List.map_cons, List.nodup_middle, List.nodup_cons] at h
  refine List.lookup_eq_some_iff.mpr ⟨xs, ys, rfl, fun x hx => bne_iff_ne.mpr ?_⟩
  intro heq
  exact h.1 (List.mem_append_left _ (List.mem_map.mpr ⟨x, hx, heq.symm⟩))

/-- The draft that consists of some parts. -/
def Draft.ofParts (s : InstructionSet) (ps : List Part) : Draft :=
  { sections := (ps.map (Part.toSection s)).reverse
    constants := (ps.filterMap Part.constant?).reverse }

theorem Draft.ofParts_cons (s : InstructionSet) (p : Part) (ps : List Part) :
    ofParts s (p :: ps) = (ofParts s ps).above ⟨[p.toSection s], p.constant?.toList⟩ := by
  rw [ofParts, ofParts, above, List.map_cons, List.reverse_cons, List.filterMap_cons]
  cases p.constant? with
  | none => simp only [Option.toList_none, List.append_nil]
  | some x => simp only [List.reverse_cons, Option.toList_some]

/-- **The atoms of some lines of a bank**, if the next offset is `n` and names stand for what they
do in the bank. -/
def Part.atoms (s : InstructionSet) (ps : List Part) (p : Part) (n : ℕ)
    (ls : List (List Char × ℕ)) : Except Error (List Atom) :=
  (tokensFrom s n ls).mapM ((p.toSection s).resolve (Draft.ofParts s ps).constants)

/-- Lines are resolved one after another, each at the offset where those before it end. -/
theorem Part.atoms_append_eq_ok_iff {s : InstructionSet} {ps : List Part} {p : Part} {n : ℕ}
    {ls ms : List (List Char × ℕ)} {as : List Atom} :
    p.atoms s ps n (ls ++ ms) = .ok as ↔ ∃ xs ys, p.atoms s ps n ls = .ok xs ∧
      p.atoms s ps (n + (tokensFrom s n ls).length) ms = .ok ys ∧ xs ++ ys = as := by
  rw [atoms, tokensFrom_append, List.mapM_append, bind_eq_ok_iff]
  refine exists_congr fun xs => ?_
  rw [bind_eq_ok_iff]
  constructor
  · rintro ⟨hxs, ys, hys, h⟩
    exact ⟨ys, hxs, hys, Except.ok.inj h⟩
  · rintro ⟨ys, hxs, hys, rfl⟩
    exact ⟨hxs, ys, hys, rfl⟩

/-! ## Reading lines -/

/-- A section with what a line says of it. -/
def Section.read (s : InstructionSet) (b : Section) (l : List Char × ℕ) : Section :=
  { b with
    tokens := b.tokens ++ (tokensAt s b.offset l.1).map fun t => (t, l.2)
    labels := ((label? s l.1).map fun name => (name, UInt8.ofNat b.offset)).toList ++ b.labels }

theorem Section.offset_read (s : InstructionSet) (b : Section) (l : List Char × ℕ) :
    (b.read s l).offset = b.offset + (tokensAt s b.offset l.1).length := by
  change (b.tokens ++ _).length = _
  rw [List.length_append, List.length_map, offset]

theorem Section.foldl_read (s : InstructionSet) (b : Section) (ls : List (List Char × ℕ)) :
    ls.foldl (read s) b =
      { b with
        tokens := b.tokens ++ tokensFrom s b.offset ls
        labels := (labelsFrom s b.offset ls).reverse ++ b.labels } := by
  induction ls generalizing b with
  | nil => simp only [List.foldl_nil, tokensFrom, labelsFrom, List.append_nil, List.reverse_nil,
      List.nil_append]
  | cons l ls ih =>
    have hreverse : ((label? s l.1).map fun name => (name, UInt8.ofNat b.offset)).toList.reverse
        = ((label? s l.1).map fun name => (name, UInt8.ofNat b.offset)).toList := by
      cases label? s l.1 with
      | none => rfl
      | some name => rfl
    rw [List.foldl_cons, ih, offset_read, tokensFrom, labelsFrom, List.reverse_append, hreverse]
    simp only [read, List.append_assoc]

/-- A part is the section that reading its lines makes of an empty one. -/
theorem Part.toSection_eq (s : InstructionSet) (p : Part) :
    p.toSection s = p.body.foldl (Section.read s) { bank := p.bank, line := p.head.2 } := by
  rw [Section.foldl_read, toSection, tokens, labels]
  simp only [List.nil_append, List.append_nil]
  rfl

namespace Draft

variable {s : InstructionSet} {d d' : Draft}

/-- **A line that begins no bank is read into the bank begun last**, which takes it. -/
theorem addLine_eq_read {l : List Char × ℕ} (h : addLine s d l = .ok d')
    (hbank : ∀ bank name, Statement.parse? s l.1 ≠ .ok (some (.bank bank name))) :
    d' = { d with sections := d.sections.modifyHead fun b => b.read s l } ∧
      ∀ b ∈ d.sections.head?, Takes s b.offset l.1 := by
  have hcurrent {b b' : Section} {bs : List Section} (hsections : d.sections = b :: bs)
      (hread : b' = b.read s l) (htakes : Takes s b.offset l.1) :
      ({ d with sections := b' :: bs } : Draft)
        = { d with sections := d.sections.modifyHead fun b => b.read s l } ∧
      ∀ b ∈ d.sections.head?, Takes s b.offset l.1 := by
    rw [hsections, hread]
    refine ⟨rfl, ?_⟩
    rintro _ ⟨⟩
    exact htakes
  rcases addLine_eq_ok h with ⟨hparse, rfl⟩ | ⟨statement, hparse, hadd⟩
  · have hread : (fun b : Section => b.read s l) = id := by
      funext b
      simp only [Section.read, tokensAt, label?, hparse, List.map_nil, List.append_nil,
        Option.map_none, Option.toList_none, List.nil_append, id]
    refine ⟨by rw [hread, List.modifyHead_id]; rfl, fun b _ => ?_⟩
    simp only [Takes, hparse]
  · cases statement with
    | bank bank name => exact absurd hparse (hbank bank name)
    | label name =>
      obtain ⟨b, b', bs, hsections, hdefine, rfl⟩ := modifyCurrent_eq_ok hadd
      refine hcurrent hsections ?_ ?_
      · rw [Section.define_eq_ok hdefine]
        simp only [Section.read, tokensAt, label?, hparse, List.map_nil, List.append_nil,
          Option.map_some, Option.toList_some, List.singleton_append]
      · simp only [Takes, hparse]
        rw [Section.define] at hdefine
        split at hdefine
        · cases hdefine
        · omega
    | tokens ts =>
      obtain ⟨b, b', bs, hsections, hextend, rfl⟩ := modifyCurrent_eq_ok hadd
      refine hcurrent hsections ?_ ?_
      · rw [Section.extend_eq_ok hextend]
        simp only [Section.read, tokensAt, label?, hparse, Option.map_none, Option.toList_none,
          List.nil_append]
      · simp only [Takes, hparse]
        rw [Section.extend] at hextend
        split at hextend
        · cases hextend
        · omega
    | origin origin =>
      obtain ⟨b, b', bs, hsections, hadvance, rfl⟩ := modifyCurrent_eq_ok hadd
      rw [Section.advance] at hadvance
      split at hadvance
      · cases hadvance
      · refine hcurrent hsections ?_ ?_
        · rw [Section.extend_eq_ok hadvance]
          simp only [Section.read, tokensAt, label?, hparse, Option.map_none, Option.toList_none,
            List.nil_append]
        · simp only [Takes, hparse]
          omega

/-- **What reading some lines makes of a draft**: the lines before the first new bank go to the bank
begun last, and the parts behind them come on top. -/
theorem foldlM_addLine_eq_ok {ls : List (List Char × ℕ)} (h : ls.foldlM (addLine s) d = .ok d') :
    d' = (ofParts s (split s ls).2).above
        { d with
          sections := d.sections.modifyHead fun b => (split s ls).1.foldl (Section.read s) b } ∧
      (∀ b ∈ d.sections.head?, TakesAll s b.offset (split s ls).1) ∧
      ∀ p ∈ (split s ls).2, TakesAll s 0 p.body := by
  induction ls generalizing d with
  | nil =>
    obtain rfl := Except.ok.inj h
    refine ⟨?_, fun _ _ => trivial, fun p hp => absurd hp List.not_mem_nil⟩
    have hid : (fun b : Section => (split s []).1.foldl (Section.read s) b) = id := rfl
    rw [hid, List.modifyHead_id]
    rfl
  | cons l ls ih =>
    rw [List.foldlM_cons] at h
    obtain ⟨d₁, h₁, h⟩ := bind_eq_ok_iff.mp h
    obtain ⟨rfl, hhead, hparts⟩ := ih h
    rw [split]
    split
    · rename_i bank name hparse
      have hbegin : d.begin l.2 bank name = .ok d₁ := by
        rcases addLine_eq_ok h₁ with ⟨hnone, -⟩ | ⟨statement, hsome, hadd⟩
        · rw [hparse] at hnone
          cases hnone
        · rw [hparse] at hsome
          obtain rfl := Option.some.inj (Except.ok.inj hsome)
          exact hadd
      obtain ⟨-, -, rfl⟩ := begin_eq_ok_iff.mp hbegin
      have hfirst := hhead _ rfl
      refine ⟨?_, fun _ _ => trivial, List.forall_mem_cons.mpr ⟨hfirst, hparts⟩⟩
      have hid : (fun b : Section => ([] : List (List Char × ℕ)).foldl (Section.read s) b) = id :=
        rfl
      rw [hid, List.modifyHead_id, id, ofParts_cons, above_assoc, Part.toSection_eq]
      rfl
    · rename_i hbank
      obtain ⟨rfl, htakes⟩ := addLine_eq_read h₁ hbank
      refine ⟨?_, ?_, hparts⟩
      · simp only [List.modifyHead_modifyHead]
        rfl
      · intro b hb
        refine ⟨htakes b hb, ?_⟩
        have hread : b.read s l ∈ (d.sections.modifyHead fun b => b.read s l).head? := by
          rw [List.head?_modifyHead, Option.mem_def.mp hb]
          rfl
        have hrest := hhead _ hread
        rwa [Section.offset_read] at hrest

/-- **A source without a fault in its lines becomes the draft of its parts.** -/
theorem eq_ofParts {lines : List (List Char)} (h : ofLines s lines = .ok d) :
    d = ofParts s (parts s lines) := by
  rw [(foldlM_addLine_eq_ok h).1]
  simp only [above, List.modifyHead_nil, List.append_nil]
  rfl

/-- **Each line of a part is one that its bank takes.** -/
theorem takesAll_of_mem_parts {lines : List (List Char)} (h : ofLines s lines = .ok d) {p : Part}
    (hp : p ∈ parts s lines) : TakesAll s 0 p.body :=
  (foldlM_addLine_eq_ok h).2.2 p hp

/-- The sections of a draft are those of the parts of its lines. -/
theorem mem_sections_iff {lines : List (List Char)} (h : ofLines s lines = .ok d) {b : Section} :
    b ∈ d.sections ↔ ∃ p ∈ parts s lines, p.toSection s = b := by
  rw [eq_ofParts h, ofParts, List.mem_reverse, List.mem_map]

/-! ## Names are given once -/

/-- What a draft gains keeps the labels of each section different. -/
theorem nodup_labels_of_add {n : ℕ} {statement : Statement} (h : d.add n statement = .ok d')
    (hd : ∀ b ∈ d.sections, (b.labels.map Prod.fst).Nodup) :
    ∀ b ∈ d'.sections, (b.labels.map Prod.fst).Nodup := by
  have hcurrent {b b' : Section} {bs : List Section} (hsections : d.sections = b :: bs)
      (hb' : (b.labels.map Prod.fst).Nodup → (b'.labels.map Prod.fst).Nodup) :
      ∀ c ∈ b' :: bs, (c.labels.map Prod.fst).Nodup := by
    rw [hsections] at hd
    obtain ⟨hb, hbs⟩ := List.forall_mem_cons.mp hd
    exact List.forall_mem_cons.mpr ⟨hb' hb, hbs⟩
  cases statement with
  | bank index name =>
    obtain ⟨-, -, rfl⟩ := begin_eq_ok_iff.mp h
    exact List.forall_mem_cons.mpr ⟨List.nodup_nil, hd⟩
  | label name =>
    obtain ⟨b, b', bs, hsections, hdefine, rfl⟩ := modifyCurrent_eq_ok h
    refine hcurrent hsections fun hb => ?_
    rw [Section.define_eq_ok hdefine, List.map_cons, List.nodup_cons]
    refine ⟨fun hmem => ?_, hb⟩
    obtain ⟨x, hx, rfl⟩ := List.mem_map.mp hmem
    rw [Section.define] at hdefine
    split at hdefine
    · cases hdefine
    · split at hdefine
      · cases hdefine
      · rename_i hnew
        rw [Option.not_isSome_iff_eq_none, List.lookup_eq_none_iff] at hnew
        exact bne_iff_ne.mp (hnew x hx) rfl
  | tokens ts =>
    obtain ⟨b, b', bs, hsections, hextend, rfl⟩ := modifyCurrent_eq_ok h
    refine hcurrent hsections fun hb => ?_
    rwa [Section.extend_eq_ok hextend]
  | origin origin =>
    obtain ⟨b, b', bs, hsections, hadvance, rfl⟩ := modifyCurrent_eq_ok h
    refine hcurrent hsections fun hb => ?_
    rw [Section.advance] at hadvance
    split at hadvance
    · cases hadvance
    · rwa [Section.extend_eq_ok hadvance]

variable {lines : List (List Char)} {p : Part}

/-- **No bank has two labels of one name.** -/
theorem nodup_labels (h : ofLines s lines = .ok d) (hp : p ∈ parts s lines) :
    ((p.labels s).map Prod.fst).Nodup := by
  have hlabels : ∀ b ∈ d.sections, (b.labels.map Prod.fst).Nodup := by
    refine foldlM_induction (P := fun d => ∀ b ∈ d.sections, (b.labels.map Prod.fst).Nodup) h ?_
      fun b hb => nomatch hb
    intro l _ d₁ d₂ hd₁ hline
    rcases addLine_eq_ok hline with ⟨-, rfl⟩ | ⟨statement, -, hadd⟩
    · exact hd₁
    · exact nodup_labels_of_add hadd hd₁
  have hnodup := hlabels _ ((mem_sections_iff h).mpr ⟨p, hp, rfl⟩)
  rw [Part.toSection, List.map_reverse] at hnodup
  exact (List.reverse_perm _).nodup_iff.mp hnodup

/-- **No two banks have one name.** -/
theorem nodup_constants (h : ofLines s lines = .ok d) :
    (((parts s lines).filterMap Part.constant?).map Prod.fst).Nodup := by
  have hread : readLines? s {} lines = some d.unnumbered := by
    rw [readLines?_eq_ofLines, h]
    rfl
  have hnodup : (d.unnumbered.constants.map Prod.fst).Nodup :=
    nodup_names_of_readLines? hread List.nodup_nil
  rw [unnumbered, eq_ofParts h, ofParts, List.map_reverse] at hnodup
  exact (List.reverse_perm _).nodup_iff.mp hnodup

/-- **A name stands in the draft for what it does in the source.** -/
theorem lookup_toSection (h : ofLines s lines = .ok d) (hp : p ∈ parts s lines) (name : String) :
    (p.toSection s).lookup d.constants name = p.value? s (parts s lines) name := by
  have hlabels := lookup_eq_of_perm (p.labels s).reverse_perm.symm (nodup_labels h hp) name
  have hconstants := lookup_eq_of_perm (List.reverse_perm _).symm (nodup_constants h) name
  rw [eq_ofParts h, Section.lookup, Part.value?, hlabels, hconstants]
  rfl

/-- **A label stands for the number of tokens before it**, whatever other banks are called. -/
theorem value?_of_label? {before after : List (List Char × ℕ)} {l : List Char × ℕ} {name : String}
    (h : ofLines s lines = .ok d) (hp : p ∈ parts s lines) (hbody : p.body = before ++ l :: after)
    (hl : label? s l.1 = some name) :
    ∃ v, p.value? s (parts s lines) name = some v ∧ v.toNat = (tokensFrom s 0 before).length := by
  have htakes := takesAll_of_mem_parts h hp
  rw [hbody, takesAll_append, TakesAll, Nat.zero_add] at htakes
  have hle : (tokensFrom s 0 before).length ≤ 255 := htakes.2.1.le_of_label? hl
  have hlabels : p.labels s = labelsFrom s 0 before ++
      (name, UInt8.ofNat (tokensFrom s 0 before).length) ::
        labelsFrom s (tokensFrom s 0 before).length after := by
    rw [Part.labels, hbody, labelsFrom_append, labelsFrom, hl, tokensAt_of_label? hl, Nat.zero_add]
    rfl
  refine ⟨UInt8.ofNat (tokensFrom s 0 before).length, ?_,
    UInt8.toNat_ofNat_of_lt' (Nat.lt_succ_of_le hle)⟩
  rw [Part.value?, hlabels, lookup_of_nodup (hlabels ▸ nodup_labels h hp), Option.some_or]

/-- **A name that is no label in a bank stands for the bank so called.** -/
theorem value?_of_name (h : ofLines s lines = .ok d) {q : Part} {name : String}
    (hq : q ∈ parts s lines) (hname : q.name = some name)
    (hlabel : ∀ l ∈ p.body, label? s l.1 ≠ some name) :
    p.value? s (parts s lines) name = some q.bank := by
  have hlabels : (p.labels s).lookup name = none := by
    rw [lookup_eq_none_iff_forall, Part.labels, exists_mem_labelsFrom_iff]
    rintro ⟨l, hl, heq⟩
    exact hlabel l hl heq
  have hconstant : (name, q.bank) ∈ (parts s lines).filterMap Part.constant? :=
    List.mem_filterMap.mpr ⟨q, hq, by rw [Part.constant?, hname]; rfl⟩
  obtain ⟨xs, ys, hsplit⟩ := List.append_of_mem hconstant
  rw [Part.value?, hlabels, Option.none_or, hsplit, lookup_of_nodup (hsplit ▸ nodup_constants h)]

/-- **What a source becomes**: each of its parts is a bank, and there are no other banks. -/
theorem finish_eq_ok_iff_parts {q : Program} (h : ofLines s lines = .ok d) :
    d.finish = .ok q ↔
      (∀ p ∈ parts s lines, ∃ as, p.atoms s (parts s lines) 0 p.body = .ok as ∧
        q.get? p.bank = some (fold as)) ∧
      ∀ i, (∀ p ∈ parts s lines, p.bank ≠ i) → q.get? i = none := by
  rw [finish_eq_ok_iff (nodup_of_ofLines h)]
  constructor
  · intro hyields
    refine ⟨fun p hp => ?_, fun i hi => hyields.other i fun b hb => ?_⟩
    · have hbank := hyields.bank _ ((mem_sections_iff h).mpr ⟨p, hp, rfl⟩)
      rwa [eq_ofParts h] at hbank
    · obtain ⟨p, hp, rfl⟩ := (mem_sections_iff h).mp hb
      exact hi p hp
  · rintro ⟨hbank, hother⟩
    refine ⟨fun b hb => ?_,
      fun i hi => hother i fun p hp => hi _ ((mem_sections_iff h).mpr ⟨p, hp, rfl⟩)⟩
    obtain ⟨p, hp, rfl⟩ := (mem_sections_iff h).mp hb
    rw [eq_ofParts h]
    exact hbank p hp

end Draft

end Protocell.Assembly
