import Protocell.Proofs.Folding.Settle
import Protocell.Proofs.Source.Sections

/-!
# Proofs/Source/LineCode — the bytes that a line became

Every token has one place in its bank, and what the places of a line's tokens emit is the code of
the line (`Draft.lineCode?`).  An instruction further down may take literals of the line away, and
one on the line may take literals of lines above, so in general neither the bytes nor where they
begin can be told from the line alone.

A line that spells a complete expression has the code of that expression, whatever stands around it
(`lineCode?_of_row`).
-/

namespace Protocell.Assembly

/-- Bytes of a bank, and where they begin. -/
structure LineCode where
  bank : UInt8
  start : ℕ
  bytes : List UInt8
deriving DecidableEq, Repr

/-- The bytes stand in a program where they are said to. -/
def LineCode.StandsIn (code : LineCode) (p : Program) : Prop :=
  ∃ before after, p.get? code.bank = some (before ++ code.bytes ++ after) ∧
    before.length = code.start

/-- The bytes of emissions that belong to lines. -/
def bytesOf (es : List (Emission × ℕ)) : List UInt8 := es.flatMap fun e => e.1.bytes

namespace Section

/-- What the tokens of a bank emit, in order, each with its line. -/
def emissions (constants : List (String × UInt8)) (b : Section) :
    Except Error (List (Emission × ℕ)) := do
  let atoms ← b.atoms constants
  return ((atoms.foldl place []).reverse.map Placed.emission).zip (b.tokens.map Prod.snd)

/-- **The code of a line in its bank**: what its tokens emit, behind what those of earlier lines
emit. -/
def lineCode? (constants : List (String × UInt8)) (b : Section) (n : ℕ) : Option LineCode :=
  (b.emissions constants).toOption.map fun es =>
    { bank := b.bank
      start := (bytesOf (es.filter fun e => e.2 < n)).length
      bytes := bytesOf (es.filter fun e => e.2 == n) }

end Section

namespace Draft

/-- The bank that has tokens of a line. -/
def sectionOf? (d : Draft) (n : ℕ) : Option Section :=
  d.sections.find? fun b => b.tokens.any fun t => t.2 == n

/-- **The code of a line of a source.** -/
def lineCode? (d : Draft) (n : ℕ) : Option LineCode :=
  (d.sectionOf? n).bind fun b => b.lineCode? d.constants n

end Draft

/-! ## Telling lines apart -/

theorem bytesOf_zip {ps : List Placed} {ns : List ℕ} (h : ps.length = ns.length) :
    bytesOf ((ps.map Placed.emission).zip ns) = ps.flatMap fun p => p.emission.bytes := by
  induction ps generalizing ns with
  | nil => rfl
  | cons p ps ih =>
    cases ns with
    | nil => cases h
    | cons n ns =>
      rw [List.map_cons, List.zip_cons_cons, List.flatMap_cons, ← ih (Nat.succ.inj h)]
      rfl

theorem filter_zip_of_forall {es : List Emission} {ns : List ℕ} {q : ℕ → Bool}
    (h : ∀ n ∈ ns, q n = true) : (es.zip ns).filter (fun e => q e.2) = es.zip ns :=
  List.filter_eq_self.mpr fun _ he => h _ (List.of_mem_zip he).2

theorem filter_zip_of_forall_not {es : List Emission} {ns : List ℕ} {q : ℕ → Bool}
    (h : ∀ n ∈ ns, q n = false) : (es.zip ns).filter (fun e => q e.2) = [] :=
  List.filter_eq_nil_iff.mpr fun _ he => Bool.eq_false_iff.mp (h _ (List.of_mem_zip he).2)

section Filter

variable {lower here upper : List Emission} {ks ls ms : List ℕ} {n : ℕ}

/-- What belongs to earlier lines comes first. -/
theorem filter_earlier (hks : ∀ k ∈ ks, k < n) (hls : ∀ k ∈ ls, k = n) (hms : ∀ k ∈ ms, n < k) :
    (lower.zip ks ++ here.zip ls ++ upper.zip ms).filter (fun e => e.2 < n) = lower.zip ks := by
  rw [List.filter_append, List.filter_append,
    filter_zip_of_forall (q := fun k => k < n) fun k hk => decide_eq_true (hks k hk),
    filter_zip_of_forall_not (q := fun k => k < n)
      fun k hk => decide_eq_false (Nat.not_lt.mpr (Nat.le_of_eq (hls k hk).symm)),
    filter_zip_of_forall_not (q := fun k => k < n)
      fun k hk => decide_eq_false (Nat.not_lt.mpr (Nat.le_of_lt (hms k hk))),
    List.append_nil, List.append_nil]

/-- What belongs to a line lies between the earlier and the later ones. -/
theorem filter_line (hks : ∀ k ∈ ks, k < n) (hls : ∀ k ∈ ls, k = n) (hms : ∀ k ∈ ms, n < k) :
    (lower.zip ks ++ here.zip ls ++ upper.zip ms).filter (fun e => e.2 == n) = here.zip ls := by
  rw [List.filter_append, List.filter_append,
    filter_zip_of_forall_not (q := fun k => k == n)
      fun k hk => beq_eq_false_iff_ne.mpr (Nat.ne_of_lt (hks k hk)),
    filter_zip_of_forall (q := fun k => k == n) fun k hk => beq_iff_eq.mpr (hls k hk),
    filter_zip_of_forall_not (q := fun k => k == n)
      fun k hk => beq_eq_false_iff_ne.mpr (Nat.ne_of_gt (hms k hk)),
    List.nil_append, List.append_nil]

end Filter

/-- **The code of a line is read off the places of its tokens**, once these are told apart from
those before and behind. -/
theorem Section.lineCode?_eq {constants : List (String × UInt8)} {b : Section} {n : ℕ}
    {atoms : List Atom} {before line after : List (Token × ℕ)} {lower here upper : List Placed}
    (hatoms : b.atoms constants = .ok atoms) (htokens : b.tokens = before ++ line ++ after)
    (hbefore : ∀ x ∈ before, x.2 < n) (hline : ∀ x ∈ line, x.2 = n) (hafter : ∀ x ∈ after, n < x.2)
    (hplaces : (atoms.foldl place []).reverse = lower ++ here ++ upper)
    (hlower : lower.length = before.length) (hhere : here.length = line.length) :
    b.lineCode? constants n =
      some ⟨b.bank, (lower.flatMap fun p => p.emission.bytes).length,
        here.flatMap fun p => p.emission.bytes⟩ := by
  have hlower' : (lower.map Placed.emission).length = (before.map Prod.snd).length := by
    rw [List.length_map, List.length_map, hlower]
  have hhere' : (here.map Placed.emission).length = (line.map Prod.snd).length := by
    rw [List.length_map, List.length_map, hhere]
  have hzip : ((atoms.foldl place []).reverse.map Placed.emission).zip (b.tokens.map Prod.snd)
      = (lower.map Placed.emission).zip (before.map Prod.snd)
        ++ (here.map Placed.emission).zip (line.map Prod.snd)
        ++ (upper.map Placed.emission).zip (after.map Prod.snd) := by
    rw [hplaces, htokens, List.map_append, List.map_append, List.map_append, List.map_append,
      List.zip_append (by rw [List.length_append, List.length_append, hlower', hhere']),
      List.zip_append hlower']
  have hemissions : b.emissions constants
      = .ok (((atoms.foldl place []).reverse.map Placed.emission).zip (b.tokens.map Prod.snd)) := by
    rw [emissions, hatoms]
    rfl
  have hbefore' : ∀ k ∈ before.map Prod.snd, k < n := List.forall_mem_map.mpr hbefore
  have hline' : ∀ k ∈ line.map Prod.snd, k = n := List.forall_mem_map.mpr hline
  have hafter' : ∀ k ∈ after.map Prod.snd, n < k := List.forall_mem_map.mpr hafter
  rw [lineCode?, hemissions, hzip, Except.toOption, Option.map_some,
    filter_earlier hbefore' hline' hafter', filter_line hbefore' hline' hafter',
    bytesOf_zip (by rw [List.length_map, hlower]), bytesOf_zip (by rw [List.length_map, hhere])]

/-! ## Lines that spell a tree -/

/-- The bank that has tokens of a line is the one where they stand. -/
theorem Stands.sectionOf?_eq {d : Draft} {n : ℕ} {ts : List Token} {b : Section}
    (h : Stands n ts d.sections b) (hts : ts ≠ []) : d.sectionOf? n = some b := by
  obtain ⟨⟨newer, older, hsections, hnewer⟩, before, after, htokens, -, -⟩ := h
  obtain ⟨t, ts, rfl⟩ := List.exists_cons_of_ne_nil hts
  refine List.find?_eq_some_iff_append.mpr ⟨?_, newer, older, hsections, ?_⟩
  · rw [htokens]
    exact List.any_eq_true.mpr ⟨(t, n), by simp, beq_self_eq_true n⟩
  · intro c hc
    rw [Bool.not_eq_true', List.any_eq_false]
    intro x hx hn
    exact Nat.lt_irrefl n ((beq_iff_eq.mp hn) ▸ hnewer c hc x hx)

theorem Tree.row_ne_nil (t : Tree) : t.row ≠ [] := by
  cases t with
  | leaf v => exact List.cons_ne_nil _ _
  | node i ts => exact List.append_ne_nil_of_right_ne_nil _ (List.cons_ne_nil _ _)

/-- **A line that spells a complete expression becomes the code of that expression**, and the
program has it where the line's code is said to be. -/
theorem Draft.lineCode?_of_row {d : Draft} {p : Program} {n : ℕ} {ts : List Token} {b : Section}
    {t : Tree} (hfinish : d.finish = .ok p) (hbanks : (d.sections.map Section.bank).Nodup)
    (hstands : Stands n ts d.sections b)
    (hrow : ts.mapM (fun u => b.resolve d.constants (u, n)) = .ok t.row)
    (ht : t.IsComplete) (hnode : t.literal? = none) :
    ∃ code, d.lineCode? n = some code ∧ code.bytes = t.code ∧ code.StandsIn p := by
  have hts : ts ≠ [] := by
    rintro rfl
    exact t.row_ne_nil (Except.ok.inj hrow).symm
  have hsection := hstands.sectionOf?_eq hts
  obtain ⟨⟨newer, older, hsections, -⟩, before, after, htokens, hbefore, hafter⟩ := hstands
  have hmem : b ∈ d.sections := hsections ▸ List.mem_append_right _ List.mem_cons_self
  obtain ⟨atoms, hatoms, hbank⟩ := get?_of_finish hfinish hbanks hmem
  have hparts := hatoms
  rw [Section.atoms, htokens, List.mapM_append, List.mapM_append] at hparts
  obtain ⟨_, hfirst, hparts⟩ := bind_eq_ok_iff.mp hparts
  obtain ⟨upperAtoms, hupper, hparts⟩ := bind_eq_ok_iff.mp hparts
  obtain ⟨lowerAtoms, hlower, hfirst⟩ := bind_eq_ok_iff.mp hfirst
  obtain ⟨row, hrow', hfirst⟩ := bind_eq_ok_iff.mp hfirst
  rw [List.mapM_map] at hrow'
  obtain rfl := Except.ok.inj (hrow.symm.trans hrow')
  obtain rfl := Except.ok.inj hfirst
  obtain rfl := Except.ok.inj hparts
  obtain ⟨front, back, hplaces, -, hback⟩ := foldl_place_row ht hnode lowerAtoms upperAtoms
  have hreverse : ((lowerAtoms ++ t.row ++ upperAtoms).foldl place []).reverse
      = back.reverse ++ t.placed.reverse ++ front.reverse := by
    rw [hplaces, List.reverse_append, List.reverse_append, List.append_assoc]
  have hcode := Section.lineCode?_eq hatoms htokens hbefore mem_map_line hafter hreverse
    (by rw [List.length_reverse, hback, length_of_mapM_eq_ok hlower])
    (by rw [List.length_reverse, t.length_placed, List.length_map, length_of_mapM_eq_ok hrow])
  refine ⟨_, by rw [lineCode?, hsection, Option.bind_some, hcode], t.flatMap_bytes_placed, ?_⟩
  refine ⟨_, front.reverse.flatMap fun p => p.emission.bytes, ?_, rfl⟩
  rw [hbank, fold, hreverse, List.flatMap_append, List.flatMap_append]

end Protocell.Assembly
