import Protocell.Program.Files
import Protocell.Proofs.Folders
import Protocell.Text.Digits

/-!
# Proofs/BankFiles — programs that share a folder

The name of a bank's file determines the stem and the number of the bank, whatever the stem looks
like (`Program.fileName_inj`): the number has no dot in it, so it stands between the last two dots
of the name.  A save therefore sets the files of its own stem for the banks that it has, and no
others (`contents_save`).

After any number of saves a load finds, bank by bank, what was saved last under its stem.
-/

namespace Protocell.Program

open Files

/-! ## Names of bank files -/

/-- A row is cut at its last mark in one way only. -/
theorem eq_of_append_cons_eq {α : Type} {x : α} {a b c d : List α} (hc : x ∉ c) (hd : x ∉ d)
    (h : a ++ x :: c = b ++ x :: d) : a = b ∧ c = d := by
  rcases List.append_eq_append_iff.mp h with ⟨e, rfl, he⟩ | ⟨e, rfl, he⟩
  · cases e with
    | nil => exact ⟨(List.append_nil a).symm, (List.cons.inj he).2⟩
    | cons y e =>
      obtain ⟨rfl, rfl⟩ := List.cons.inj he
      exact absurd (List.mem_append_right _ List.mem_cons_self) hc
  · cases e with
    | nil => exact ⟨List.append_nil b, (List.cons.inj he).2.symm⟩
    | cons y e =>
      obtain ⟨rfl, rfl⟩ := List.cons.inj he
      exact absurd (List.mem_append_right _ List.mem_cons_self) hd

theorem toList_toString (n : ℕ) : (toString n).toList = Text.decimal n := by
  rw [Nat.toString_eq_ofList_toDigits, String.toList_ofList, Text.decimal]

theorem decimal_inj {m n : ℕ} (h : Text.decimal m = Text.decimal n) : m = n := by
  rw [← Text.decimalNumber_decimal m, h, Text.decimalNumber_decimal]

theorem toList_fileName (stem : String) (i : UInt8) :
    (fileName stem i).toList
      = (stem.toList ++ '.' :: Text.decimal i.toNat) ++ ".cellprg".toList := by
  rw [fileName, String.toList_append, String.toList_append, String.toList_append, toList_toString,
    List.append_assoc stem.toList]
  rfl

/-- **The name of a bank's file determines the stem and the bank.** -/
theorem fileName_inj {s t : String} {i j : UInt8} :
    fileName s i = fileName t j ↔ s = t ∧ i = j := by
  have hdot (n : ℕ) : '.' ∉ Text.decimal n := fun hmem =>
    absurd (Text.isDigit_of_mem_decimal hmem) (by decide)
  constructor
  · intro h
    rw [← String.toList_inj, toList_fileName, toList_fileName, List.append_left_inj] at h
    obtain ⟨hstem, hnumber⟩ := eq_of_append_cons_eq (hdot _) (hdot _) h
    exact ⟨String.toList_inj.mp hstem, UInt8.toNat_inj.mp (decimal_inj hnumber)⟩
  · rintro ⟨rfl, rfl⟩
    rfl

/-- The names of bank files are names of entries, unless the stem is a path. -/
theorem isName_fileName {stem : String} (h : '/' ∉ stem.toList) (i : UInt8) :
    IsName (fileName stem i) := by
  have hlength : 3 ≤ (fileName stem i).toList.length := by
    rw [toList_fileName, List.length_append]
    exact Nat.le_trans (by decide) (Nat.le_add_left _ _)
  refine ⟨?_, ?_, ?_, ?_⟩
  · rw [toList_fileName]
    simp only [List.mem_append, List.mem_cons, not_or]
    refine ⟨⟨h, by decide, fun hmem => ?_⟩, by decide⟩
    exact absurd (Text.isDigit_of_mem_decimal hmem) (by decide)
  all_goals
    intro heq
    rw [heq] at hlength
    exact absurd hlength (by decide)

/-! ## Saving -/

variable {f g : Files} {folder stem t : String} {p : Program}

/-- Saving a list of banks sets their files; the last entry of a bank counts. -/
theorem contents_saveBanks (hstem : '/' ∉ stem.toList) {bs : List (UInt8 × List UInt8)}
    {paths : List String} (hfolder : f.HasFolder folder)
    (h : saveBanks folder stem bs f = (g, .ok paths)) :
    g.HasFolder folder ∧ ∀ t : String, '/' ∉ t.toList → ∀ j,
      g.contents folder (fileName t j) =
        (if stem = t then bs.reverse.lookup j else none).or (f.contents folder (fileName t j)) := by
  induction bs generalizing f paths with
  | nil =>
    obtain ⟨rfl, -⟩ := Prod.mk.inj h
    refine ⟨hfolder, fun t _ j => ?_⟩
    rw [List.reverse_nil, List.lookup_nil, ite_self, Option.none_or]
  | cons b bs ih =>
    obtain ⟨i, bytes⟩ := b
    rw [saveBanks] at h
    split at h
    · cases h
    · rename_i f₁ hwrite
      obtain ⟨hg, hrest⟩ := Prod.mk.inj h
      obtain ⟨paths', hpaths, -⟩ := map_eq_ok_iff.mp hrest
      obtain ⟨hfolder₁, hcontents⟩ := contents_write (isName_fileName hstem i) hfolder hwrite
      obtain ⟨hfolder', hbanks⟩ := ih hfolder₁ (Prod.ext hg hpaths)
      refine ⟨hfolder', fun t ht j => ?_⟩
      rw [hbanks t ht, hcontents _ (isName_fileName ht j), List.reverse_cons, List.lookup_append]
      simp only [fileName_inj]
      by_cases hst : stem = t
      · rw [if_pos hst, if_pos hst, Option.or_assoc, List.lookup_cons]
        by_cases hij : i = j
        · simp [hst, hij]
        · simp [hij, beq_false_of_ne (Ne.symm hij)]
      · simp [hst]

/-- A bank is found in the list of banks. -/
theorem lookup_banks (p : Program) (j : UInt8) : p.banks.reverse.lookup j = p.get? j := by
  have hmem {i : UInt8} {bytes : List UInt8} :
      (i, bytes) ∈ p.banks.reverse ↔ p.get? i = some bytes := by
    rw [List.mem_reverse, mem_banks]
  cases hlookup : p.banks.reverse.lookup j with
  | some bytes =>
    obtain ⟨l₁, l₂, heq, -⟩ := List.lookup_eq_some_iff.mp hlookup
    exact (hmem.mp (heq ▸ List.mem_append_right _ List.mem_cons_self)).symm
  | none =>
    rw [List.lookup_eq_none_iff] at hlookup
    refine (Option.eq_none_iff_forall_not_mem.mpr fun bytes hbytes => ?_).symm
    exact absurd (hlookup _ (hmem.mpr hbytes)) (by simp)

/-- **A save sets the files of its stem for the banks that it has**, and no others. -/
theorem contents_save (hstem : '/' ∉ stem.toList) {paths : List String}
    (h : p.save folder stem f = (g, .ok paths)) :
    g.HasFolder folder ∧ ∀ t : String, '/' ∉ t.toList → ∀ j,
      g.contents folder (fileName t j) =
        (if stem = t then p.get? j else none).or
          ((f.makeFolders folder).1.contents folder (fileName t j)) := by
  rw [save] at h
  split at h
  · cases h
  · rename_i made hmade
    obtain ⟨hfolder, hbanks⟩ := contents_saveBanks hstem (hasFolder_of_makeFolders hmade) h
    refine ⟨hfolder, fun t ht j => ?_⟩
    rw [hbanks t ht, lookup_banks, hmade]

/-- Saves programs into one folder, each under its stem, until a save fails. -/
def saveAll (folder : String) : List (String × Program) → Files → Except FileError Files
  | [], f => .ok f
  | (stem, p) :: rest, f =>
    match p.save folder stem f with
    | (_, .error e) => .error e
    | (f, .ok _) => saveAll folder rest f

/-- The bytes of a bank in the last program saved under a stem that has the bank. -/
def lastSaved? (saves : List (String × Program)) (t : String) (i : UInt8) : Option (List UInt8) :=
  (saves.filter fun s => s.1 = t).reverse.findSome? fun s => s.2.get? i

theorem lastSaved?_cons (stem : String) (p : Program) (saves : List (String × Program)) (t : String)
    (i : UInt8) :
    lastSaved? ((stem, p) :: saves) t i =
      (lastSaved? saves t i).or (if stem = t then p.get? i else none) := by
  rw [lastSaved?, lastSaved?, List.filter_cons]
  by_cases hst : stem = t
  · rw [if_pos (decide_eq_true hst), if_pos hst, List.reverse_cons, List.findSome?_append,
      List.findSome?_singleton]
  · rw [if_neg (by simpa using hst), if_neg hst, Option.or_none]

/-- **A row of saves leaves what it saved last over what was there**, unless making the folder
brings files to light. -/
theorem contents_saveAll {saves : List (String × Program)}
    (hstems : ∀ s ∈ saves, '/' ∉ s.1.toList)
    (hmade : ∀ name, IsName name →
      (f.makeFolders folder).1.contents folder name = f.contents folder name)
    (h : saveAll folder saves f = .ok g) (ht : '/' ∉ t.toList) (i : UInt8) :
    g.contents folder (fileName t i) =
      (lastSaved? saves t i).or (f.contents folder (fileName t i)) := by
  induction saves generalizing f with
  | nil =>
    obtain rfl := Except.ok.inj h
    rfl
  | cons s saves ih =>
    obtain ⟨stem, p⟩ := s
    obtain ⟨hstem, hstems⟩ := List.forall_mem_cons.mp hstems
    rw [saveAll] at h
    split at h
    · cases h
    · rename_i f₁ paths hsave
      obtain ⟨hfolder, hcontents⟩ := contents_save hstem hsave
      rw [ih hstems (fun name hname => (f₁.grows_makeFolders folder).contents_eq hname hfolder) h,
        hcontents t ht, hmade _ (isName_fileName ht i), lastSaved?_cons, Option.or_assoc]

/-! ## Loading -/

theorem exists_loadBank_eq_ok (p : Program) {i : UInt8}
    (hsize : ∀ bytes, f.contents folder (fileName t i) = some bytes → bytes.length ≤ bankSize) :
    ∃ q, loadBank f folder t p i = .ok q ∧ ∀ j, q.get? j =
      if i = j then (f.contents folder (fileName t i)).or (p.get? j) else p.get? j := by
  have hfile := f.isFile_join folder (fileName t i)
  cases hcontents : f.contents folder (fileName t i) with
  | none =>
    rw [hcontents] at hfile
    exact ⟨p, if_neg (Bool.eq_false_iff.mp hfile), fun j => by rw [Option.none_or, ite_self]⟩
  | some bytes =>
    obtain ⟨q, hq⟩ := p.exists_insert_eq_ok i (hsize bytes hcontents)
    have hread := toOption_eq_some_iff.mp hcontents
    rw [hcontents, Option.isSome_some] at hfile
    refine ⟨q, ?_, get?_insert hq⟩
    rw [loadBank, if_pos hfile, hread]
    change (p.insert i bytes).mapError _ = _
    rw [hq]
    rfl

/-- **A load finds the banks whose files are in the folder.** -/
theorem exists_load_eq_ok
    (hsize : ∀ i bytes, f.contents folder (fileName t i) = some bytes → bytes.length ≤ bankSize) :
    ∃ q, load f folder t = .ok q ∧ ∀ i, q.get? i = f.contents folder (fileName t i) := by
  have hbanks (is : List UInt8) (p : Program) :
      ∃ q, is.foldlM (loadBank f folder t) p = .ok q ∧ ∀ i, q.get? i =
        if i ∈ is then (f.contents folder (fileName t i)).or (p.get? i) else p.get? i := by
    induction is generalizing p with
    | nil => exact ⟨p, rfl, fun i => (if_neg List.not_mem_nil).symm⟩
    | cons i is ih =>
      obtain ⟨p₁, hp₁, hget₁⟩ := exists_loadBank_eq_ok p (hsize i)
      obtain ⟨q, hq, hget⟩ := ih p₁
      refine ⟨q, bind_eq_ok_iff.mpr ⟨p₁, hp₁, hq⟩, fun j => ?_⟩
      rw [hget, hget₁]
      by_cases hij : i = j
      · subst hij
        simp [← Option.or_assoc]
      · simp [hij, Ne.symm hij]
  obtain ⟨q, hq, hget⟩ := hbanks allBytes empty
  refine ⟨q, hq, fun i => ?_⟩
  have hempty : empty.get? i = none := by rw [get?, empty, ByteTable.get_fill, Option.map_none]
  rw [hget, if_pos (mem_allBytes i), hempty, Option.or_none]

theorem length_le_of_lastSaved? {saves : List (String × Program)} {i : UInt8} {bytes : List UInt8}
    (h : lastSaved? saves t i = some bytes) : bytes.length ≤ bankSize := by
  obtain ⟨s, -, hs⟩ := List.exists_of_findSome?_eq_some h
  exact length_le_of_get? hs

/-- **Bank files keep programs apart and merge by bank.**  Programs are saved into one folder, one
after the other, under any stems that are no paths; once made, the folder had no files in it.  Then
a load of a stem succeeds, and each of its banks is the one in the last program saved under this
stem that has the bank.  In particular a program that is the only one saved under its stem comes
back as it was. -/
theorem load_of_saves {saves : List (String × Program)}
    (hbare : ∀ name : String, '/' ∉ name.toList →
      (f.makeFolders folder).1.isFile (join folder name) = false)
    (hstems : ∀ s ∈ saves, '/' ∉ s.1.toList) (hsaves : saveAll folder saves f = .ok g)
    (ht : '/' ∉ t.toList) :
    ∃ q, load g folder t = .ok q ∧ (∀ i, q.get? i = lastSaved? saves t i) ∧
      ∀ p, (saves.filter fun s => s.1 = t) = [(t, p)] → q = p := by
  have hnone {name : String} (hname : IsName name) :
      (f.makeFolders folder).1.contents folder name = none := by
    rw [← Option.not_isSome_iff_eq_none, ← isFile_join, hbare name hname.no_slash]
    exact Bool.false_ne_true
  have hnone' {name : String} (hname : IsName name) : f.contents folder name = none :=
    (f.grows_makeFolders folder).contents_eq_none hname (hnone hname)
  have hcontents (i : UInt8) : g.contents folder (fileName t i) = lastSaved? saves t i := by
    have hsame (name : String) (hname : IsName name) := (hnone hname).trans (hnone' hname).symm
    rw [contents_saveAll hstems hsame hsaves ht, hnone' (isName_fileName ht i), Option.or_none]
  obtain ⟨q, hload, hget⟩ :
      ∃ q, load g folder t = .ok q ∧ ∀ i, q.get? i = g.contents folder (fileName t i) :=
    exists_load_eq_ok fun i bytes hbytes =>
      length_le_of_lastSaved? ((hcontents i).symm.trans hbytes)
  refine ⟨q, hload, fun i => (hget i).trans (hcontents i), fun p hp => Program.ext fun i => ?_⟩
  rw [hget, hcontents, lastSaved?, hp]
  exact List.findSome?_singleton ..

/-- Two stems of which one looks like a bank of the other.  Bank 0 is saved twice under the first,
and bank 7 only the first time. -/
theorem load_of_three_saves :
    let program (banks : List (UInt8 × List UInt8)) : Program := (ofBanks banks).toOption.getD empty
    ∃ g q, saveAll "d" [("a", program [(0, [1, 2]), (7, [3])]), ("a.7", program [(0, [4])]),
        ("a", program [(0, [4])])] {} = .ok g ∧
      load g "d" "a" = .ok q ∧ q.get? 0 = some [4] ∧ q.get? 7 = some [3] ∧
      load g "d" "a.7" = .ok (program [(0, [4])]) := by
  intro program
  let saves : List (String × Program) := [("a", program [(0, [1, 2]), (7, [3])]),
    ("a.7", program [(0, [4])]), ("a", program [(0, [4])])]
  obtain ⟨g, hg⟩ : ∃ g, (saveAll "d" saves {}).toOption = some g :=
    Option.isSome_iff_exists.mp (by decide +kernel)
  rw [toOption_eq_some_iff] at hg
  have hbare (name : String) : (({} : Files).makeFolders "d").1.isFile (join "d" name) = false :=
    isFile_eq_false_of_folders (by decide +kernel) _
  have hstems : ∀ s ∈ saves, '/' ∉ s.1.toList := by simp [saves]
  obtain ⟨q, hload, hget, -⟩ :=
    load_of_saves (fun name _ => hbare name) hstems hg (t := "a") (by decide)
  obtain ⟨q', hload', -, honly⟩ :=
    load_of_saves (fun name _ => hbare name) hstems hg (t := "a.7") (by decide)
  refine ⟨g, q, hg, hload, ?_, ?_, ?_⟩
  · exact (hget 0).trans (by decide +kernel)
  · exact (hget 7).trans (by decide +kernel)
  · rw [hload', honly (program [(0, [4])]) (by simp [saves])]

end Protocell.Program
