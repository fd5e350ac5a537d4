import Mathlib.Data.List.Basic
import Protocell.Files
import Protocell.Proofs.Success

/-!
# Proofs/Folders — a folder is a map from names to contents

A path is walked name by name, and what it leads to depends on all folders on the way.  For files of
one folder this is needless: once the folder is there, the path of an entry leads to the entry or
nowhere (`locate_join_eq_ok_iff`), and to read and to write entries is to look them up and to set
them in a map (`Files.contents`, `contents_write`).

Making a folder again adds nothing to what is in it (`Grows.contents_eq`).
-/

namespace Protocell

/-! ## Pieces of texts -/

namespace Text

theorem pieces_ne_nil (sep : Char) (cs : List Char) : pieces sep cs ≠ [] := by
  cases cs with
  | nil => exact List.cons_ne_nil _ _
  | cons c cs =>
    rw [pieces]
    split
    · exact List.cons_ne_nil _ _
    · split <;> exact List.cons_ne_nil _ _

theorem pieces_append (sep : Char) (a b : List Char) :
    pieces sep (a ++ sep :: b) = pieces sep a ++ pieces sep b := by
  induction a with
  | nil => exact if_pos rfl
  | cons c a ih =>
    rw [List.cons_append, pieces, pieces, ih]
    split
    · rfl
    · cases ha : pieces sep a with
      | nil => exact absurd ha (pieces_ne_nil sep a)
      | cons p ps => rfl

theorem pieces_of_not_mem {sep : Char} {cs : List Char} (h : sep ∉ cs) : pieces sep cs = [cs] := by
  induction cs with
  | nil => rfl
  | cons c cs ih =>
    obtain ⟨hc, hcs⟩ := not_or.mp (List.mem_cons.not.mp h)
    rw [pieces, if_neg (Ne.symm hc), ih hcs]

end Text

namespace Files

variable {f g : Files} {folder entry path : String} {d ns : List String} {bytes : List UInt8}

/-! ## Paths of entries -/

/-- **A name of an entry of a folder.** -/
structure IsName (entry : String) : Prop where
  no_slash : '/' ∉ entry.toList
  ne_empty : entry ≠ ""
  ne_dot : entry ≠ "."
  ne_dots : entry ≠ ".."

theorem IsName.ne_root (h : IsName entry) : entry ≠ root := by
  rintro rfl
  exact h.no_slash (by decide)

theorem IsName.not_isStay (h : IsName entry) : isStay entry = false := by
  rw [isStay, Bool.or_eq_false_iff, beq_eq_false_iff_ne, beq_eq_false_iff_ne]
  exact ⟨h.ne_empty, h.ne_dot⟩

theorem IsName.pieces_eq (h : IsName entry) : pieces entry = [entry] := by
  rw [pieces, Text.pieces_of_not_mem h.no_slash, List.map_singleton, String.ofList_toList]

/-- The path of an entry is that of its folder, a slash and the entry; a slash that ends the
folder's path is this slash. -/
theorem IsName.exists_join_eq (h : IsName entry) (hfolder : folder ≠ "") :
    ∃ cs, (join folder entry).toList = cs ++ '/' :: entry.toList ∧
      (folder.toList = cs ∨ folder.toList = cs ++ ['/']) := by
  have hrelative : (folder.isEmpty || entry.toList.head? == some '/') = false := by
    rw [Bool.or_eq_false_iff, beq_eq_false_iff_ne]
    refine ⟨Bool.eq_false_iff.mpr fun hempty => hfolder (String.isEmpty_iff.mp hempty), ?_⟩
    exact fun hslash => h.no_slash (List.mem_of_mem_head? hslash)
  rw [join, hrelative, if_neg Bool.false_ne_true]
  split
  · rename_i hlast
    obtain ⟨cs, hcs⟩ := List.getLast?_eq_some_iff.mp (beq_iff_eq.mp hlast)
    refine ⟨cs, ?_, .inr hcs⟩
    rw [String.toList_append, hcs, List.append_assoc]
    rfl
  · refine ⟨folder.toList, ?_, .inl rfl⟩
    rw [String.toList_append, String.toList_append, List.append_assoc]
    rfl

theorem join_empty (entry : String) : join "" entry = entry := by
  have hempty : ("".isEmpty || entry.toList.head? == some '/') = true := Bool.true_or _
  rw [join, if_pos hempty]

/-- The path of an entry begins at the root if that of its folder does. -/
theorem IsName.head?_join (h : IsName entry) (folder : String) :
    (join folder entry).toList.head? = some '/' ↔ folder.toList.head? = some '/' := by
  by_cases hempty : folder = ""
  · subst hempty
    rw [join_empty]
    exact iff_of_false (fun hslash => h.no_slash (List.mem_of_mem_head? hslash)) (by decide)
  · obtain ⟨cs, hjoin, hfolder⟩ := h.exists_join_eq hempty
    rw [hjoin]
    rcases hfolder with hcs | hcs
    · cases cs with
      | nil => exact absurd (String.toList_eq_nil_iff.mp hcs) hempty
      | cons c cs => rw [hcs, List.cons_append, List.head?_cons, List.head?_cons]
    · rw [hcs]
      cases cs <;> rfl

/-- The pieces of the path of an entry are those of its folder's, as far as they lead anywhere, and
the entry. -/
theorem IsName.exists_pieces_join (h : IsName entry) (folder : String) :
    ∃ ps, pieces (join folder entry) = ps ++ [entry] ∧
      ps.filter (!isStay ·) = (pieces folder).filter (!isStay ·) := by
  by_cases hempty : folder = ""
  · subst hempty
    exact ⟨[], by rw [join_empty, h.pieces_eq, List.nil_append], rfl⟩
  · obtain ⟨cs, hjoin, hfolder⟩ := h.exists_join_eq hempty
    refine ⟨(Text.pieces '/' cs).map String.ofList, ?_, ?_⟩
    · rw [pieces, hjoin, Text.pieces_append, List.map_append]
      exact congrArg _ h.pieces_eq
    · rcases hfolder with hcs | hcs
      · rw [pieces, hcs]
      · rw [pieces, hcs, Text.pieces_append, List.map_append, List.filter_append]
        exact (List.append_nil _).symm

/-- **The path of an entry goes where the path of its folder goes, and then to the entry.** -/
theorem IsName.steps_join (h : IsName entry) (folder : String) :
    steps (join folder entry) = names folder ++ [entry] := by
  obtain ⟨ps, hpieces, hps⟩ := h.exists_pieces_join folder
  have hnames : names (join folder entry) = names folder ++ [entry] := by
    rw [names, names, hpieces, List.filter_append, hps, List.append_assoc,
      if_congr (h.head?_join folder) rfl rfl]
    simp [h.not_isStay]
  rw [steps, hnames, hpieces, List.getLast?_concat, Option.any_some, h.not_isStay,
    if_neg Bool.false_ne_true, List.append_nil]

/-- A path whose last name is a dot asks for a folder, with or without slashes behind the dot. -/
theorem steps_of_dot (h : ((pieces path).filter (· != "")).getLast? = some ".") :
    steps path = names path ++ ["."] := by
  have hlast : (pieces path).getLast?.any isStay = true := by
    cases hpieces : (pieces path).getLast? with
    | none =>
      rw [List.getLast?_eq_none_iff.mp hpieces] at h
      cases h
    | some name =>
      by_cases hempty : name = ""
      · rw [hempty]
        rfl
      · obtain ⟨ps, hps⟩ := List.getLast?_eq_some_iff.mp hpieces
        rw [hps, List.filter_append, List.filter_cons_of_pos (by simpa using hempty),
          List.filter_nil, List.getLast?_concat] at h
        rw [Option.some.inj h]
        rfl
  rw [steps, hlast, if_pos rfl]

/-! ## Walks -/

/-- Goes from a folder into one folder after the other. -/
def enterAll (f : Files) (d : List String) (ns : List String) : Except Fault (List String) :=
  ns.foldlM f.enter d

theorem locateFrom_concat (f : Files) (d ns : List String) (name : String) :
    f.locateFrom d (ns ++ [name]) = f.enterAll d ns >>= fun e => entryPath e name := by
  induction ns generalizing d with
  | nil => rfl
  | cons n ns ih =>
    rw [List.cons_append, locateFrom, enterAll, List.foldlM_cons, bind_assoc]
    · exact congrArg _ (funext fun e => ih e)
    · simp

theorem enter_eq_ok_iff {name : String} :
    f.enter d name = .ok ns ↔ entryPath d name = .ok ns ∧ f.node? ns = some .folder := by
  rw [enter, bind_eq_ok_iff]
  constructor
  · rintro ⟨e, he, hnode⟩
    split at hnode
    · obtain rfl := Except.ok.inj hnode
      exact ⟨he, ‹_›⟩
    · cases hnode
    · cases hnode
  · rintro ⟨he, hnode⟩
    exact ⟨ns, he, by rw [hnode]; rfl⟩

/-- **A walk goes on as long as its folders stay.** -/
theorem enterAll_of_folders (hstay : ∀ ns, f.node? ns = some .folder → g.node? ns = some .folder)
    {e : List String} (h : f.enterAll d ns = .ok e) : g.enterAll d ns = .ok e := by
  induction ns generalizing d with
  | nil => exact h
  | cons n ns ih =>
    obtain ⟨d', hd', h⟩ := bind_eq_ok_iff.mp h
    obtain ⟨hpath, hnode⟩ := enter_eq_ok_iff.mp hd'
    exact bind_eq_ok_iff.mpr ⟨d', enter_eq_ok_iff.mpr ⟨hpath, hstay _ hnode⟩, ih h⟩

/-- Whether the names in a path lead to a folder. -/
def HasFolder (f : Files) (folder : String) : Prop := ∃ d, f.enterAll [] (names folder) = .ok d

/-! ## Entries of a folder -/

/-- Whether the path of an entry can lead anywhere. -/
def Fits (folder entry : String) : Prop :=
  check (join folder entry) = .ok () ∧ entry.utf8ByteSize ≤ nameLimit

/-- **The path of an entry leads to the entry or nowhere.** -/
theorem locate_join_eq_ok_iff (h : IsName entry) (hd : f.enterAll [] (names folder) = .ok d) :
    f.locate (join folder entry) = .ok ns ↔ Fits folder entry ∧ ns = d ++ [entry] := by
  have hentry :
      entryPath d entry = .ok ns ↔ entry.utf8ByteSize ≤ nameLimit ∧ ns = d ++ [entry] := by
    rw [entryPath, if_neg h.ne_root, if_neg h.ne_dot, if_neg h.ne_dots]
    split
    · exact iff_of_false (fun h => nomatch h) fun h => absurd h.1 (Nat.not_le.mpr ‹_›)
    · rw [Except.ok.injEq, eq_comm, and_iff_right (Nat.not_lt.mp ‹_›)]
  rw [locate, bind_eq_ok_iff, h.steps_join, locateFrom_concat, hd, Fits, and_assoc, ← hentry]
  exact ⟨fun ⟨_, hcheck, hns⟩ => ⟨hcheck, hns⟩, fun ⟨hcheck, hns⟩ => ⟨(), hcheck, hns⟩⟩

theorem hasFolder_of_locate (h : IsName entry) (hlocate : f.locate (join folder entry) = .ok ns) :
    f.HasFolder folder := by
  rw [locate, bind_eq_ok_iff, h.steps_join, locateFrom_concat] at hlocate
  obtain ⟨-, -, hlocate⟩ := hlocate
  obtain ⟨d, hd, -⟩ := bind_eq_ok_iff.mp hlocate
  exact ⟨d, hd⟩

theorem read_eq_ok_iff :
    f.read path = .ok bytes ↔ ∃ ns, f.locate path = .ok ns ∧ f.node? ns = some (.file bytes) := by
  rw [read, bind_eq_ok_iff]
  refine exists_congr fun ns => and_congr_right fun _ => ?_
  split
  · rename_i hnode
    rw [hnode, Option.some.injEq, Node.file.injEq]
    exact ⟨Except.ok.inj, congrArg Except.ok⟩
  · rename_i hnode
    exact iff_of_false (fun h => nomatch h) (by rw [hnode]; simp)
  · rename_i hnode
    exact iff_of_false (fun h => nomatch h) (by rw [hnode]; simp)

/-- **What is in a folder**: the contents of the file of each name, if there is one. -/
def contents (f : Files) (folder entry : String) : Option (List UInt8) :=
  (f.read (join folder entry)).toOption

/-- Just a path that can be read leads to a file. -/
theorem isFile_eq_true_iff : f.isFile path = true ↔ ∃ bytes, f.read path = .ok bytes := by
  simp only [read_eq_ok_iff]
  rw [isFile]
  split
  · rename_i ns hlocate
    simp only [hlocate, Except.ok.injEq, exists_eq_left']
    cases f.node? ns with
    | none => simp
    | some n => cases n <;> simp
  · rename_i hlocate
    simp [hlocate]

theorem isFile_join (f : Files) (folder entry : String) :
    f.isFile (join folder entry) = (f.contents folder entry).isSome := by
  rw [Bool.eq_iff_iff, isFile_eq_true_iff, contents, Option.isSome_iff_exists]
  exact exists_congr fun _ => toOption_eq_some_iff.symm

/-- A tree without files has none in any folder. -/
theorem isFile_eq_false_of_folders (h : ∀ e ∈ f.nodes, e.2 = .folder) (path : String) :
    f.isFile path = false := by
  have hfolder (ns : List String) (n : Node) (hn : f.node? ns = some n) : n = .folder := by
    rw [node?] at hn
    split at hn
    · exact (Option.some.inj hn).symm
    · obtain ⟨l₁, l₂, heq, -⟩ := List.lookup_eq_some_iff.mp hn
      exact h (ns, n) (heq ▸ List.mem_append_right _ List.mem_cons_self)
  rw [isFile]
  split
  · rename_i ns _
    cases hnode : f.node? ns with
    | none => rfl
    | some n =>
      rw [hfolder ns n hnode]
      rfl
  · rfl

theorem contents_eq_some_iff (h : IsName entry) (hd : f.enterAll [] (names folder) = .ok d) :
    f.contents folder entry = some bytes ↔
      Fits folder entry ∧ f.node? (d ++ [entry]) = some (.file bytes) := by
  rw [contents, toOption_eq_some_iff, read_eq_ok_iff]
  constructor
  · rintro ⟨ns, hlocate, hnode⟩
    obtain ⟨hfits, rfl⟩ := (locate_join_eq_ok_iff h hd).mp hlocate
    exact ⟨hfits, hnode⟩
  · rintro ⟨hfits, hnode⟩
    exact ⟨_, (locate_join_eq_ok_iff h hd).mpr ⟨hfits, rfl⟩, hnode⟩

/-! ## Writing an entry -/

theorem lookup_filter_ne {α : Type} (l : List (List String × α)) {ns ms : List String}
    (h : ms ≠ ns) : (l.filter fun e => e.1 != ns).lookup ms = l.lookup ms := by
  induction l with
  | nil => rfl
  | cons e l ih =>
    obtain ⟨k, a⟩ := e
    by_cases hk : k = ns
    · subst hk
      rw [List.filter_cons_of_neg (by simp), ih, List.lookup_cons, beq_false_of_ne h]
    · rw [List.filter_cons_of_pos (by simpa using hk), List.lookup_cons, List.lookup_cons, ih]

theorem node?_setNode {ms : List String} (n : Node) (hgiven : isGiven ms = false) :
    (f.setNode ns n).node? ms = if ms = ns then some n else f.node? ms := by
  rw [node?, node?, hgiven, setNode, List.lookup_cons]
  by_cases hms : ms = ns
  · rw [if_pos hms, hms, beq_self_eq_true]
    rfl
  · rw [if_neg hms, beq_false_of_ne hms]
    exact lookup_filter_ne _ hms

theorem node?_of_given (hgiven : isGiven ns = true) : f.node? ns = some .folder := if_pos hgiven

theorem node?_setNode_folder : (f.setNode ns .folder).node? ns = some .folder := by
  by_cases hgiven : isGiven ns = true
  · exact node?_of_given hgiven
  · rw [node?_setNode _ (Bool.eq_false_iff.mpr hgiven), if_pos rfl]

/-- Setting what is no folder keeps all folders. -/
theorem folder_setNode {n : Node} (hnode : f.node? ns ≠ some .folder) (ms : List String)
    (hms : f.node? ms = some .folder) : (f.setNode ns n).node? ms = some .folder := by
  by_cases hgiven : isGiven ms = true
  · exact node?_of_given hgiven
  · have hne : ms ≠ ns := by
      rintro rfl
      exact hnode hms
    rw [node?_setNode n (Bool.eq_false_iff.mpr hgiven), if_neg hne, hms]

theorem IsName.not_isGiven (h : IsName entry) (d : List String) :
    isGiven (d ++ [entry]) = false := by
  rw [isGiven, Bool.or_eq_false_iff, beq_eq_false_iff_ne]
  constructor
  · intro heq
    rw [List.append_eq_singleton_iff] at heq
    rcases heq with ⟨-, heq⟩ | ⟨-, heq⟩
    · exact h.ne_root (List.cons.inj heq).1
    · exact absurd heq (List.cons_ne_nil _ _)
  · rw [List.all_append, List.all_cons, beq_false_of_ne h.ne_dots, Bool.false_and, Bool.and_false]

theorem write_eq_ok (h : f.write path bytes = .ok g) :
    ∃ ns, f.locate path = .ok ns ∧ f.node? ns ≠ some .folder ∧ g = f.setNode ns (.file bytes) := by
  obtain ⟨ns, hlocate, h⟩ := bind_eq_ok_iff.mp h
  split at h
  · cases h
  · exact ⟨ns, hlocate, ‹_›, (Except.ok.inj h).symm⟩

/-- **Writing an entry sets it in the folder, and no other.** -/
theorem contents_write (hname : IsName entry) (hfolder : f.HasFolder folder)
    (hwrite : f.write (join folder entry) bytes = .ok g) :
    g.HasFolder folder ∧ ∀ other, IsName other →
      g.contents folder other = if entry = other then some bytes else f.contents folder other := by
  obtain ⟨d, hd⟩ := hfolder
  obtain ⟨ns, hlocate, hnode, rfl⟩ := write_eq_ok hwrite
  obtain ⟨hfits, rfl⟩ := (locate_join_eq_ok_iff hname hd).mp hlocate
  have hd' := enterAll_of_folders (folder_setNode (n := .file bytes) hnode) hd
  refine ⟨⟨d, hd'⟩, fun other hother => ?_⟩
  refine Option.ext fun b => ?_
  rw [contents_eq_some_iff hother hd', node?_setNode _ (hother.not_isGiven d)]
  by_cases heq : entry = other
  · subst heq
    rw [if_pos rfl, if_pos rfl, and_iff_right hfits, Option.some.injEq, Node.file.injEq,
      Option.some.injEq]
  · have hne : d ++ [other] ≠ d ++ [entry] := fun hlist =>
      heq (List.cons.inj (List.append_cancel_left hlist)).1.symm
    rw [if_neg heq, if_neg hne, contents_eq_some_iff hother hd]

/-! ## Making folders -/

/-- **The same files among more folders.** -/
structure Grows (f g : Files) : Prop where
  folder : ∀ ns, f.node? ns = some .folder → g.node? ns = some .folder
  file : ∀ ns bytes, g.node? ns = some (.file bytes) ↔ f.node? ns = some (.file bytes)

namespace Grows

theorem refl (f : Files) : f.Grows f := ⟨fun _ => id, fun _ _ => Iff.rfl⟩

theorem trans {k : Files} (hfg : f.Grows g) (hgk : g.Grows k) : f.Grows k where
  folder ns hns := hgk.folder ns (hfg.folder ns hns)
  file ns bytes := (hgk.file ns bytes).trans (hfg.file ns bytes)

theorem setNode (h : f.node? ns = none) : f.Grows (f.setNode ns .folder) where
  folder := folder_setNode (h ▸ Option.some_ne_none _ |>.symm)
  file ms bytes := by
    by_cases hgiven : isGiven ms = true
    · rw [node?_of_given hgiven, node?_of_given hgiven]
    · rw [node?_setNode _ (Bool.eq_false_iff.mpr hgiven)]
      split
      · rename_i hms
        rw [hms, h]
        exact iff_of_false (fun h => nomatch h) fun h => nomatch h
      · exact Iff.rfl

/-- **In a folder that is there nothing changes.** -/
theorem contents_eq (h : f.Grows g) (hname : IsName entry) (hfolder : f.HasFolder folder) :
    g.contents folder entry = f.contents folder entry := by
  obtain ⟨d, hd⟩ := hfolder
  refine Option.ext fun b => ?_
  rw [contents_eq_some_iff hname hd, contents_eq_some_iff hname (enterAll_of_folders h.folder hd),
    h.file]

/-- What is nowhere later was nowhere before. -/
theorem contents_eq_none (h : f.Grows g) (hname : IsName entry)
    (hnone : g.contents folder entry = none) : f.contents folder entry = none := by
  rw [← Option.not_isSome_iff_eq_none]
  intro hsome
  obtain ⟨bytes, hbytes⟩ := Option.isSome_iff_exists.mp hsome
  obtain ⟨ns, hlocate, -⟩ := read_eq_ok_iff.mp (toOption_eq_some_iff.mp hbytes)
  rw [← h.contents_eq hname (hasFolder_of_locate hname hlocate), hnone] at hbytes
  cases hbytes

end Grows

theorem grows_makeFoldersFrom (f : Files) (d ns : List String) :
    f.Grows (f.makeFoldersFrom d ns).1 := by
  induction ns generalizing f d with
  | nil => exact .refl f
  | cons name ns ih =>
    rw [makeFoldersFrom]
    split
    · exact .refl f
    · split
      · exact ih f _
      · exact .refl f
      · exact (Grows.setNode ‹_›).trans (ih _ _)

theorem grows_makeFolders (f : Files) (path : String) : f.Grows (f.makeFolders path).1 := by
  rw [makeFolders]
  split
  · exact .refl f
  · split
    · exact .refl f
    · split
      · have hgrows := f.grows_makeFoldersFrom [] (names path).dropLast
        split
        · rename_i hmade
          rw [hmade] at hgrows
          exact hgrows
        · exact hgrows
      · exact f.grows_makeFoldersFrom [] (names path)

/-- **Folders that were made can be entered.** -/
theorem exists_enterAll_of_makeFoldersFrom (h : f.makeFoldersFrom d ns = (g, .ok ())) :
    ∃ e, g.enterAll d ns = .ok e := by
  induction ns generalizing f d with
  | nil => exact ⟨d, rfl⟩
  | cons name ns ih =>
    have hgrows := f.grows_makeFoldersFrom d (name :: ns)
    rw [h] at hgrows
    rw [makeFoldersFrom] at h
    split at h
    · cases h
    · rename_i path hpath
      have hentered (hnode : g.node? path = some .folder)
          (hrest : ∃ e, g.enterAll path ns = .ok e) : ∃ e, g.enterAll d (name :: ns) = .ok e :=
        hrest.imp fun _ he => bind_eq_ok_iff.mpr ⟨path, enter_eq_ok_iff.mpr ⟨hpath, hnode⟩, he⟩
      split at h
      · exact hentered (hgrows.folder _ ‹_›) (ih h)
      · cases h
      · have hmade := (f.setNode path .folder).grows_makeFoldersFrom path ns
        rw [h] at hmade
        exact hentered (hmade.folder _ node?_setNode_folder) (ih h)

/-- **A folder that was made is there.** -/
theorem hasFolder_of_makeFolders (h : f.makeFolders path = (g, .ok ())) : g.HasFolder path := by
  rw [makeFolders] at h
  split at h
  · rename_i hempty
    rw [String.isEmpty_iff.mp hempty]
    exact ⟨[], rfl⟩
  · split at h
    · cases h
    · split at h
      · rename_i hdot
        split at h
        · obtain ⟨rfl, hlocate⟩ := Prod.mk.inj h
          obtain ⟨ns, hlocate, -⟩ := map_eq_ok_iff.mp hlocate
          rw [locate, bind_eq_ok_iff, steps_of_dot hdot, locateFrom_concat] at hlocate
          obtain ⟨-, -, hlocate⟩ := hlocate
          obtain ⟨d, hd, -⟩ := bind_eq_ok_iff.mp hlocate
          exact ⟨d, hd⟩
        · rename_i hfailed
          exact absurd h (hfailed g)
      · exact exists_enterAll_of_makeFoldersFrom h

end Files

end Protocell
