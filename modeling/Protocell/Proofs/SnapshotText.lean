import Protocell.Machine.Snapshot
import Protocell.Proofs.Folders
import Protocell.Proofs.Frames.Live
import Protocell.Proofs.Json.Layout
import Protocell.Proofs.Json.Records
import Protocell.Proofs.Source.DataLines

/-!
# Proofs/SnapshotText — a snapshot comes back from its text

`Snapshot.ofJson?_toJson`, for snapshots with any status and any lists of bytes.

The status is the one field with a text of its own.  A text of parts is cut into just these parts,
since no part holds the mark that stands between them and the blanks beside the mark are trimmed
(`Text.map_trim_pieces`).  Each part gives a share of the bits (`Status.IsPart`): a name its bit,
and the hexadecimal part at the end all bits without a name.  The shares together are the byte
(`Status.foldl_shares`).

What the snapshot of a machine says is said apart from how it is taken (`Snapshot.Tells`).
-/

namespace Protocell

namespace Text

variable {w : List Char}

theorem IsWord.trimStart_append (hw : IsWord w) (cs : List Char) :
    trimStart (w ++ cs) = w ++ cs := by
  obtain ⟨c, w, rfl⟩ := List.exists_cons_of_ne_nil hw.1
  rw [trimStart, List.cons_append, List.dropWhile_cons,
    if_neg (Bool.eq_false_iff.mp (hw.2 c List.mem_cons_self))]

/-- A word is trimmed of what is behind it. -/
theorem IsWord.trim_append (hw : IsWord w) {tail : List Char} (htail : IsBlanks tail) :
    trim (w ++ tail) = w := by
  rw [trim, hw.trimStart_append, trimEnd_append htail]
  obtain ⟨first, last, rfl⟩ := (List.eq_nil_or_concat' w).resolve_left hw.1
  exact trimEnd_concat (hw.2 last (by simp)) first

/-- A text that begins with a word is not blank. -/
theorem IsWord.trim_append_ne_nil (hw : IsWord w) (cs : List Char) : trim (w ++ cs) ≠ [] := by
  obtain ⟨c, w, rfl⟩ := List.exists_cons_of_ne_nil hw.1
  rw [List.cons_append, trim_cons (hw.2 c List.mem_cons_self)]
  exact List.cons_ne_nil _ _

/-- A blank in front of a text is trimmed off its first piece. -/
theorem map_trim_pieces_cons {sep c : Char} (hc : isBlank c = true) (hne : c ≠ sep)
    (cs : List Char) :
    (pieces sep (c :: cs)).map trim = (pieces sep cs).map trim := by
  have htrim (p : List Char) : trim (c :: p) = trim p :=
    congrArg trimEnd (List.dropWhile_cons_of_pos hc)
  rw [pieces, if_neg hne]
  cases hpieces : pieces sep cs with
  | nil => exact absurd hpieces (pieces_ne_nil sep cs)
  | cons p ps => exact congrArg (· :: ps.map trim) (htrim p)

theorem joinWith_cons_cons (sep p q : List Char) (ps : List (List Char)) :
    joinWith sep (p :: q :: ps) = p ++ (sep ++ joinWith sep (q :: ps)) := rfl

theorem exists_joinWith_cons (sep p : List Char) (ps : List (List Char)) :
    ∃ more, joinWith sep (p :: ps) = p ++ more := by
  cases ps with
  | nil => exact ⟨[], rfl⟩
  | cons q ps => exact ⟨_, joinWith_cons_cons sep p q ps⟩

/-- **A text of parts is cut into these parts**, up to the blanks beside the marks. -/
theorem map_trim_pieces {parts : List (List Char)} (hne : parts ≠ [])
    (hparts : ∀ p ∈ parts, IsWord p ∧ '|' ∉ p) :
    (pieces '|' (joinWith " | ".toList parts)).map trim = parts := by
  induction parts with
  | nil => exact absurd rfl hne
  | cons p parts ih =>
    obtain ⟨⟨hword, hbar⟩, hparts⟩ := List.forall_mem_cons.mp hparts
    cases parts with
    | nil =>
      have hjoin : joinWith " | ".toList [p] = p := List.append_nil p
      have htrim : trim (p ++ []) = p := hword.trim_append nofun
      rw [List.append_nil] at htrim
      rw [hjoin, pieces_of_not_mem hbar, List.map_singleton, htrim]
    | cons q parts =>
      have hsplit (cs : List Char) :
          p ++ (" | ".toList ++ cs) = (p ++ [' ']) ++ '|' :: ' ' :: cs := by
        simp
      have hfirst : pieces '|' (p ++ [' ']) = [p ++ [' ']] :=
        pieces_of_not_mem (by simp [hbar])
      rw [joinWith_cons_cons, hsplit, pieces_append, hfirst, List.map_append, List.map_singleton,
        hword.trim_append (by decide), map_trim_pieces_cons (by decide) (by decide),
        ih (List.cons_ne_nil _ _) hparts]
      rfl

end Text

namespace Status

/-- **A part of a status text gives some bits.** -/
structure IsPart (part : List Char) (bits : UInt8) : Prop where
  isWord : Text.IsWord part
  no_bar : '|' ∉ part
  bits_eq : partBits? part = some bits

theorem isPart_of_mem_names : ∀ n ∈ names, IsPart n.2.toList n.1 := by
  have hnames : ∀ n ∈ names,
      Text.IsWord n.2.toList ∧ '|' ∉ n.2.toList ∧ partBits? n.2.toList = some n.1 := by decide
  exact fun n hn => ⟨(hnames n hn).1, (hnames n hn).2.1, (hnames n hn).2.2⟩

theorem hexBits?_toDigits (bits : UInt8) : hexBits? (Nat.toDigits 16 bits.toNat) = some bits := by
  have hhex (c) (hc : c ∈ Nat.toDigits 16 bits.toNat) := Text.isHexDigit_of_mem_toDigits hc
  have hne : Nat.toDigits 16 bits.toNat ≠ [] := List.ne_nil_of_length_pos Nat.length_toDigits_pos
  have hvalue := Text.hexNumber_toDigits bits.toNat
  generalize Nat.toDigits 16 bits.toNat = digits at hhex hne hvalue
  have hplus (more : List Char) : digits ≠ '+' :: more := by
    rintro rfl
    exact absurd (hhex '+' List.mem_cons_self) (by decide)
  have hlt : Text.hexNumber digits < 256 := hvalue ▸ bits.toNat_lt
  unfold hexBits?
  split
  · next more => exact absurd rfl (hplus more)
  · rw [if_pos (by simp [hne, hlt, List.all_eq_true.mpr hhex]), hvalue, UInt8.ofNat_toNat]

/-- Bits are given by their number in hexadecimal. -/
theorem isPart_hex (bits : UInt8) : IsPart (['0', 'x'] ++ Nat.toDigits 16 bits.toNat) bits := by
  have hhex (c) (hc : c ∈ Nat.toDigits 16 bits.toNat) := Text.isHexDigit_of_mem_toDigits hc
  refine ⟨⟨List.cons_ne_nil _ _, ?_⟩, fun hbar => ?_, hexBits?_toDigits bits⟩
  · intro c hc
    rcases List.mem_append.mp hc with hc | hc
    · exact (by decide : Text.IsWord ['0', 'x']).2 c hc
    · exact Assembly.isBlank_eq_false_of_isHexDigit (hhex c hc)
  · rcases List.mem_append.mp hbar with hbar | hbar
    · exact absurd hbar (by decide)
    · exact absurd (hhex '|' hbar) (by decide)

/-- The share of the bits that each part of a status text gives. -/
def shares (s : Status) : List UInt8 :=
  (names.filter fun n => s.bits &&& n.1 != 0).map Prod.fst ++
    if s.bits &&& ~~~namedBits = 0 then [] else [s.bits &&& ~~~namedBits]

/-- **The shares together are the bits.** -/
theorem foldl_shares (s : Status) : s.shares.foldl (· ||| ·) 0 = s.bits := by
  have hall : ∀ n < 256, (shares ⟨UInt8.ofNat n⟩).foldl (· ||| ·) 0 = UInt8.ofNat n := by
    decide +kernel
  have h := hall s.bits.toNat s.bits.toNat_lt
  rwa [UInt8.ofNat_toNat] at h

theorem forall₂_isPart (s : Status) :
    List.Forall₂ IsPart ((names.filter fun n => s.bits &&& n.1 != 0).map (fun n => n.2.toList) ++
      restText (s.bits &&& ~~~namedBits)) s.shares := by
  refine List.rel_append ?_ ?_
  · rw [List.forall₂_map_left_iff, List.forall₂_map_right_iff, List.forall₂_same]
    exact fun n hn => isPart_of_mem_names n (List.mem_of_mem_filter hn)
  · rw [restText]
    split
    · exact .nil
    · exact .cons (isPart_hex _) .nil

/-- **Parts are read as their shares.** -/
theorem parse?_joinWith {parts : List (List Char)} {bits : List UInt8}
    (h : List.Forall₂ IsPart parts bits) :
    parse? (Text.joinWith " | ".toList parts) = some ⟨bits.foldl (· ||| ·) 0⟩ := by
  cases parts with
  | nil =>
    cases h
    rfl
  | cons p parts =>
    have hparts : ∀ q ∈ p :: parts, Text.IsWord q ∧ '|' ∉ q :=
      ((List.forall₂_and_left _ _).mp (h.imp fun _ _ hq => ⟨⟨hq.isWord, hq.no_bar⟩, hq⟩)).1
    obtain ⟨more, hmore⟩ := Text.exists_joinWith_cons " | ".toList p parts
    have hblank : ¬ (Text.trim (Text.joinWith " | ".toList (p :: parts))).isEmpty = true := by
      rw [hmore, List.isEmpty_iff]
      exact (hparts p List.mem_cons_self).1.trim_append_ne_nil more
    have hpieces := Text.map_trim_pieces (List.cons_ne_nil p parts) hparts
    have hread : List.Forall₂ (fun part b => partBits? (Text.trim part) = some b)
        (Text.pieces '|' (Text.joinWith " | ".toList (p :: parts))) bits := by
      rw [← List.forall₂_map_left_iff (R := fun part b => partBits? part = some b), hpieces]
      exact h.imp fun _ _ => IsPart.bits_eq
    rw [parse?, if_neg hblank, Json.mapM_eq_some_of_forall₂ hread]
    rfl

/-- **A status comes back from its text.** -/
theorem parse?_text (s : Status) : parse? s.text = some s := by
  rw [text, parse?_joinWith s.forall₂_isPart, foldl_shares]

/-- A status is read from the value that it is written as. -/
theorem ofJson?_toJson (s : Status) : ofJson? s.toJson = some s := by
  have htext : s.toJson.text? = some (String.ofList s.text) := by
    rw [toJson, Json.ofText, String.toList_ofList, Json.text?, Json.decodeBody?_encodeBody]
    rfl
  rw [ofJson?, htext, Option.bind_some, String.toList_ofList, parse?_text]

end Status

namespace Json

/-- A byte is read from the value that it is written as. -/
theorem byte?_ofByte (b : UInt8) : (ofByte b).byte? = some b :=
  (IsByte.num (fun _ => Text.isDigit_of_mem_decimal) (Text.decimalNumber_decimal _)).byte?_eq

theorem bytes?_ofBytes (bytes : List UInt8) : (ofBytes bytes).bytes? = some bytes :=
  bytes?_eq_of_forall₂ (forall₂_isByte_ofByte bytes)

end Json

namespace Snapshot

theorem wellFormed_toJson (s : Snapshot) : s.toJson.WellFormed := by
  have hbyte (b : UInt8) : (Json.ofByte b).WellFormed := Json.wellFormed_ofNat _
  refine Json.wellFormed_record_zip ?_
  simp only [List.forall_mem_cons]
  exact ⟨hbyte _, hbyte _, hbyte _, hbyte _, Json.wellFormed_ofText _, hbyte _,
    Json.wellFormed_ofBytes _, Json.wellFormed_ofBytes _, nofun⟩

/-- **A snapshot is read from the value that it is written as.** -/
theorem ofJson?_toJson (s : Snapshot) : ofJson? s.toJson = some s := by
  have hfields : s.toJson.fields? fieldNames =
      some ([.ofByte s.pi, .ofByte s.pc, .ofByte s.sp, .ofByte s.sm, s.status.toJson,
        .ofByte s.sleep, .ofBytes s.stack, .ofBytes s.residentBanks].map some) :=
    Json.fields?_record (by decide) rfl
  rw [ofJson?, hfields]
  simp only [List.map_cons, List.map_nil, Option.bind_eq_bind, Option.bind_some, Json.byte?_ofByte,
    Status.ofJson?_toJson, Json.bytes?_ofBytes]
  rfl

end Snapshot

/-- **A snapshot tells of a machine** its registers and flags, the bytes on its stack, bottom first,
and which banks it has. -/
structure Snapshot.Tells (s : Snapshot) (m : Machine) : Prop where
  registers : s.pi = m.pi ∧ s.pc = m.pc ∧ s.sp = m.sp ∧ s.sm = m.sm ∧ s.sleep = m.sleep
  status : s.status.bits = m.flags.toByte
  stack : ∀ k < m.sp.toNat, s.stack[k]? = some (m.stack.get (.ofNat k))
  banks : ∀ b, b ∈ s.residentBanks ↔ m.memory.resident b = true

namespace Machine

theorem tells_snapshot (m : Machine) : m.snapshot.Tells m where
  registers := ⟨rfl, rfl, rfl, rfl, rfl⟩
  status := rfl
  stack _ hk := (m.getElem?_live _).trans (if_pos hk)
  banks _ := ByteTable.mem_indices

/-- The stack of a snapshot is as long as the stack pointer says. -/
theorem length_snapshot_stack (m : Machine) : m.snapshot.stack.length = m.sp.toNat := m.length_live

theorem pairwise_residentBanks (m : Machine) : m.snapshot.residentBanks.Pairwise (· < ·) :=
  pairwise_allBytes.filter fun i => (m.memory.pages.get i).isSome

end Machine

end Protocell
