import Protocell.Program.Files
import Protocell.Program.Json
import Protocell.Proofs.Json.Reading
import Protocell.Proofs.Success

/-!
# Proofs/WireForm — programs survive their JSON form, which is checked exactly

`wire_form_exact`: a program comes back from its text, however it was come by, and a text that lists
slots is accepted just when the slots keep the limits of a program.

The limits are met slot by slot, so a list of slots is put in up to the first bank that is too long
(`insertSlots_append`), and each slot of the result is the entry of the list with its number
(`get?_insertSlots`).  A bank number is a byte; no slot is put in the place of another because the
number of slots is checked before any of them is put in.
-/

namespace Protocell.Program

/-! ## Slots -/

/-- The banks of a list of slots are short enough. -/
def AllShort (slots : List (Option (List UInt8))) : Prop :=
  ∀ bytes, some bytes ∈ slots → bytes.length ≤ bankSize

variable {p q : Program} {first : ℕ} {slots before after : List (Option (List UInt8))}
  {bytes : List UInt8}

theorem insertSlots_append (p : Program) (first : ℕ) (xs ys : List (Option (List UInt8))) :
    p.insertSlots first (xs ++ ys) =
      p.insertSlots first xs >>= fun q => q.insertSlots (first + xs.length) ys := by
  induction xs generalizing p first with
  | nil => rfl
  | cons x xs ih =>
    have hnext : first + (x :: xs).length = first + 1 + xs.length := by
      rw [List.length_cons]
      omega
    cases x with
    | none => rw [List.cons_append, insertSlots, ih, hnext, insertSlots]
    | some bytes => simp only [List.cons_append, insertSlots, ih, hnext, bind_assoc]

/-- Short banks are all put in. -/
theorem exists_insertSlots_eq_ok (h : AllShort slots) (p : Program) (first : ℕ) :
    ∃ q, p.insertSlots first slots = .ok q := by
  induction slots generalizing p first with
  | nil => exact ⟨p, rfl⟩
  | cons x slots ih =>
    have hslots : AllShort slots := fun bytes hbytes => h bytes (List.mem_cons_of_mem _ hbytes)
    cases x with
    | none => exact ih hslots p (first + 1)
    | some bytes =>
      obtain ⟨p', hp'⟩ := p.exists_insert_eq_ok (UInt8.ofNat first) (h bytes List.mem_cons_self)
      obtain ⟨q, hq⟩ := ih hslots p' (first + 1)
      exact ⟨q, bind_eq_ok_iff.mpr ⟨p', hp', hq⟩⟩

/-- The entry for slot `k` in a list whose first entry is for slot `first`. -/
def entryFor (first : ℕ) (slots : List (Option (List UInt8))) (k : ℕ) : Option (List UInt8) :=
  if k < first then none else (slots[k - first]?).join

theorem entryFor_cons (first : ℕ) (x : Option (List UInt8)) (slots : List (Option (List UInt8)))
    (k : ℕ) : entryFor first (x :: slots) k =
      if k = first then x else entryFor (first + 1) slots k := by
  unfold entryFor
  rcases Nat.lt_trichotomy k first with hlt | rfl | hgt
  · rw [if_pos hlt, if_neg hlt.ne, if_pos (by omega)]
  · simp
  · have hindex : k - first = k - (first + 1) + 1 := by omega
    rw [if_neg (by omega), if_neg hgt.ne', if_neg (by omega), hindex, List.getElem?_cons_succ]

theorem entryFor_of_lt {k : ℕ} (h : k < first) : entryFor first slots k = none := if_pos h

theorem ofNat_eq_iff {k : ℕ} (hk : k < 256) (i : UInt8) : UInt8.ofNat k = i ↔ i.toNat = k := by
  rw [← UInt8.toNat_inj, UInt8.toNat_ofNat_of_lt' hk, eq_comm]

/-- **Each slot is the entry of the list with its number**; where the list has none, the bank from
before stays. -/
theorem get?_insertSlots (h : p.insertSlots first slots = .ok q)
    (hcount : first + slots.length ≤ bankCount) (i : UInt8) :
    q.get? i = (entryFor first slots i.toNat).or (p.get? i) := by
  induction slots generalizing p first with
  | nil =>
    obtain rfl := Except.ok.inj h
    simp [entryFor]
  | cons x slots ih =>
    rw [bankCount, List.length_cons] at hcount
    have hrest : first + 1 + slots.length ≤ bankCount := by
      rw [bankCount]
      omega
    have hpast : entryFor (first + 1) slots first = none := entryFor_of_lt first.lt_succ_self
    rw [entryFor_cons]
    cases x with
    | none =>
      rw [ih h hrest]
      split_ifs with hi
      · rw [hi, hpast]
      · rfl
    | some bytes =>
      obtain ⟨p', hp', h⟩ := bind_eq_ok_iff.mp h
      rw [ih h hrest, get?_insert hp']
      simp only [ofNat_eq_iff (show first < 256 by omega)]
      split_ifs with hi
      · rw [hi, hpast]
        rfl
      · rfl

/-! ## Lists of slots -/

theorem ofSlots_of_tooMany (h : bankCount < slots.length) :
    ofSlots slots = .error (.tooManySlots slots.length) := if_pos h

theorem ofSlots_eq (h : slots.length ≤ bankCount) : ofSlots slots = empty.insertSlots 0 slots :=
  if_neg h.not_gt

/-- The first bank that is too long is told, with its number and length. -/
theorem ofSlots_of_oversized (hcount : (before ++ some bytes :: after).length ≤ bankCount)
    (hbefore : AllShort before) (hbytes : bankSize < bytes.length) :
    ofSlots (before ++ some bytes :: after) =
      .error (.oversized (UInt8.ofNat before.length) bytes.length) := by
  obtain ⟨q, hq⟩ := exists_insertSlots_eq_ok hbefore empty 0
  have hinsert (i : UInt8) : q.insert i bytes = .error (.oversized i bytes.length) :=
    dif_neg hbytes.not_ge
  have hstop : q.insertSlots before.length (some bytes :: after) =
      .error (.oversized (UInt8.ofNat before.length) bytes.length) := by
    rw [insertSlots, hinsert]
    rfl
  rw [ofSlots_eq hcount, insertSlots_append, hq, Nat.zero_add]
  exact hstop

/-- Whether a slot holds a bank that is too long. -/
def isLong (x : Option (List UInt8)) : Bool := x.any fun bytes => bankSize < bytes.length

/-- What is not short throughout has a first bank that is too long. -/
theorem exists_first_oversized (h : ¬ AllShort slots) :
    ∃ before bytes after, slots = before ++ some bytes :: after ∧ AllShort before ∧
      bankSize < bytes.length := by
  cases hfind : slots.find? isLong with
  | none =>
    refine absurd (fun bytes hbytes => ?_) h
    simpa [isLong] using List.find?_eq_none.mp hfind _ hbytes
  | some x =>
    obtain ⟨hx, before, after, rfl, hbefore⟩ := List.find?_eq_some_iff_append.mp hfind
    obtain ⟨bytes, rfl, hbytes⟩ := (Option.any_eq_true _ _).mp hx
    refine ⟨before, bytes, after, rfl, fun bs hbs => ?_, of_decide_eq_true hbytes⟩
    simpa [isLong] using hbefore _ hbs

/-- **Slots that are not too many, but not all short,** are refused for the first bank that is too
long. -/
theorem ofSlots_eq_oversized (hcount : slots.length ≤ bankCount) (h : ¬ AllShort slots) :
    ∃ before bytes after, slots = before ++ some bytes :: after ∧ AllShort before ∧
      bankSize < bytes.length ∧
      ∃ i : UInt8, i.toNat = before.length ∧
        ofSlots slots = .error (.oversized i bytes.length) := by
  obtain ⟨before, bytes, after, rfl, hbefore, hbytes⟩ := exists_first_oversized h
  have hindex : before.length < 256 := by
    rw [bankCount, List.length_append, List.length_cons] at hcount
    omega
  exact ⟨before, bytes, after, rfl, hbefore, hbytes, _, UInt8.toNat_ofNat_of_lt' hindex,
    ofSlots_of_oversized hcount hbefore hbytes⟩

theorem get?_ofSlots (h : ofSlots slots = .ok q) (i : UInt8) :
    q.get? i = (slots[i.toNat]?).join := by
  rw [ofSlots] at h
  split_ifs at h with hcount
  rw [get?_insertSlots h (by omega) i]
  simp [entryFor, get?, empty]

/-- **Slots make a program** just when they keep its limits. -/
theorem exists_ofSlots_eq_ok_iff :
    (∃ q, ofSlots slots = .ok q) ↔ slots.length ≤ bankCount ∧ AllShort slots := by
  constructor
  · rintro ⟨q, hq⟩
    have hcount : slots.length ≤ bankCount := by
      by_contra hmany
      rw [ofSlots_of_tooMany (Nat.lt_of_not_le hmany)] at hq
      cases hq
    refine ⟨hcount, fun bytes hbytes => ?_⟩
    obtain ⟨k, hk⟩ := List.getElem?_of_mem hbytes
    have hlt : k < 256 := (List.getElem?_eq_some_iff.mp hk).1.trans_le hcount
    refine length_le_of_get? (p := q) (i := UInt8.ofNat k) ?_
    rw [get?_ofSlots hq, UInt8.toNat_ofNat_of_lt' hlt, hk]
    rfl
  · rintro ⟨hcount, hshort⟩
    rw [ofSlots_eq hcount]
    exact exists_insertSlots_eq_ok hshort empty 0

theorem length_slotList (p : Program) : p.slotList.length = bankCount := by
  simp [slotList, allBytes, bankCount]

theorem getElem?_slotList (p : Program) (i : UInt8) : p.slotList[i.toNat]? = some (p.get? i) := by
  rw [slotList, allBytes, List.map_map, List.getElem?_map, List.getElem?_range i.toNat_lt]
  simp

theorem allShort_slotList (p : Program) : AllShort p.slotList := by
  intro bytes hbytes
  obtain ⟨i, -, hi⟩ := List.mem_map.mp hbytes
  exact length_le_of_get? hi

/-- **A program is made of its slots.** -/
theorem ofSlots_slotList (p : Program) : ofSlots p.slotList = .ok p := by
  obtain ⟨q, hq⟩ := exists_ofSlots_eq_ok_iff.mpr ⟨p.length_slotList.le, p.allShort_slotList⟩
  obtain rfl : q = p := by
    ext1 i
    rw [get?_ofSlots hq, getElem?_slotList]
    rfl
  exact hq

/-! ## Texts -/

/-- **A value is a slot**: null, or a list of bytes. -/
inductive IsSlot : Json → Option (List UInt8) → Prop
  | absent : IsSlot .null none
  | present {items : List Json} {bytes : List UInt8} (h : List.Forall₂ Json.IsByte items bytes) :
      IsSlot (.arr items) (some bytes)

/-- **A text is a wire form of some slots**: it is an object that lists them under the key `banks`,
which stands once; fields with other keys may stand before and behind it. -/
inductive IsWireForm (text : String) (slots : List (Option (List UInt8))) : Prop
  | intro {fields : List (List Char × Json)} {before after : List (String × Json)}
    {items : List Json}
      (hparse : Json.parse? text.toList = some (.obj fields))
      (hfields : List.Forall₂ Json.IsField fields (before ++ ("banks", .arr items) :: after))
      (hothers : ∀ f ∈ before ++ after, f.1 ≠ "banks") (hslots : List.Forall₂ IsSlot items slots)

theorem orNull?_of_isSlot {v : Json} {x : Option (List UInt8)} (h : IsSlot v x) :
    v.orNull? Json.bytes? = some x := by
  cases h with
  | absent => rfl
  | present h => exact congrArg (Option.map some) (Json.bytes?_eq_of_forall₂ h)

/-- **A wire form is judged by the slots that it lists.** -/
theorem ofJsonText_of_isWireForm {text : String} (h : IsWireForm text slots) :
    ofJsonText text = (ofSlots slots).mapError .refused := by
  cases h with
  | @intro fields before after items hparse hfields hothers hslots =>
    have hread : slotsOfJson? (.obj fields) = some slots := by
      have hnamed := Json.fields?_obj hfields ["banks"]
      rw [List.mapM_cons, Json.field?_of_once _ hothers] at hnamed
      rw [slotsOfJson?, hnamed]
      exact Json.mapM_eq_some_of_forall₂ (hslots.imp fun _ _ => orNull?_of_isSlot)
    simp only [ofJsonText, Json.first?_of_parse? hparse, ofJson, hread]
    cases ofSlots slots <;> rfl

/-- The text that slots are written as. -/
def wireText (slots : List (Option (List UInt8))) : String :=
  String.ofList
    (Json.record [("banks", .arr (slots.map fun b => b.elim .null Json.ofBytes))]).compact

theorem toJsonText_eq (p : Program) : p.toJsonText = wireText p.slotList := rfl

/-- **What is written is a wire form.** -/
theorem isWireForm_wireText (slots : List (Option (List UInt8))) :
    IsWireForm (wireText slots) slots := by
  have hdata : ∀ v ∈ slots.map fun b => b.elim Json.null Json.ofBytes, v.WellFormed := by
    rw [List.forall_mem_map]
    rintro (_ | bytes) -
    · exact .null
    · exact Json.wellFormed_ofBytes bytes
  have hslots : List.Forall₂ IsSlot (slots.map fun b => b.elim Json.null Json.ofBytes) slots := by
    rw [List.forall₂_map_left_iff, List.forall₂_same]
    rintro (_ | bytes) -
    · exact .absent
    · exact .present (Json.forall₂_isByte_ofByte bytes)
  refine @IsWireForm.intro _ _ _ [] [] _ ?_ (Json.forall₂_isField_record _) nofun hslots
  rw [wireText, String.toList_ofList]
  exact Json.parse?_compact (Json.wellFormed_record (by simpa using .arr hdata))

/-! ## Programs -/

theorem ofJsonText_eq_ok_iff {text : String} (h : IsWireForm text slots) :
    ofJsonText text = .ok p ↔ ofSlots slots = .ok p := by
  rw [ofJsonText_of_isWireForm h, mapError_eq_ok_iff]

/-- **A program comes back from its text.** -/
theorem ofJsonText_toJsonText (p : Program) : ofJsonText p.toJsonText = .ok p := by
  rw [toJsonText_eq]
  exact (ofJsonText_eq_ok_iff (isWireForm_wireText _)).mpr p.ofSlots_slotList

/-- A way to come by a program. -/
inductive Edit
  /-- Putting a bank in. -/
  | insert (i : UInt8) (bytes : List UInt8)
  /-- Loading what is saved in a folder. -/
  | load (files : Files) (folder stem : String)
  /-- Reading a JSON text. -/
  | read (text : String)

/-- The program after an edit; an edit that fails leaves it as it was. -/
def edited (p : Program) : Edit → Program
  | .insert i bytes => (p.insert i bytes).toOption.getD p
  | .load files folder stem => (load files folder stem).toOption.getD p
  | .read text => (ofJsonText text).toOption.getD p

/-- **Programs survive their wire form, which is checked exactly.**  However a program is come by,
its text lists 256 slots within the limit, which are its banks, and gives the program back.  Any
slots have a text.  A text that lists slots is accepted just when they keep both limits, and the
program then has the slots as its banks; otherwise it is told how many slots there are if they are
too many, and else which is the first bank that is too long. -/
theorem wire_form_exact :
    (∀ edits : List Edit,
      let p := edits.foldl edited empty
      p.slotList.length = 256 ∧ (∀ i : UInt8, p.slotList[i.toNat]? = some (p.get? i)) ∧
        (∀ bytes, some bytes ∈ p.slotList → bytes.length ≤ 256) ∧
        IsWireForm p.toJsonText p.slotList ∧ ofJsonText p.toJsonText = .ok p) ∧
    (∀ slots, IsWireForm (wireText slots) slots) ∧
    ∀ text slots, IsWireForm text slots →
      ((∃ p, ofJsonText text = .ok p) ↔
        slots.length ≤ 256 ∧ ∀ bytes, some bytes ∈ slots → bytes.length ≤ 256) ∧
      (∀ p, ofJsonText text = .ok p → ∀ i : UInt8, p.get? i = (slots[i.toNat]?).join) ∧
      (256 < slots.length → ofJsonText text = .error (.refused (.tooManySlots slots.length))) ∧
      (slots.length ≤ 256 → (∃ bytes, some bytes ∈ slots ∧ 256 < bytes.length) →
        ∃ before bytes after, slots = before ++ some bytes :: after ∧
          (∀ bs, some bs ∈ before → bs.length ≤ 256) ∧ 256 < bytes.length ∧
          ∃ i : UInt8, i.toNat = before.length ∧
            ofJsonText text = .error (.refused (.oversized i bytes.length))) := by
  refine ⟨fun edits => ?_, isWireForm_wireText, fun text slots htext => ?_⟩
  · intro p
    have hform : IsWireForm p.toJsonText p.slotList := by
      rw [toJsonText_eq]
      exact isWireForm_wireText p.slotList
    exact ⟨p.length_slotList, p.getElem?_slotList, p.allShort_slotList, hform,
      p.ofJsonText_toJsonText⟩
  · have hread := ofJsonText_of_isWireForm htext
    have hok (p : Program) := ofJsonText_eq_ok_iff (p := p) htext
    refine ⟨?_, fun p hp => get?_ofSlots ((hok p).mp hp), fun hmany => ?_, ?_⟩
    · simp only [hok]
      exact exists_ofSlots_eq_ok_iff
    · rw [hread, ofSlots_of_tooMany hmany]
      rfl
    · rintro hcount ⟨long, hlong, hsize⟩
      have hnot : ¬ AllShort slots := fun hshort => (hshort long hlong).not_gt hsize
      obtain ⟨before, bytes, after, hsplit, hbefore, hbytes, i, hi, herror⟩ :=
        ofSlots_eq_oversized hcount hnot
      refine ⟨before, bytes, after, hsplit, hbefore, hbytes, i, hi, ?_⟩
      rw [hread, herror]
      rfl

/-- Blanks, an escape in the key and a field besides it; a bank too long by a byte; a slot too
many. -/
theorem wire_form_exact_at_limits :
    (∃ p, ofJsonText "\x7b \"x\": [1e3], \"b\\u0061nks\":\n[null, [7, 42], []]\x7d" = .ok p ∧
      p.get? 0 = none ∧ p.get? 1 = some [7, 42] ∧ p.get? 2 = some [] ∧ p.get? 3 = none) ∧
    ofJsonText (wireText [none, some (List.replicate 257 0)])
        = .error (.refused (.oversized 1 257)) ∧
    ofJsonText (wireText (List.replicate 257 none)) = .error (.refused (.tooManySlots 257)) := by
  obtain ⟨-, hwrite, hread⟩ := wire_form_exact
  refine ⟨?_, ?_, ?_⟩
  · have hparse : Json.parse?
        "\x7b \"x\": [1e3], \"b\\u0061nks\":\n[null, [7, 42], []]\x7d".toList =
          some (.obj [("x".toList, .arr [.num "1e3".toList]), ("b\\u0061nks".toList,
            .arr [.null, .arr [.num "7".toList, .num "42".toList], .arr []])]) := rfl
    have hbytes : List.Forall₂ Json.IsByte [.num "7".toList, .num "42".toList] [7, 42] :=
      .cons (.num (by simp) (by decide)) (.cons (.num (by simp) (by decide)) .nil)
    obtain ⟨hiff, hget, -⟩ := hread _ [none, some [7, 42], some []] <|
      @IsWireForm.intro _ _ _ [("x", _)] [] _ hparse
        (.cons ⟨by decide, rfl⟩ (.cons ⟨by decide, rfl⟩ .nil)) (by simp)
        (.cons .absent (.cons (.present hbytes) (.cons (.present .nil) .nil)))
    obtain ⟨p, hp⟩ := hiff.mpr ⟨by decide, by simp⟩
    exact ⟨p, hp, hget p hp 0, hget p hp 1, hget p hp 2, hget p hp 3⟩
  · have hlen : (List.replicate 257 (0 : UInt8)).length = 257 := List.length_replicate
    generalize List.replicate 257 (0 : UInt8) = long at hlen
    obtain ⟨-, -, -, hlong⟩ := hread _ _ (hwrite [none, some long])
    obtain ⟨before, bytes, after, hsplit, -, -, i, hi, herror⟩ :=
      hlong (by simp) ⟨long, by simp, by omega⟩
    rcases before with _ | ⟨_, _ | ⟨_, before⟩⟩ <;> simp at hsplit
    obtain ⟨rfl, rfl, rfl⟩ := hsplit
    obtain rfl : i = 1 := UInt8.toNat_inj.mp hi
    rwa [hlen] at herror
  · obtain ⟨-, -, hmany, -⟩ := hread _ _ (hwrite (List.replicate 257 none))
    rw [List.length_replicate] at hmany
    exact hmany (by decide)

end Protocell.Program
