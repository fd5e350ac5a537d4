import Protocell.Proofs.Json.Reading

/-!
# Proofs/Json/Layout — both forms of a value lay out its tokens

The pretty form puts blanks between the tokens of the compact one, and none within them, so it lays
out the same tokens whatever its indentation (`laysOut_pretty`), and is read as the same value.
-/

namespace Protocell.Json

variable {text more : List Char} {ts us : List Token}

/-- A text may begin on a line of its own. -/
theorem LaysOut.newline (hmore : LaysOut more us) (level : ℕ) :
    LaysOut (newline level ++ more) us := by
  rw [Json.newline, List.cons_append]
  refine .blank rfl ?_
  induction 2 * level with
  | zero => exact hmore
  | succ k ih => exact .blank rfl ih

/-- A new line ends the word before it. -/
theorem endsWord_newline (level : ℕ) (text : List Char) : EndsWord (newline level ++ text) := by
  intro c hc
  obtain rfl := Option.some.inj hc
  rfl

/-- The mark that closes a list or object stands on a line of its own. -/
theorem LaysOut.close {c : Char} {t : Token} (htext : LaysOut text ts) (hc : mark? c = some t)
    (level : ℕ) : LaysOut (text ++ Json.newline level ++ [c]) (ts ++ [t]) := by
  rw [List.append_assoc]
  exact htext.append (LaysOut.newline (.mark hc .nil) level) (endsWord_newline level [c])

theorem laysOut_prettyItems {items : List Json}
    (hitems : ∀ v ∈ items, ∀ level, LaysOut (v.prettyFrom level) v.row) (level : ℕ) :
    LaysOut (prettyItems level items) (rowItems items) := by
  induction items with
  | nil => exact .nil
  | cons v items ih =>
    obtain ⟨hv, hitems⟩ := List.forall_mem_cons.mp hitems
    have hline := (hv level).newline level
    cases items with
    | nil => exact hline
    | cons w items => exact hline.append (.mark rfl (ih hitems)) (endsWord_of_mark rfl _)

theorem laysOut_prettyFields {fields : List (List Char × Json)}
    (hkeys : ∀ f ∈ fields, Quotable f.1)
    (hvalues : ∀ f ∈ fields, ∀ level, LaysOut (f.2.prettyFrom level) f.2.row) (level : ℕ) :
    LaysOut (prettyFields level fields) (rowFields fields) := by
  induction fields with
  | nil => exact .nil
  | cons f fields ih =>
    obtain ⟨k, v⟩ := f
    obtain ⟨hk, hkeys⟩ := List.forall_mem_cons.mp hkeys
    obtain ⟨hv, hvalues⟩ := List.forall_mem_cons.mp hvalues
    have hkey {more : List Char} {us : List Token} (hmore : LaysOut more us) :
        LaysOut (newline level ++ quoted k ++ ':' :: ' ' :: more) (.str k :: .colon :: us) := by
      rw [List.append_assoc]
      exact LaysOut.newline (.str hk (.mark rfl (.blank rfl hmore))) level
    cases fields with
    | nil => exact hkey (hv level)
    | cons g fields =>
      exact hkey ((hv level).append (.mark rfl (ih hkeys hvalues)) (endsWord_of_mark rfl _))

/-- **The pretty form of a value lays out its tokens**, whatever the indentation. -/
theorem laysOut_pretty {v : Json} (hv : v.WellFormed) (level : ℕ) :
    LaysOut (v.prettyFrom level) v.row := by
  induction hv generalizing level with
  | null => exact laysOut_compact .null
  | bool b =>
    cases b with
    | false => exact laysOut_compact (.bool false)
    | true => exact laysOut_compact (.bool true)
  | num hnumber => exact laysOut_compact (.num hnumber)
  | str hbody => exact laysOut_compact (.str hbody)
  | @arr items _ ih =>
    cases items with
    | nil => exact .mark rfl (.mark rfl .nil)
    | cons v items => exact .mark rfl ((laysOut_prettyItems ih (level + 1)).close rfl level)
  | @obj fields hkeys _ ih =>
    cases fields with
    | nil => exact .mark rfl (.mark rfl .nil)
    | cons f fields => exact .mark rfl ((laysOut_prettyFields hkeys ih (level + 1)).close rfl level)

/-- The texts that a value is written as. -/
def texts (v : Json) : List (List Char) := [v.compact, v.pretty]

theorem WellFormed.laysOut {v : Json} (hv : v.WellFormed) :
    ∀ text ∈ v.texts, LaysOut text v.row := by
  simp only [texts, List.forall_mem_cons]
  exact ⟨laysOut_compact hv, laysOut_pretty hv 0, nofun⟩

end Protocell.Json
