import Mathlib.Data.List.Basic
import Protocell.Text.Blank
import Protocell.Text.Line

/-!
# Proofs/Source/Words — words and lines that are read back

Words with a blank before each of them are read back as these words (`words_spaced`), and lines with
their ends behind them as these lines (`lines_flatMap`).  Trimming a text does not change its words
(`words_trim`).
-/

namespace Protocell.Text

/-- A word: characters that are no blanks, at least one of them. -/
def IsWord (w : List Char) : Prop := w ≠ [] ∧ ∀ c ∈ w, isBlank c = false

instance : DecidablePred IsWord := fun w =>
  have : Decidable (∀ c ∈ w, isBlank c = false) := List.decidableBAll _ w
  inferInstanceAs (Decidable (w ≠ [] ∧ ∀ c ∈ w, isBlank c = false))

/-- Words with a blank before each of them. -/
def spaced (ws : List (List Char)) : List Char := ws.flatMap fun w => ' ' :: w

/-! ## Words -/

theorem wordsFrom_append {w : List Char} (hw : ∀ c ∈ w, isBlank c = false) (word cs : List Char) :
    wordsFrom word (w ++ cs) = wordsFrom (w.reverse ++ word) cs := by
  induction w generalizing word with
  | nil => rfl
  | cons c w ih =>
    obtain ⟨hc, hw⟩ := List.forall_mem_cons.mp hw
    rw [List.cons_append, wordsFrom, if_neg (Bool.eq_false_iff.mp hc), ih hw, List.reverse_cons,
      List.append_assoc, List.singleton_append]

/-- The characters read before a blank are a word, if there are any. -/
theorem wordsFrom_blank {c : Char} (hc : isBlank c = true) (word cs : List Char) :
    wordsFrom word (c :: cs) = wordsFrom word [] ++ words cs := by
  rw [wordsFrom, wordsFrom, if_pos hc]
  split
  · rfl
  · rfl

/-- A word that has begun ends with the text. -/
theorem wordsFrom_nil {w : List Char} (hw : w ≠ []) : wordsFrom w.reverse [] = [w] := by
  rw [wordsFrom, if_neg (by simpa using hw), List.reverse_reverse]

/-- **Words with blanks between them are read one by one**, behind the word that has begun. -/
theorem wordsFrom_spaced {ws : List (List Char)} (h : ∀ w ∈ ws, IsWord w) (word : List Char) :
    wordsFrom word (spaced ws) = wordsFrom word [] ++ ws := by
  induction ws generalizing word with
  | nil => exact (List.append_nil _).symm
  | cons w ws ih =>
    obtain ⟨hw, hws⟩ := List.forall_mem_cons.mp h
    have hspaced : spaced (w :: ws) = ' ' :: (w ++ spaced ws) := rfl
    rw [hspaced, wordsFrom_blank (by decide), words, wordsFrom_append hw.2, ih hws,
      List.append_nil, wordsFrom_nil hw.1, List.singleton_append]

/-- **Words with a blank before each of them are read back.** -/
theorem words_spaced {ws : List (List Char)} (h : ∀ w ∈ ws, IsWord w) : words (spaced ws) = ws :=
  wordsFrom_spaced h []

theorem words_append_spaced {w : List Char} {ws : List (List Char)} (hw : IsWord w)
    (h : ∀ w ∈ ws, IsWord w) : words (w ++ spaced ws) = w :: ws := by
  rw [words, wordsFrom_append hw.2, wordsFrom_spaced h, List.append_nil, wordsFrom_nil hw.1,
    List.singleton_append]

theorem isWord_of_mem_wordsFrom {word cs w : List Char} (hword : ∀ c ∈ word, isBlank c = false)
    (h : w ∈ wordsFrom word cs) : IsWord w := by
  have hreverse (hne : ¬ word.isEmpty = true) : IsWord word.reverse :=
    ⟨by simpa using hne, fun c hc => hword c (List.mem_reverse.mp hc)⟩
  induction cs generalizing word with
  | nil =>
    rw [wordsFrom] at h
    split at h
    · cases h
    · rename_i hne
      obtain rfl := List.mem_singleton.mp h
      exact hreverse hne
  | cons c cs ih =>
    have hnil : ∀ c ∈ ([] : List Char), isBlank c = false := fun c hc => absurd hc List.not_mem_nil
    rw [wordsFrom] at h
    split at h
    · split at h
      · exact ih hnil h fun hne => absurd rfl hne
      · rename_i hne
        rcases List.mem_cons.mp h with rfl | h
        · exact hreverse hne
        · exact ih hnil h fun hne => absurd rfl hne
    · rename_i hc
      have hcons : ∀ x ∈ c :: word, isBlank x = false :=
        List.forall_mem_cons.mpr ⟨Bool.eq_false_iff.mpr hc, hword⟩
      exact ih hcons h fun _ =>
        ⟨by simp, fun x hx => hcons x (List.mem_reverse.mp hx)⟩

theorem isWord_of_mem_words {cs w : List Char} (h : w ∈ words cs) : IsWord w :=
  isWord_of_mem_wordsFrom (fun _ hc => absurd hc List.not_mem_nil) h

/-! ## Trimming -/

theorem wordsFrom_append_blanks (word cs : List Char) {bs : List Char}
    (h : ∀ c ∈ bs, isBlank c = true) : wordsFrom word (cs ++ bs) = wordsFrom word cs := by
  induction cs generalizing word with
  | nil =>
    rw [List.nil_append]
    induction bs generalizing word with
    | nil => rfl
    | cons b bs ih =>
      obtain ⟨hb, hbs⟩ := List.forall_mem_cons.mp h
      rw [wordsFrom_blank hb, words, ih hbs]
      exact List.append_nil _
  | cons c cs ih =>
    rw [List.cons_append, wordsFrom, wordsFrom, ih, ih]

theorem words_trimEnd (cs : List Char) : words (trimEnd cs) = words cs := by
  have hsplit : cs = trimEnd cs ++ (cs.reverse.takeWhile isBlank).reverse := by
    rw [trimEnd, ← List.reverse_append, List.takeWhile_append_dropWhile, List.reverse_reverse]
  have hblanks : ∀ c ∈ (cs.reverse.takeWhile isBlank).reverse, isBlank c = true := fun c hc =>
    List.all_eq_true.mp List.all_takeWhile c (List.mem_reverse.mp hc)
  conv => rhs; rw [hsplit]
  exact (wordsFrom_append_blanks [] (trimEnd cs) hblanks).symm

theorem words_trimStart (cs : List Char) : words (trimStart cs) = words cs := by
  induction cs with
  | nil => rfl
  | cons c cs ih =>
    rw [trimStart, List.dropWhile_cons]
    split
    · rename_i hc
      rw [words, words, wordsFrom, if_pos hc]
      exact ih
    · rfl

/-- **Trimming does not change the words.** -/
theorem words_trim (cs : List Char) : words (trim cs) = words cs := by
  rw [trim, words_trimEnd, words_trimStart]

theorem trimEnd_cons {c : Char} (hc : isBlank c = false) (cs : List Char) :
    trimEnd (c :: cs) = c :: trimEnd cs := by
  rw [trimEnd, List.reverse_cons, List.dropWhile_append, trimEnd]
  split
  · rename_i hempty
    rw [List.isEmpty_iff.mp hempty, List.dropWhile_cons, if_neg (Bool.eq_false_iff.mp hc)]
    rfl
  · rw [List.reverse_append]
    rfl

theorem trim_cons {c : Char} (hc : isBlank c = false) (cs : List Char) :
    trim (c :: cs) = c :: trimEnd cs := by
  rw [trim, trimStart, List.dropWhile_cons, if_neg (Bool.eq_false_iff.mp hc), trimEnd_cons hc]

/-- A trimmed text does not begin with a blank. -/
theorem isBlank_of_trim_eq_cons {cs rest : List Char} {c : Char} (h : trim cs = c :: rest) :
    isBlank c = false := by
  rw [trim] at h
  cases hstart : trimStart cs with
  | nil =>
    rw [hstart] at h
    cases h
  | cons x xs =>
    have hx : isBlank x = false := by
      have hhead := List.head?_dropWhile_not isBlank cs
      rw [← trimStart, hstart] at hhead
      simpa using hhead
    rw [hstart, trimEnd_cons hx] at h
    obtain ⟨rfl, -⟩ := List.cons.inj h
    exact hx

/-! ## Lines -/

theorem linesFrom_append {line : List Char} (h : '\n' ∉ line) (back cs : List Char) :
    linesFrom back (line ++ cs) = linesFrom (line.reverse ++ back) cs := by
  induction line generalizing back with
  | nil => rfl
  | cons c line ih =>
    rw [List.mem_cons, not_or] at h
    rw [List.cons_append, linesFrom, if_neg fun heq => h.1 heq.symm, ih h.2, List.reverse_cons,
      List.append_assoc, List.singleton_append]

/-- **Lines with their ends behind them are read back.** -/
theorem lines_flatMap {ls : List (List Char)} (h : ∀ line ∈ ls, '\n' ∉ line) :
    lines (ls.flatMap fun line => line ++ ['\r', '\n']) = ls := by
  rw [lines]
  induction ls with
  | nil => rfl
  | cons line ls ih =>
    obtain ⟨hline, hls⟩ := List.forall_mem_cons.mp h
    have hend (back cs : List Char) :
        linesFrom back ('\r' :: '\n' :: cs) = back.reverse :: linesFrom [] cs := rfl
    rw [List.flatMap_cons, List.append_assoc, linesFrom_append hline, List.cons_append,
      List.cons_append, List.nil_append, hend, ih hls, List.append_nil, List.reverse_reverse]

theorem mem_of_mem_closeLine {back : List Char} {c : Char} (h : c ∈ closeLine back) : c ∈ back := by
  rw [closeLine.eq_def] at h
  split at h
  · exact List.mem_cons_of_mem _ (List.mem_reverse.mp h)
  · exact List.mem_reverse.mp h

theorem newline_not_mem_of_mem_linesFrom {back cs line : List Char} (hback : '\n' ∉ back)
    (h : line ∈ linesFrom back cs) : '\n' ∉ line := by
  induction cs generalizing back with
  | nil =>
    rw [linesFrom] at h
    split at h
    · cases h
    · obtain rfl := List.mem_singleton.mp h
      exact fun hmem => hback (List.mem_reverse.mp hmem)
  | cons c cs ih =>
    rw [linesFrom] at h
    split at h
    · rcases List.mem_cons.mp h with rfl | h
      · exact fun hmem => hback (mem_of_mem_closeLine hmem)
      · exact ih List.not_mem_nil h
    · rename_i hc
      refine ih ?_ h
      rw [List.mem_cons, not_or]
      exact ⟨fun heq => hc heq.symm, hback⟩

/-- No line has a line feed in it. -/
theorem newline_not_mem_of_mem_lines {cs line : List Char} (h : line ∈ lines cs) : '\n' ∉ line :=
  newline_not_mem_of_mem_linesFrom List.not_mem_nil h

end Protocell.Text
