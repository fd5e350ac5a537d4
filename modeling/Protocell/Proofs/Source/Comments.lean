import Protocell.Assembly.Statement
import Protocell.Proofs.Source.Words

/-!
# Proofs/Source/Comments — where a comment begins

A comment begins at the first semicolon that stands not between quotes.  So all that matters of a
text is where its semicolons and quotes are: a text without them can be put in or taken out
(`isWhole_bare_append_iff`), and blanks can, so that a text has a comment just if its words with
single blanks between them have one (`isWhole_spaced_words_iff`).
-/

namespace Protocell.Assembly

/-- A text without semicolons and quotes. -/
def IsBare (cs : List Char) : Prop := ∀ c ∈ cs, c ≠ ';' ∧ c ≠ '"'

instance : DecidablePred IsBare := fun cs => List.decidableBAll (fun c => c ≠ ';' ∧ c ≠ '"') cs

/-- Characters of a kind that semicolons and quotes are not of. -/
theorem isBare_of_forall {kind : Char → Bool} (hsemicolon : kind ';' = false)
    (hquote : kind '"' = false) {cs : List Char} (h : ∀ c ∈ cs, kind c = true) : IsBare cs := by
  refine fun c hc => ⟨?_, ?_⟩
  · rintro rfl
    exact absurd (h _ hc) (Bool.eq_false_iff.mp hsemicolon)
  · rintro rfl
    exact absurd (h _ hc) (Bool.eq_false_iff.mp hquote)

theorem IsBare.append {cs ds : List Char} (hcs : IsBare cs) (hds : IsBare ds) : IsBare (cs ++ ds) :=
  fun c hc => (List.mem_append.mp hc).elim (hcs c) (hds c)

/-- What stands before the first semicolon or quote is kept. -/
theorem stripCommentFrom_append {cs : List Char} (h : IsBare cs) (quoted : Bool)
    (rest : List Char) :
    stripCommentFrom quoted (cs ++ rest) = cs ++ stripCommentFrom quoted rest := by
  induction cs with
  | nil => rfl
  | cons c cs ih =>
    obtain ⟨⟨hsemicolon, hquote⟩, hcs⟩ := List.forall_mem_cons.mp h
    rw [List.cons_append, stripCommentFrom, if_neg fun hc => hsemicolon hc.1,
      beq_eq_false_iff_ne.mpr hquote, Bool.bne_false, ih hcs, List.cons_append]

/-- **A semicolon between quotes begins no comment.** -/
theorem stripCommentFrom_quoted {text : List Char} (h : '"' ∉ text) (rest : List Char) :
    stripCommentFrom false ('"' :: text ++ '"' :: rest)
      = '"' :: text ++ '"' :: stripCommentFrom false rest := by
  have hinside (cs : List Char) (h : '"' ∉ cs) :
      stripCommentFrom true (cs ++ '"' :: rest) = cs ++ '"' :: stripCommentFrom false rest := by
    induction cs with
    | nil => rfl
    | cons c cs ih =>
      rw [List.mem_cons, not_or] at h
      have hquoted : (true != (c == '"')) = true := by
        rw [beq_eq_false_iff_ne.mpr fun heq => h.1 heq.symm]
        rfl
      rw [List.cons_append, stripCommentFrom, if_neg (by rintro ⟨-, ⟨⟩⟩), hquoted, ih h.2,
        List.cons_append]
  rw [List.cons_append, List.cons_append, ← hinside text h]
  rfl

/-! ## Texts without a comment -/

/-- **No comment begins in a text**, which itself begins between quotes or not. -/
def IsWhole (quoted : Bool) (cs : List Char) : Prop := stripCommentFrom quoted cs = cs

instance (quoted : Bool) : DecidablePred (IsWhole quoted) := fun cs =>
  inferInstanceAs (Decidable (stripCommentFrom quoted cs = cs))

/-- Whether what stands behind a text is between quotes. -/
def quotedAfter (quoted : Bool) : List Char → Bool
  | [] => quoted
  | c :: cs => quotedAfter (quoted != (c == '"')) cs

theorem isWhole_cons_iff {quoted : Bool} {c : Char} {cs : List Char} :
    IsWhole quoted (c :: cs) ↔
      ¬ (c = ';' ∧ quoted = false) ∧ IsWhole (quoted != (c == '"')) cs := by
  rw [IsWhole, stripCommentFrom]
  split
  · rename_i hcut
    exact iff_of_false (fun h => nomatch h) fun h => h.1 hcut
  · rename_i hkept
    rw [List.cons.injEq, and_iff_right rfl, and_iff_right hkept, IsWhole]

theorem isWhole_append_iff {quoted : Bool} {cs ds : List Char} :
    IsWhole quoted (cs ++ ds) ↔ IsWhole quoted cs ∧ IsWhole (quotedAfter quoted cs) ds := by
  induction cs generalizing quoted with
  | nil => exact (and_iff_right rfl).symm
  | cons c cs ih => rw [List.cons_append, isWhole_cons_iff, isWhole_cons_iff, ih, and_assoc]; rfl

/-- **What is left before a comment has none.** -/
theorem isWhole_stripCommentFrom (quoted : Bool) (cs : List Char) :
    IsWhole quoted (stripCommentFrom quoted cs) := by
  induction cs generalizing quoted with
  | nil => rfl
  | cons c cs ih =>
    rw [stripCommentFrom]
    split
    · rfl
    · rename_i hkept
      exact isWhole_cons_iff.mpr ⟨hkept, ih _⟩

/-- **A text without semicolons and quotes makes no difference.** -/
theorem isWhole_bare_append_iff {quoted : Bool} {cs ds : List Char} (h : IsBare cs) :
    IsWhole quoted (cs ++ ds) ↔ IsWhole quoted ds := by
  rw [IsWhole, stripCommentFrom_append h, List.append_cancel_left_eq, IsWhole]

theorem isWhole_bare_cons_iff {quoted : Bool} {c : Char} {cs : List Char} (h : IsBare [c]) :
    IsWhole quoted (c :: cs) ↔ IsWhole quoted cs := isWhole_bare_append_iff h

/-- Nor does the blank before a word. -/
theorem isWhole_spaced_cons_iff {quoted : Bool} {w : List Char} {ws : List (List Char)} :
    IsWhole quoted (Text.spaced (w :: ws)) ↔ IsWhole quoted (w ++ Text.spaced ws) :=
  isWhole_bare_cons_iff (by decide)

theorem isWhole_spaced_of_bare {quoted : Bool} {ws : List (List Char)} (h : ∀ w ∈ ws, IsBare w) :
    IsWhole quoted (Text.spaced ws) := by
  induction ws with
  | nil => rfl
  | cons w ws ih =>
    obtain ⟨hw, hws⟩ := List.forall_mem_cons.mp h
    rw [isWhole_spaced_cons_iff, isWhole_bare_append_iff hw]
    exact ih hws

theorem isBare_of_isBlank {c : Char} (h : Text.isBlank c = true) : IsBare [c] := by
  have hblanks : ∀ b ∈ [c], Text.isBlank b = true := List.forall_mem_singleton.mpr h
  exact isBare_of_forall (by decide) (by decide) hblanks

/-- **Whether a text has a comment is seen from its words**, behind the word that has begun. -/
theorem isWhole_spaced_wordsFrom_iff (quoted : Bool) (word cs : List Char) :
    IsWhole quoted (Text.spaced (Text.wordsFrom word cs)) ↔
      IsWhole quoted (word.reverse ++ cs) := by
  induction cs generalizing quoted word with
  | nil =>
    cases word with
    | nil => exact Iff.rfl
    | cons c word =>
      rw [← List.reverse_reverse (c :: word), Text.wordsFrom_nil (by simp), isWhole_spaced_cons_iff,
        List.reverse_reverse]
      rfl
  | cons c cs ih =>
    by_cases hc : Text.isBlank c = true
    · have hblank (q : Bool) : IsWhole q (c :: cs) ↔ IsWhole q cs :=
        isWhole_bare_cons_iff (isBare_of_isBlank hc)
      cases word with
      | nil =>
        rw [Text.wordsFrom_blank hc, List.reverse_nil, List.nil_append, hblank]
        exact ih quoted []
      | cons d word =>
        have hword : (d :: word).reverse ≠ [] := by simp
        rw [Text.wordsFrom_blank hc, ← List.reverse_reverse (d :: word), Text.wordsFrom_nil hword,
          List.reverse_reverse, List.singleton_append, isWhole_spaced_cons_iff, isWhole_append_iff,
          isWhole_append_iff, hblank]
        exact and_congr_right fun _ => ih _ []
    · rw [Text.wordsFrom, if_neg hc, ih, List.reverse_cons, List.append_assoc,
        List.singleton_append]

theorem isWhole_spaced_words_iff {quoted : Bool} {cs : List Char} :
    IsWhole quoted (Text.spaced (Text.words cs)) ↔ IsWhole quoted cs :=
  isWhole_spaced_wordsFrom_iff quoted [] cs

end Protocell.Assembly
