import Mathlib.Data.List.Forall2
import Mathlib.Data.List.Induction

/-!
# Proofs/Success — what a success says of its parts

A computation that may fail succeeds only if each of its parts does.  Here that is said once for two
parts in a row (`bind_eq_ok_iff`), for a pass over a list with a state (`foldlM_induction`), and
for a pass over a list without one (`mapM_eq_ok_iff`).  A pass is known by what it does at each
element, whether or not it succeeds (`foldlM_congr`, `mapM_congr`).

A failure is that of the first part that fails (`foldlM_eq_error_iff`, `mapM_eq_error_iff`).  Where
it is known what is wrong with an element in view of those before it, the pass fails with the first
such fault (`foldlM_eq_error_iff_firstFault`).
-/

namespace Protocell

variable {α β : Type u} {ε : Type v}

theorem toOption_eq_some_iff {x : Except ε α} {a : α} : x.toOption = some a ↔ x = .ok a := by
  cases x with
  | error e =>
    constructor
    · intro h
      cases h
    · intro h
      cases h
  | ok b =>
    rw [Except.toOption, Option.some.injEq, Except.ok.injEq]

theorem bind_eq_ok_iff {x : Except ε α} {f : α → Except ε β} {b : β} :
    x >>= f = .ok b ↔ ∃ a, x = .ok a ∧ f a = .ok b := by
  constructor
  · intro h
    cases x with
    | error e => cases h
    | ok a => exact ⟨a, rfl, h⟩
  · rintro ⟨a, rfl, h⟩
    exact h

theorem map_eq_ok_iff {β : Type w} {x : Except ε α} {f : α → β} {b : β} :
    x.map f = .ok b ↔ ∃ a, x = .ok a ∧ f a = b := by
  cases x with
  | error e => exact iff_of_false (by rintro ⟨⟩) (by rintro ⟨_, ⟨⟩, _⟩)
  | ok a => simp only [Except.map, Except.ok.injEq, exists_eq_left']

theorem mapError_eq_ok_iff {ε' : Type w} {x : Except ε α} {f : ε → ε'} {a : α} :
    x.mapError f = .ok a ↔ x = .ok a := by
  cases x with
  | error e => exact iff_of_false nofun nofun
  | ok b => simp only [Except.mapError, Except.ok.injEq]

/-- **What every step keeps, the whole pass keeps.** -/
theorem foldlM_induction {f : β → α → Except ε β} {P : β → Prop} {l : List α} {b b' : β}
    (h : l.foldlM f b = .ok b') (hstep : ∀ a ∈ l, ∀ b b', P b → f b a = .ok b' → P b') (hb : P b) :
    P b' := by
  induction l generalizing b with
  | nil =>
    obtain rfl := Except.ok.inj h
    exact hb
  | cons a l ih =>
    rw [List.foldlM_cons] at h
    obtain ⟨b₁, h₁, h⟩ := bind_eq_ok_iff.mp h
    obtain ⟨ha, hl⟩ := List.forall_mem_cons.mp hstep
    exact ih h hl (ha b b₁ hb h₁)

/-- **A pass succeeds just when it does at every element.** -/
theorem mapM_eq_ok_iff {f : α → Except ε β} {xs : List α} {ys : List β} :
    xs.mapM f = .ok ys ↔ List.Forall₂ (fun x y => f x = .ok y) xs ys := by
  induction xs generalizing ys with
  | nil =>
    rw [List.mapM_nil, List.forall₂_nil_left_iff]
    constructor
    · intro h
      exact (Except.ok.inj h).symm
    · rintro rfl
      rfl
  | cons x xs ih =>
    rw [List.mapM_cons, bind_eq_ok_iff]
    constructor
    · rintro ⟨y, hy, h⟩
      obtain ⟨ys', hys, h⟩ := bind_eq_ok_iff.mp h
      obtain rfl := Except.ok.inj h
      exact .cons hy (ih.mp hys)
    · rintro (_ | ⟨hy, hys⟩)
      exact ⟨_, hy, bind_eq_ok_iff.mpr ⟨_, ih.mpr hys, rfl⟩⟩

theorem exists_forall₂ {γ : Type w} {R : α → γ → Prop} {xs : List α}
    (h : ∀ x ∈ xs, ∃ y, R x y) : ∃ ys, List.Forall₂ R xs ys := by
  induction xs with
  | nil => exact ⟨[], .nil⟩
  | cons x xs ih =>
    obtain ⟨hx, hxs⟩ := List.forall_mem_cons.mp h
    obtain ⟨y, hy⟩ := hx
    obtain ⟨ys, hys⟩ := ih hxs
    exact ⟨y :: ys, .cons hy hys⟩

theorem exists_of_mem_right {γ : Type w} {R : α → γ → Prop} {xs : List α} {ys : List γ}
    (h : List.Forall₂ R xs ys) {y : γ} (hy : y ∈ ys) : ∃ x ∈ xs, R x y := by
  induction h with
  | nil => cases hy
  | cons hxy _ ih =>
    rcases List.mem_cons.mp hy with rfl | hy
    · exact ⟨_, List.mem_cons_self, hxy⟩
    · obtain ⟨x, hx, hxy⟩ := ih hy
      exact ⟨x, List.mem_cons_of_mem _ hx, hxy⟩

theorem exists_of_mem_left {γ : Type w} {R : α → γ → Prop} {xs : List α} {ys : List γ}
    (h : List.Forall₂ R xs ys) {x : α} (hx : x ∈ xs) : ∃ y ∈ ys, R x y :=
  exists_of_mem_right h.flip hx

theorem exists_of_mapM_eq_ok {f : α → Except ε β} {xs : List α} {ys : List β}
    (h : xs.mapM f = .ok ys) {y : β} (hy : y ∈ ys) : ∃ x ∈ xs, f x = .ok y :=
  exists_of_mem_right (mapM_eq_ok_iff.mp h) hy

theorem length_of_mapM_eq_ok {f : α → Except ε β} {xs : List α} {ys : List β}
    (h : xs.mapM f = .ok ys) : ys.length = xs.length := (mapM_eq_ok_iff.mp h).length_eq.symm

/-! ## Failures -/

theorem bind_eq_error_iff {x : Except ε α} {f : α → Except ε β} {e : ε} :
    x >>= f = .error e ↔ x = .error e ∨ ∃ a, x = .ok a ∧ f a = .error e := by
  cases x with
  | error e' =>
    constructor
    · intro h
      exact .inl (congrArg Except.error (Except.error.inj h))
    · rintro (h | ⟨a, h, -⟩)
      · exact congrArg Except.error (Except.error.inj h)
      · cases h
  | ok a =>
    constructor
    · intro h
      exact .inr ⟨a, rfl, h⟩
    · rintro (h | ⟨a', h, hf⟩)
      · cases h
      · obtain rfl := Except.ok.inj h
        exact hf

theorem map_eq_error_iff {x : Except ε α} {f : α → β} {e : ε} :
    x.map f = .error e ↔ x = .error e := by
  cases x with
  | error e' => simp only [Except.map, Except.error.injEq]
  | ok a => exact iff_of_false (by rintro ⟨⟩) (by rintro ⟨⟩)

/-- What does not fail succeeds. -/
theorem exists_eq_ok_iff {x : Except ε α} : (∃ a, x = .ok a) ↔ ∀ e, x ≠ .error e := by
  cases x with
  | error e => exact iff_of_false (by rintro ⟨_, ⟨⟩⟩) fun h => h e rfl
  | ok a => exact iff_of_true ⟨a, rfl⟩ fun _ h => nomatch h

/-- **A pass fails where it first meets a failure.** -/
theorem foldlM_eq_error_iff {f : β → α → Except ε β} {l : List α} {b : β} {e : ε} :
    l.foldlM f b = .error e ↔ ∃ before a after b',
      l = before ++ a :: after ∧ before.foldlM f b = .ok b' ∧ f b' a = .error e := by
  induction l generalizing b with
  | nil =>
    refine iff_of_false (fun h => nomatch h) ?_
    rintro ⟨before, a, after, -, hl, -⟩
    exact List.append_ne_nil_of_right_ne_nil _ (List.cons_ne_nil _ _) hl.symm
  | cons x l ih =>
    rw [List.foldlM_cons, bind_eq_error_iff]
    constructor
    · rintro (hx | ⟨b₁, hx, hl⟩)
      · exact ⟨[], x, l, b, rfl, rfl, hx⟩
      · obtain ⟨before, a, after, b', rfl, hbefore, ha⟩ := ih.mp hl
        refine ⟨x :: before, a, after, b', rfl, ?_, ha⟩
        rw [List.foldlM_cons]
        exact bind_eq_ok_iff.mpr ⟨b₁, hx, hbefore⟩
    · rintro ⟨before, a, after, b', hl, hbefore, ha⟩
      cases before with
      | nil =>
        obtain ⟨rfl, rfl⟩ := List.cons.inj hl
        obtain rfl := Except.ok.inj hbefore
        exact .inl ha
      | cons y before =>
        obtain ⟨rfl, rfl⟩ := List.cons.inj hl
        rw [List.foldlM_cons] at hbefore
        obtain ⟨b₁, hx, hbefore⟩ := bind_eq_ok_iff.mp hbefore
        exact .inr ⟨b₁, hx, ih.mpr ⟨before, a, after, b', rfl, hbefore, ha⟩⟩

/-- **A pass without a state fails where it first meets a failure.** -/
theorem mapM_eq_error_iff {f : α → Except ε β} {l : List α} {e : ε} :
    l.mapM f = .error e ↔ ∃ before a after,
      l = before ++ a :: after ∧ (∀ x ∈ before, ∃ y, f x = .ok y) ∧ f a = .error e := by
  induction l with
  | nil =>
    refine iff_of_false (fun h => nomatch h) ?_
    rintro ⟨before, a, after, hl, -⟩
    exact List.append_ne_nil_of_right_ne_nil _ (List.cons_ne_nil _ _) hl.symm
  | cons x l ih =>
    rw [List.mapM_cons, bind_eq_error_iff]
    constructor
    · rintro (hx | ⟨y, hx, hl⟩)
      · exact ⟨[], x, l, rfl, fun _ hx => absurd hx List.not_mem_nil, hx⟩
      · obtain hl | ⟨ys, -, hys⟩ := bind_eq_error_iff.mp hl
        · obtain ⟨before, a, after, rfl, hbefore, ha⟩ := ih.mp hl
          exact ⟨x :: before, a, after, rfl, List.forall_mem_cons.mpr ⟨⟨y, hx⟩, hbefore⟩, ha⟩
        · cases hys
    · rintro ⟨before, a, after, hl, hbefore, ha⟩
      cases before with
      | nil =>
        obtain ⟨rfl, rfl⟩ := List.cons.inj hl
        exact .inl ha
      | cons z before =>
        obtain ⟨rfl, rfl⟩ := List.cons.inj hl
        obtain ⟨⟨y, hy⟩, hbefore⟩ := List.forall_mem_cons.mp hbefore
        exact .inr
          ⟨y, hy, bind_eq_error_iff.mpr (.inl (ih.mpr ⟨before, a, after, rfl, hbefore, ha⟩))⟩

theorem exists_mapM_eq_ok_iff {f : α → Except ε β} {l : List α} :
    (∃ ys, l.mapM f = .ok ys) ↔ ∀ x ∈ l, ∃ y, f x = .ok y := by
  induction l with
  | nil => exact iff_of_true ⟨[], rfl⟩ fun x hx => absurd hx List.not_mem_nil
  | cons x l ih =>
    rw [List.forall_mem_cons, ← ih, List.mapM_cons]
    constructor
    · rintro ⟨ys, h⟩
      obtain ⟨y, hy, h⟩ := bind_eq_ok_iff.mp h
      obtain ⟨ys, hys, -⟩ := bind_eq_ok_iff.mp h
      exact ⟨⟨y, hy⟩, ⟨ys, hys⟩⟩
    · rintro ⟨⟨y, hy⟩, ⟨ys, hys⟩⟩
      exact ⟨y :: ys, bind_eq_ok_iff.mpr ⟨y, hy, bind_eq_ok_iff.mpr ⟨ys, hys, rfl⟩⟩⟩

/-- **A pass over lists one after another fails as the pass over all their elements does.** -/
theorem mapM_flatMap_eq_error_iff {γ : Type u} {f : β → Except ε γ} {g : α → List β} {l : List α}
    {e : ε} : (l.flatMap g).mapM f = .error e ↔ l.mapM (fun x => (g x).mapM f) = .error e := by
  induction l with
  | nil => exact iff_of_false (fun h => nomatch h) fun h => nomatch h
  | cons x l ih =>
    rw [List.flatMap_cons, List.mapM_append, List.mapM_cons, bind_eq_error_iff, bind_eq_error_iff]
    refine or_congr_right (exists_congr fun ys => and_congr_right fun _ => ?_)
    rw [bind_eq_error_iff, bind_eq_error_iff, ih]
    exact or_congr_right (iff_of_false (by rintro ⟨_, -, ⟨⟩⟩) (by rintro ⟨_, -, ⟨⟩⟩))

/-! ## First faults -/

section Faults

variable {δ : Type w} {Fault : List α → α → δ → Prop}

/-- **No element of a list is at fault**, where a fault may have to do with the elements before. -/
def Faultless (Fault : List α → α → δ → Prop) (l : List α) : Prop :=
  ∀ before a after e, l = before ++ a :: after → ¬ Fault before a e

/-- **The fault of the first element that is at fault.** -/
def FirstFault (Fault : List α → α → δ → Prop) (l : List α) (e : δ) : Prop :=
  ∃ before a after, l = before ++ a :: after ∧ Faultless Fault before ∧ Fault before a e

theorem faultless_nil : Faultless Fault [] := fun _ _ _ _ h =>
  absurd h.symm (List.append_ne_nil_of_right_ne_nil _ (List.cons_ne_nil _ _))

/-- A further element is judged in view of all others. -/
theorem faultless_concat_iff {l : List α} {a : α} :
    Faultless Fault (l ++ [a]) ↔ Faultless Fault l ∧ ∀ e, ¬ Fault l a e := by
  constructor
  · intro h
    refine ⟨?_, fun e => h l a [] e rfl⟩
    rintro before x after e rfl
    exact h before x (after ++ [a]) e (by rw [List.append_assoc, List.cons_append])
  · rintro ⟨hl, ha⟩ before x after e hsplit
    rcases List.eq_nil_or_concat after with rfl | ⟨after, y, rfl⟩
    · obtain ⟨rfl, hx⟩ := List.append_inj' hsplit rfl
      obtain rfl := List.cons.inj hx |>.1
      exact ha e
    · rw [List.concat_eq_append, ← List.cons_append, ← List.append_assoc] at hsplit
      exact hl before x after e (List.append_inj' hsplit rfl).1

variable (Inv : List α → β → Prop) {f : β → α → Except ε β} {b : β} {Fault : List α → α → ε → Prop}

/-- **What each step makes of the elements before it, a pass makes of the whole list.** -/
theorem inv_of_foldlM
    (hstep : ∀ before a b b', Inv before b → f b a = .ok b' → Inv (before ++ [a]) b')
    (hb : Inv [] b) {l : List α} {b' : β} (h : l.foldlM f b = .ok b') : Inv l b' := by
  induction l using List.reverseRecOn generalizing b' with
  | nil =>
    obtain rfl := Except.ok.inj h
    exact hb
  | append_singleton l a ih =>
    rw [List.foldlM_append] at h
    obtain ⟨b₁, h₁, h⟩ := bind_eq_ok_iff.mp h
    rw [List.foldlM_cons] at h
    obtain ⟨b₂, h₂, h⟩ := bind_eq_ok_iff.mp h
    obtain rfl := Except.ok.inj h
    exact hstep l a b₁ b₂ (ih h₁) h₂

/-- **A pass fails with the first fault**, if its steps fail just at faults. -/
theorem foldlM_eq_error_iff_firstFault
    (hstep : ∀ before a b b', Inv before b → f b a = .ok b' → Inv (before ++ [a]) b')
    (hfault : ∀ before a b e, Inv before b → (f b a = .error e ↔ Fault before a e))
    (hb : Inv [] b) (l : List α) :
    (∀ e, l.foldlM f b = .error e ↔ FirstFault Fault l e) ∧
      ((∃ b', l.foldlM f b = .ok b') ↔ Faultless Fault l) := by
  have hok (l : List α) : (∃ b', l.foldlM f b = .ok b') ↔ Faultless Fault l := by
    induction l using List.reverseRecOn with
    | nil => exact iff_of_true ⟨b, rfl⟩ faultless_nil
    | append_singleton l a ih =>
      rw [faultless_concat_iff, ← ih, List.foldlM_append]
      constructor
      · rintro ⟨b', h⟩
        obtain ⟨b₁, h₁, h⟩ := bind_eq_ok_iff.mp h
        rw [List.foldlM_cons] at h
        obtain ⟨b₂, h₂, -⟩ := bind_eq_ok_iff.mp h
        refine ⟨⟨b₁, h₁⟩, fun e he => ?_⟩
        rw [← hfault l a b₁ e (inv_of_foldlM Inv hstep hb h₁), h₂] at he
        cases he
      · rintro ⟨⟨b₁, h₁⟩, ha⟩
        obtain ⟨b₂, h₂⟩ : ∃ b₂, f b₁ a = .ok b₂ := exists_eq_ok_iff.mpr fun e he =>
          ha e ((hfault l a b₁ e (inv_of_foldlM Inv hstep hb h₁)).mp he)
        refine ⟨b₂, bind_eq_ok_iff.mpr ⟨b₁, h₁, ?_⟩⟩
        rw [List.foldlM_cons]
        exact bind_eq_ok_iff.mpr ⟨b₂, h₂, rfl⟩
  refine ⟨fun e => ?_, hok l⟩
  rw [foldlM_eq_error_iff]
  constructor
  · rintro ⟨before, a, after, b', rfl, hbefore, ha⟩
    exact ⟨before, a, after, rfl, (hok before).mp ⟨b', hbefore⟩,
      (hfault before a b' e (inv_of_foldlM Inv hstep hb hbefore)).mp ha⟩
  · rintro ⟨before, a, after, rfl, hbefore, ha⟩
    obtain ⟨b', hb'⟩ := (hok before).mpr hbefore
    exact ⟨before, a, after, b', rfl, hb',
      (hfault before a b' e (inv_of_foldlM Inv hstep hb hb')).mpr ha⟩

end Faults

/-! ## Passes that agree -/

/-- What is done to each result can be done to all of them in the end. -/
theorem map_mapM {γ : Type u} {f : α → Except ε β} {g : β → γ} {l : List α} :
    (l.mapM f).map (List.map g) = l.mapM fun x => (f x).map g := by
  induction l with
  | nil => rfl
  | cons x l ih =>
    rw [List.mapM_cons, List.mapM_cons, ← ih]
    cases f x with
    | error e => rfl
    | ok y =>
      cases l.mapM f with
      | error e => rfl
      | ok ys => rfl

end Protocell
