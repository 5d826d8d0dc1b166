import Mathlib.Tactic.Common

/-!
# Runs that may fail

A step gives a result or fails, and a run takes one step for each item of a list until one fails.
What every successful step keeps, every successful run keeps.
-/

namespace PrefixSearch

theorem except_bind_eq_ok {ε α β : Type} {x : Except ε α} {f : α → Except ε β} {b : β} :
    x >>= f = .ok b ↔ ∃ a, x = .ok a ∧ f a = .ok b := by
  cases x with
  | error e => simp [bind, Except.bind]
  | ok a => simp [bind, Except.bind]

theorem except_bind_eq_error {ε α β : Type} {x : Except ε α} {f : α → Except ε β} {e : ε} :
    x >>= f = .error e ↔ x = .error e ∨ ∃ a, x = .ok a ∧ f a = .error e := by
  cases x with
  | error fault => simp [bind, Except.bind]
  | ok a => simp [bind, Except.bind]

theorem except_bind_congr {ε α β : Type} {x : Except ε α} {f g : α → Except ε β}
    (hsame : ∀ a, x = .ok a → f a = g a) : x >>= f = x >>= g := by
  cases x with
  | error e => rfl
  | ok a => exact hsame a rfl

/-- What is kept of a pair is its second part. -/
theorem second_eq_ok {ε α β : Type} {x : Except ε (α × β)} {b : β} :
    (x >>= fun pair => pure pair.2) = .ok b ↔ ∃ a, x = .ok (a, b) := by
  rw [except_bind_eq_ok]
  constructor
  · rintro ⟨⟨a, _⟩, hx, ⟨⟩⟩
    exact ⟨a, hx⟩
  · rintro ⟨a, hx⟩
    exact ⟨(a, b), hx, rfl⟩

theorem mapError_eq_ok {ε ε' α : Type} {x : Except ε α} {f : ε → ε'} {a : α} :
    x.mapError f = .ok a ↔ x = .ok a := by
  cases x with
  | error e => simp [Except.mapError]
  | ok b => simp [Except.mapError]

theorem toOption_eq_some {ε α : Type} {x : Except ε α} {a : α} :
    x.toOption = some a ↔ x = .ok a := by
  cases x with
  | error e => simp [Except.toOption]
  | ok b => simp [Except.toOption]

/-- Where one function gives a value for every item, so does one that gives the same values. -/
theorem mapM_eq_ok_of_imp {ε α β : Type} {f g : α → Except ε β} {items : List α} {found : List β}
    (himp : ∀ a b, f a = .ok b → g a = .ok b) (hfound : items.mapM f = .ok found) :
    items.mapM g = .ok found := by
  induction items generalizing found with
  | nil =>
      rw [List.mapM_nil] at hfound ⊢
      exact hfound
  | cons item items ih =>
      rw [List.mapM_cons] at hfound ⊢
      obtain ⟨first, hfirst, hmore⟩ := except_bind_eq_ok.mp hfound
      obtain ⟨rest, hrest, hlast⟩ := except_bind_eq_ok.mp hmore
      exact except_bind_eq_ok.mpr ⟨first, himp _ _ hfirst,
        except_bind_eq_ok.mpr ⟨rest, ih hrest, hlast⟩⟩

theorem mapM_eq_ok_of_forall {ε α β : Type} {f : α → Except ε β} {g : α → β} {items : List α}
    (hitems : ∀ a ∈ items, f a = .ok (g a)) : items.mapM f = .ok (items.map g) := by
  induction items with
  | nil => rfl
  | cons item items ih =>
      obtain ⟨hfirst, hrest⟩ := List.forall_mem_cons.mp hitems
      rw [List.mapM_cons, hfirst, ih hrest]
      rfl

section

variable {ε σ α : Type} {step : σ → α → Except ε σ} {s last : σ} {item : α} {items : List α}

theorem foldlM_cons_eq_ok :
    (item :: items).foldlM step s = .ok last ↔
      ∃ next, step s item = .ok next ∧ items.foldlM step next = .ok last := by
  rw [List.foldlM_cons, except_bind_eq_ok]

/-- A run keeps what its steps keep. -/
theorem foldlM_keeps {P : σ → Prop} (hrun : items.foldlM step s = .ok last)
    (hstep : ∀ s item next, P s → step s item = .ok next → P next) (hs : P s) : P last := by
  induction items generalizing s with
  | nil =>
      cases hrun
      exact hs
  | cons item items ih =>
      obtain ⟨next, hnext, hrest⟩ := foldlM_cons_eq_ok.mp hrun
      exact ih hrest (hstep s item next hs hnext)

end

/-! ## One more item -/

/-- An element of a longer list is the new one or one that was there. -/
theorem getElem?_concat_eq_some {α : Type} {items : List α} {item found : α} {p : Nat} :
    (items ++ [item])[p]? = some found ↔
      items[p]? = some found ∨ (p = items.length ∧ item = found) := by
  rcases Nat.lt_trichotomy p items.length with hlt | rfl | hgt
  · have hne : p ≠ items.length := Nat.ne_of_lt hlt
    rw [List.getElem?_append_left hlt]
    simp [hne]
  · simp
  · have hne : p ≠ items.length := Nat.ne_of_gt hgt
    rw [List.getElem?_eq_none (by rw [List.length_append]; exact hgt),
      List.getElem?_eq_none (Nat.le_of_lt hgt)]
    simp [hne]

end PrefixSearch
