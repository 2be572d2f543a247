import Mathlib.Data.List.Basic
/-!
# Runs — steps under guards

A step relation with labels, the states a list of labels leads through, and what holds along it.  `Along` states a
property of every state reached, `Guarded` a condition at every step taken.  An invariant that guarded steps keep holds
along every guarded run (`Guarded.along`); when it is the steps off the guard that break it, a run along which it holds
is guarded (`Along.guarded`).
-/
namespace Runs

variable {σ α : Type} (step : σ → α → σ → Prop)

/-- `s'` is reached from `s` by a run with labels `l`. -/
def Reaches : σ → List α → σ → Prop
  | s, [], s' => s = s'
  | s, a :: l, s' => ∃ t, step s a t ∧ Reaches t l s'

/-- `p` holds in every state that a run with labels `l` leads through. -/
def Along (p : σ → Prop) : σ → List α → Prop
  | s, [] => p s
  | s, a :: l => p s ∧ ∀ t, step s a t → Along p t l

/-- `g` holds at every step that a run with labels `l` takes. -/
def Guarded (g : σ → α → Prop) : σ → List α → Prop
  | _, [] => True
  | s, a :: l => g s a ∧ ∀ t, step s a t → Guarded g t l

variable {step} {p : σ → Prop} {g : σ → α → Prop}

theorem reaches_append : ∀ {s s' : σ} {l r : List α},
    Reaches step s (l ++ r) s' ↔ ∃ t, Reaches step s l t ∧ Reaches step t r s'
  | s, s', [], r => by simp [Reaches]
  | s, s', a :: l, r => by
    simp only [List.cons_append, Reaches, reaches_append (l := l)]
    constructor
    · rintro ⟨t, h1, u, h2, h3⟩; exact ⟨u, ⟨t, h1, h2⟩, h3⟩
    · rintro ⟨u, ⟨t, h1, h2⟩, h3⟩; exact ⟨t, h1, u, h2, h3⟩

theorem reaches_one {s t : σ} {a : α} (h : step s a t) : Reaches step s [a] t := ⟨t, h, rfl⟩

theorem Reaches.cons {s t u : σ} {a : α} {l : List α} (h : step s a t) (hr : Reaches step t l u) :
    Reaches step s (a :: l) u := ⟨t, h, hr⟩

/-- **`Along` is about the states of every initial part of the run.** -/
theorem along_iff : ∀ {s : σ} {l : List α},
    Along step p s l ↔ ∀ l₁ l₂ s', l = l₁ ++ l₂ → Reaches step s l₁ s' → p s'
  | s, [] => by
    constructor
    · rintro h l₁ l₂ s' hl hr
      obtain ⟨rfl, rfl⟩ := List.append_eq_nil_iff.1 hl.symm
      obtain rfl : s = s' := hr
      exact h
    · exact fun h => h [] [] s rfl rfl
  | s, a :: l => by
    simp only [Along, along_iff (l := l)]
    constructor
    · rintro ⟨h0, h⟩ l₁ l₂ s' hl hr
      cases l₁ with
      | nil => obtain rfl : s = s' := hr; exact h0
      | cons b l₁ =>
        simp only [List.cons_append, List.cons.injEq] at hl
        obtain ⟨rfl, hl⟩ := hl
        obtain ⟨t, ht, hr⟩ := hr
        exact h t ht l₁ l₂ s' hl hr
    · intro h
      refine ⟨h [] (a :: l) s rfl rfl, fun t ht l₁ l₂ s' hl hr => ?_⟩
      exact h (a :: l₁) l₂ s' (by rw [hl]; rfl) ⟨t, ht, hr⟩

/-- **`Guarded` is about every step of the run**, at the state it is taken in. -/
theorem guarded_iff : ∀ {s : σ} {l : List α},
    Guarded step g s l ↔ ∀ l₁ a l₂ s', l = l₁ ++ a :: l₂ → Reaches step s l₁ s' → g s' a
  | s, [] => by
    constructor
    · rintro - l₁ a l₂ s' hl -
      simp at hl
    · exact fun _ => trivial
  | s, b :: l => by
    simp only [Guarded, guarded_iff (l := l)]
    constructor
    · rintro ⟨h0, h⟩ l₁ a l₂ s' hl hr
      cases l₁ with
      | nil =>
        simp only [List.nil_append, List.cons.injEq] at hl
        obtain ⟨rfl, rfl⟩ := hl
        obtain rfl : s = s' := hr
        exact h0
      | cons c l₁ =>
        simp only [List.cons_append, List.cons.injEq] at hl
        obtain ⟨rfl, hl⟩ := hl
        obtain ⟨t, ht, hr⟩ := hr
        exact h t ht l₁ a l₂ s' hl hr
    · intro h
      refine ⟨h [] b l s rfl rfl, fun t ht l₁ a l₂ s' hl hr => ?_⟩
      exact h (b :: l₁) a l₂ s' (by rw [hl]; rfl) ⟨t, ht, hr⟩

/-- Where a label leads to one state, the guard of the run goes on there. -/
theorem Guarded.cons {s u : σ} {a : α} {l : List α} (hg : g s a) (hone : ∀ t, step s a t → t = u)
    (h : Guarded step g u l) : Guarded step g s (a :: l) :=
  ⟨hg, fun t ht => (hone t ht).symm ▸ h⟩

/-- **An invariant that guarded steps keep holds along every guarded run.** -/
theorem Guarded.along (hstep : ∀ s a t, p s → g s a → step s a t → p t) : ∀ {s : σ} {l : List α},
    p s → Guarded step g s l → Along step p s l
  | _, [], hp, _ => hp
  | s, a :: _, hp, ⟨hg, h⟩ => ⟨hp, fun t ht => (h t ht).along hstep (hstep s a t hp hg ht)⟩

theorem Along.head {s : σ} {l : List α} (h : Along step p s l) : p s := by
  cases l with
  | nil => exact h
  | cons a l => exact h.1

theorem Along.last : ∀ {s s' : σ} {l : List α}, Along step p s l → Reaches step s l s' → p s'
  | s, _, [], h, hr => by
    obtain rfl : s = _ := hr
    exact h
  | _, _, _ :: _, ⟨_, h⟩, ⟨t, ht, hr⟩ => (h t ht).last hr

theorem Guarded.and {g' : σ → α → Prop} : ∀ {s : σ} {l : List α}, Guarded step g s l → Guarded step g' s l →
    Guarded step (fun s a => g s a ∧ g' s a) s l
  | _, [], _, _ => trivial
  | _, _ :: _, ⟨hg, h⟩, ⟨hg', h'⟩ => ⟨⟨hg, hg'⟩, fun t ht => (h t ht).and (h' t ht)⟩

theorem Along.imp {q : σ → Prop} (hpq : ∀ s, p s → q s) : ∀ {s : σ} {l : List α}, Along step p s l → Along step q s l
  | s, [], h => hpq s h
  | s, _ :: _, ⟨h0, h⟩ => ⟨hpq s h0, fun t ht => (h t ht).imp hpq⟩

/-- When a step off the guard does not keep `p`, a run along which `p` holds is guarded. -/
theorem Along.guarded (hstep : ∀ s a, p s → (∀ t, step s a t → p t) → g s a) : ∀ {s : σ} {l : List α},
    Along step p s l → Guarded step g s l
  | _, [], _ => trivial
  | s, a :: _, ⟨hp, h⟩ => ⟨hstep s a hp fun t ht => (h t ht).head, fun t ht => (h t ht).guarded hstep⟩

end Runs
