import Mathlib.Data.List.Basic

/-!
# Programs that return

Rules for programs that pass a state along and may stop with a fault. `Returns m s Q` is total
correctness: started in `s` the program does return, and `Q` holds of its result and final state.
`Yields P m s Q` says that `Q` holds whenever the program returns, and that it does if `P` holds.
-/

namespace Lachesis.Core

universe u

variable {σ τ ε α β : Type u}

/-- Started in `s`, the program returns a result and a state that satisfy `Q`. -/
def Returns (m : StateT σ (Except ε) α) (s : σ) (Q : α → σ → Prop) : Prop :=
  ∃ a s', m.run s = .ok (a, s') ∧ Q a s'

/-- The program run on a part of the state. -/
def zoom (part : σ → τ) (put : τ → σ → σ) (m : StateT τ (Except ε) α) :
    StateT σ (Except ε) α := fun s =>
  match m.run (part s) with
  | .ok (a, t) => .ok (a, put t s)
  | .error e => .error e

namespace Returns

variable {m : StateT σ (Except ε) α} {f : α → StateT σ (Except ε) β} {s : σ}
variable {Q Q' : α → σ → Prop} {R : β → σ → Prop}

lemma of_run {a : α} {s' : σ} (h : Returns m s Q) (hm : m.run s = .ok (a, s')) : Q a s' := by
  obtain ⟨b, t, hb, hQ⟩ := h
  rw [hm] at hb
  cases hb
  exact hQ

lemma mono (h : Returns m s Q) (hQ : ∀ a s', Q a s' → Q' a s') : Returns m s Q' := by
  obtain ⟨a, s', hm, hq⟩ := h
  exact ⟨a, s', hm, hQ a s' hq⟩

lemma and_of {P : Prop} (h : Returns m s Q) (h' : P → Returns m s Q') :
    Returns m s fun a s' => Q a s' ∧ (P → Q' a s') := by
  obtain ⟨a, s', hm, hq⟩ := h
  exact ⟨a, s', hm, hq, fun hP => (h' hP).of_run hm⟩

lemma pure {a : α} (h : Q a s) : Returns (pure a : StateT σ (Except ε) α) s Q :=
  ⟨a, s, rfl, h⟩

lemma bind (h : Returns m s Q) (hf : ∀ a s', Q a s' → Returns (f a) s' R) :
    Returns (m >>= f) s R := by
  obtain ⟨a, s', hm, hq⟩ := h
  obtain ⟨b, s'', hb, hr⟩ := hf a s' hq
  refine ⟨b, s'', ?_, hr⟩
  rw [StateT.run_bind, hm]
  exact hb

lemma map {g : α → β} (h : Returns m s fun a s' => R (g a) s') : Returns (g <$> m) s R := by
  obtain ⟨a, s', hm, hr⟩ := h
  refine ⟨g a, s', ?_, hr⟩
  rw [StateT.run_map, hm]
  rfl

lemma get_bind {f : σ → StateT σ (Except ε) β} (h : Returns (f s) s R) :
    Returns (get >>= f) s R := h

lemma modify_bind {g : σ → σ} {f : PUnit → StateT σ (Except ε) β} (h : Returns (f ⟨⟩) (g s) R) :
    Returns (modify g >>= f) s R := h

lemma modify {Q : PUnit → σ → Prop} {g : σ → σ} (h : Q ⟨⟩ (g s)) :
    Returns (modify g : StateT σ (Except ε) PUnit) s Q :=
  ⟨⟨⟩, g s, rfl, h⟩

lemma lift {x : Except ε α} {a : α} (hx : x = .ok a) (h : Q a s) :
    Returns (liftM x : StateT σ (Except ε) α) s Q := by
  subst hx
  exact ⟨a, s, rfl, h⟩

lemma lift_bind {x : Except ε α} {a : α} (hx : x = .ok a) (h : Returns (f a) s R) :
    Returns ((liftM x : StateT σ (Except ε) α) >>= f) s R := by
  subst hx
  exact h

lemma zoom {part : σ → τ} {put : τ → σ → σ} {m : StateT τ (Except ε) α}
    (h : Returns m (part s) fun a t => Q a (put t s)) : Returns (zoom part put m) s Q := by
  obtain ⟨a, t, hm, hq⟩ := h
  exact ⟨a, put t s, by simp [StateT.run, Core.zoom] at hm ⊢; simp [hm], hq⟩

/-- A program run on each element of a list: `I` holds of what has been gone through. -/
theorem forM {γ : Type u} {step : γ → StateT σ (Except ε) PUnit} {l : List γ}
    (I : List γ → σ → Prop) (h₀ : I [] s)
    (hstep : ∀ done x rest t, l = done ++ x :: rest → I done t →
      Returns (step x) t fun _ => I (done ++ [x])) :
    Returns (l.forM step) s fun _ => I l := by
  suffices hgo : ∀ rest done t, l = done ++ rest → I done t →
      Returns (rest.forM step) t fun _ => I l from hgo l [] s rfl h₀
  intro rest
  induction rest with
  | nil =>
    intro done t hl hI
    rw [List.append_nil] at hl
    exact pure (hl ▸ hI)
  | cons x rest ih =>
    intro done t hl hI
    exact (hstep done x rest t hl hI).bind fun _ t' hI' => ih (done ++ [x]) t' (by simp [hl]) hI'

/-- Collecting the results of a program run on each element of a list, when each run leaves `I`
intact and returns what `g` says. -/
theorem mapM {γ δ : Type u} {step : γ → StateT σ (Except ε) δ} {l : List γ} (g : γ → δ)
    (I : σ → Prop) (h₀ : I s)
    (hstep : ∀ x ∈ l, ∀ t, I t → Returns (step x) t fun y t' => y = g x ∧ I t') :
    Returns (l.mapM step) s fun ys s' => ys = l.map g ∧ I s' := by
  induction l generalizing s with
  | nil => exact pure ⟨rfl, h₀⟩
  | cons x l ih =>
    rw [List.mapM_cons]
    refine (hstep x (by simp) s h₀).bind ?_
    rintro y s' ⟨rfl, hI⟩
    refine (ih hI fun z hz => hstep z (by simp [hz])).bind ?_
    rintro ys s'' ⟨rfl, hI'⟩
    exact pure ⟨rfl, hI'⟩

end Returns

lemma bind_eq_ok_iff {ε α β : Type*} {x : Except ε α} {f : α → Except ε β} {b : β} :
    x.bind f = .ok b ↔ ∃ a, x = .ok a ∧ f a = .ok b := by
  cases x <;> simp [Except.bind]

lemma run_bind_eq_ok_iff {m : StateT σ (Except ε) α} {f : α → StateT σ (Except ε) β} {s : σ}
    {r : β × σ} :
    (m >>= f).run s = .ok r ↔ ∃ x, m.run s = .ok x ∧ (f x.1).run x.2 = .ok r := by
  rw [StateT.run_bind]
  exact bind_eq_ok_iff

lemma map_eq_ok_iff {ε α β : Type*} {x : Except ε α} {f : α → β} {b : β} :
    x.map f = .ok b ↔ ∃ a, x = .ok a ∧ f a = b := by
  cases x <;> simp [Except.map]

/-- `Q` holds of what the program returns from `s`, and it does return if `P` holds. -/
structure Yields (P : Prop) (m : StateT σ (Except ε) α) (s : σ) (Q : α → σ → Prop) : Prop where
  returned : ∀ a s', m.run s = .ok (a, s') → Q a s'
  returns : P → ∃ r, m.run s = .ok r

lemma Returns.yields {P : Prop} {m : StateT σ (Except ε) α} {s : σ} {Q : α → σ → Prop}
    (h : Returns m s Q) : Yields P m s Q where
  returned _ _ hm := h.of_run hm
  returns _ := by
    obtain ⟨a, s', hm, -⟩ := h
    exact ⟨(a, s'), hm⟩

namespace Yields

variable {P : Prop} {m : StateT σ (Except ε) α} {f : α → StateT σ (Except ε) β} {s : σ}
variable {Q Q' : α → σ → Prop} {R : β → σ → Prop}

lemma toReturns (h : Yields P m s Q) (hP : P) : Returns m s Q := by
  obtain ⟨⟨a, s'⟩, hm⟩ := h.returns hP
  exact ⟨a, s', hm, h.returned a s' hm⟩

lemma mono (h : Yields P m s Q) (hQ : ∀ a s', Q a s' → Q' a s') : Yields P m s Q' :=
  ⟨fun a s' hm => hQ a s' (h.returned a s' hm), h.returns⟩

lemma weaken {P' : Prop} (h : Yields P m s Q) (hP : P' → P) : Yields P' m s Q :=
  ⟨h.returned, fun h' => h.returns (hP h')⟩

lemma pure {a : α} (h : Q a s) : Yields P (pure a : StateT σ (Except ε) α) s Q :=
  (Returns.pure h).yields

lemma bind (h : Yields P m s Q) (hf : ∀ a s', Q a s' → Yields P (f a) s' R) :
    Yields P (m >>= f) s R where
  returned b t hrun := by
    obtain ⟨⟨a, s'⟩, hm, hb⟩ := run_bind_eq_ok_iff.mp hrun
    exact (hf a s' (h.returned a s' hm)).returned b t hb
  returns hP := by
    obtain ⟨⟨a, s'⟩, hm⟩ := h.returns hP
    obtain ⟨r, hr⟩ := (hf a s' (h.returned a s' hm)).returns hP
    exact ⟨r, by rw [StateT.run_bind, hm]; exact hr⟩

lemma get_bind {f : σ → StateT σ (Except ε) β} (h : Yields P (f s) s R) :
    Yields P (get >>= f) s R := ⟨h.returned, h.returns⟩

lemma modify_bind {g : σ → σ} {f : PUnit → StateT σ (Except ε) β} (h : Yields P (f ⟨⟩) (g s) R) :
    Yields P (modify g >>= f) s R := ⟨h.returned, h.returns⟩

lemma zoom {part : σ → τ} {put : τ → σ → σ} {m : StateT τ (Except ε) α}
    (h : Yields P m (part s) fun a t => Q a (put t s)) : Yields P (zoom part put m) s Q where
  returned a s' hrun := by
    simp only [StateT.run, Core.zoom] at hrun
    split at hrun
    · rename_i b t hm
      cases hrun
      exact h.returned a t hm
    · cases hrun
  returns hP := by
    obtain ⟨⟨a, t⟩, hm⟩ := h.returns hP
    exact ⟨(a, put t s), by simp only [StateT.run, Core.zoom] at hm ⊢; simp only [hm]⟩

lemma lift {x : Except ε α} (hx : P → ∃ a, x = .ok a) (h : ∀ a, x = .ok a → Q a s) :
    Yields P (liftM x : StateT σ (Except ε) α) s Q where
  returned a s' hrun := by
    cases x with
    | error => cases hrun
    | ok b =>
      cases hrun
      exact h _ rfl
  returns hP := by
    obtain ⟨a, rfl⟩ := hx hP
    exact ⟨(a, s), rfl⟩

end Yields

/-! ### What every run does -/

lemma run_get_bind {f : σ → StateT σ (Except ε) β} {s : σ} :
    (get >>= f).run s = (f s).run s := rfl

lemma run_modify_bind {g : σ → σ} {f : PUnit → StateT σ (Except ε) β} {s : σ} :
    (modify g >>= f).run s = (f ⟨⟩).run (g s) := rfl

/-- Whenever the program returns, `R` relates the states before and after it. -/
def Steps (R : σ → σ → Prop) (m : StateT σ (Except ε) α) : Prop :=
  ∀ s a s', m.run s = .ok (a, s') → R s s'

namespace Steps

variable {R : σ → σ → Prop} {m : StateT σ (Except ε) α} {f : α → StateT σ (Except ε) β}

lemma pure [Std.Refl R] (a : α) : Steps R (pure a : StateT σ (Except ε) α) := by
  intro s b s' hrun
  cases hrun
  exact refl s

lemma get [Std.Refl R] : Steps R (get : StateT σ (Except ε) σ) := by
  intro s b s' hrun
  cases hrun
  exact refl s

lemma throw (e : ε) : Steps R (throw e : StateT σ (Except ε) α) := by
  intro s a s' hrun
  cases hrun

lemma lift [Std.Refl R] (x : Except ε α) : Steps R (liftM x : StateT σ (Except ε) α) := by
  intro s a s' hrun
  cases x with
  | error => cases hrun
  | ok b =>
    cases hrun
    exact refl s

lemma bind [IsTrans σ R] (h : Steps R m) (hf : ∀ a, Steps R (f a)) : Steps R (m >>= f) := by
  intro s b t hrun
  obtain ⟨⟨a, s'⟩, hm, hb⟩ := run_bind_eq_ok_iff.mp hrun
  exact IsTrans.trans _ _ _ (h s a s' hm) (hf a s' b t hb)

lemma forM [Std.Refl R] [IsTrans σ R] {γ : Type u} {step : γ → StateT σ (Except ε) PUnit}
    (h : ∀ x, Steps R (step x)) (l : List γ) : Steps R (l.forM step) := by
  induction l with
  | nil => exact pure _
  | cons x l ih => exact (h x).bind fun _ => ih

lemma modify {g : σ → σ} (h : ∀ s, R s (g s)) : Steps R (modify g : StateT σ (Except ε) PUnit) := by
  intro s a s' hrun
  cases hrun
  exact h s

lemma zoom {part : σ → τ} {put : τ → σ → σ} {m : StateT τ (Except ε) α}
    (h : ∀ s t, R s (put t s)) : Steps R (zoom part put m) := by
  intro s a s' hrun
  simp only [StateT.run, Core.zoom] at hrun
  split at hrun
  · cases hrun
    exact h s _
  · cases hrun

end Steps

/-! ### Loops without state -/

section Loops

variable {α β γ : Type*} {ε : Type*}

/-- A loop over a list: `I` holds of what has been gone through and the accumulator. -/
theorem foldlM_ok (step : β → γ → Except ε β) (l : List γ) (b : β) (I : List γ → β → Prop)
    (h₀ : I [] b)
    (hstep : ∀ done x rest c, l = done ++ x :: rest → I done c →
      ∃ c', step c x = .ok c' ∧ I (done ++ [x]) c') :
    ∃ c, l.foldlM step b = .ok c ∧ I l c := by
  suffices hgo : ∀ rest done c, l = done ++ rest → I done c →
      ∃ c', rest.foldlM step c = .ok c' ∧ I l c' from hgo l [] b rfl h₀
  intro rest
  induction rest with
  | nil =>
    intro done c hl hI
    rw [List.append_nil] at hl
    exact ⟨c, rfl, hl ▸ hI⟩
  | cons x rest ih =>
    intro done c hl hI
    obtain ⟨c', hc', hI'⟩ := hstep done x rest c hl hI
    rw [List.foldlM_cons, hc']
    exact ih (done ++ [x]) c' (by simp [hl]) hI'

/-- What a loop does to a part of its accumulator, from what each step does to it. -/
theorem view_foldlM {step : β → γ → Except ε β} {view : β → α} {next : α → γ → α}
    (hstep : ∀ b x b', step b x = .ok b' → view b' = next (view b) x) {l : List γ} {b b' : β}
    (h : l.foldlM step b = .ok b') : view b' = l.foldl next (view b) := by
  induction l generalizing b with
  | nil =>
    cases h
    rfl
  | cons x l ih =>
    rw [List.foldlM_cons] at h
    obtain ⟨b₁, hb₁, hrest⟩ := bind_eq_ok_iff.mp h
    rw [ih hrest, hstep b x b₁ hb₁, List.foldl_cons]

/-- A counting loop. -/
theorem foldlM_range_ok {step : β → ℕ → Except ε β} {n : ℕ} {b : β} (I : ℕ → β → Prop)
    (h₀ : I 0 b) (hstep : ∀ k < n, ∀ c, I k c → ∃ c', step c k = .ok c' ∧ I (k + 1) c') :
    ∃ c, (List.range n).foldlM step b = .ok c ∧ I n c := by
  have := foldlM_ok step (List.range n) b (fun done => I done.length) h₀
    fun done x rest c hl hI => by
      have hlt : done.length < n := by
        have := congrArg List.length hl
        simp at this
        omega
      have hx : x = done.length := by
        have := congrArg (·[done.length]?) hl
        simpa [List.getElem?_range hlt] using this.symm
      rw [List.length_append, List.length_singleton]
      exact hx ▸ hstep x (hx ▸ hlt) c (hx ▸ hI)
  simpa using this

/-- `Q` holds of what the computation returns, and `E` of the error with which it ends. -/
structure Gives (E : ε → Prop) (Q : β → Prop) (x : Except ε β) : Prop where
  ok : ∀ b, x = .ok b → Q b
  error : ∀ e, x = .error e → E e

namespace Gives

variable {E : ε → Prop} {Q : β → Prop} {R : γ → Prop}

lemma of_ok {b : β} (h : Q b) : Gives E Q (.ok b) where
  ok _ hb := by
    cases hb
    exact h
  error _ he := by cases he

lemma of_error {e : ε} (h : E e) : Gives E Q (.error e) where
  ok _ hb := by cases hb
  error _ he := by
    cases he
    exact h

lemma bind {x : Except ε β} {f : β → Except ε γ} (h : Gives E Q x)
    (hf : ∀ b, Q b → Gives E R (f b)) : Gives E R (x.bind f) := by
  cases x with
  | ok b => exact hf b (h.ok b rfl)
  | error e => exact of_error (h.error e rfl)

/-- A loop over a list that may end with an error. -/
theorem foldlM {step : β → α → Except ε β} {l : List α} {b : β} (I : List α → β → Prop)
    (h₀ : I [] b)
    (hstep : ∀ done x rest c, l = done ++ x :: rest → I done c →
      Gives E (I (done ++ [x])) (step c x)) :
    Gives E (I l) (l.foldlM step b) := by
  suffices hgo : ∀ rest done c, l = done ++ rest → I done c →
      Gives E (I l) (rest.foldlM step c) from hgo l [] b rfl h₀
  intro rest
  induction rest with
  | nil =>
    intro done c hl hI
    rw [List.append_nil] at hl
    exact of_ok (hl ▸ hI)
  | cons x rest ih =>
    intro done c hl hI
    rw [List.foldlM_cons]
    exact (hstep done x rest c hl hI).bind fun c' hI' => ih (done ++ [x]) c' (by simp [hl]) hI'

end Gives

lemma mapM_eq_ok_iff {f : α → Except ε β} {l : List α} {r : List β} :
    l.mapM f = .ok r ↔ l.map f = r.map .ok := by
  induction l generalizing r with
  | nil =>
    rw [List.mapM_nil, List.map_nil, List.nil_eq, List.map_eq_nil_iff]
    exact ⟨fun h => (Except.ok.inj h).symm, fun h => congrArg Except.ok h.symm⟩
  | cons x l ih =>
    rw [List.mapM_cons, List.map_cons]
    cases hx : f x with
    | error e =>
      constructor
      · intro h
        cases h
      · cases r <;> rintro ⟨⟩
    | ok y =>
      have hrest : (Except.ok y >>= fun y => l.mapM f >>= fun ys => pure (y :: ys)) = .ok r ↔
          ∃ ys, l.mapM f = .ok ys ∧ y :: ys = r := by
        simp only [bind, Except.bind]
        cases l.mapM f <;> simp [pure, Except.pure]
      rw [hrest]
      constructor
      · rintro ⟨ys, hys, rfl⟩
        rw [ih.mp hys, List.map_cons]
      · intro h
        cases r with
        | nil => cases h
        | cons y' ys =>
          rw [List.map_cons, List.cons.injEq] at h
          exact ⟨ys, ih.mpr h.2, by rw [Except.ok.inj h.1]⟩

lemma exists_mapM_eq_ok {f : α → Except ε β} {l : List α} (h : ∀ x ∈ l, ∃ y, f x = .ok y) :
    ∃ r, l.mapM f = .ok r := by
  simp only [mapM_eq_ok_iff]
  induction l with
  | nil => exact ⟨[], rfl⟩
  | cons x l ih =>
    obtain ⟨y, hy⟩ := h x (.head _)
    obtain ⟨r, hr⟩ := ih fun z hz => h z (.tail _ hz)
    exact ⟨y :: r, by rw [List.map_cons, hy, hr, List.map_cons]⟩

end Loops

end Lachesis.Core
