import Mathlib.Algebra.Order.BigOperators.Group.Finset
import Mathlib.Tactic.Linarith

/-!
# Pruned walks over a graph

A walk keeps a stack of nodes. Popping a node changes a state and may push further nodes: the
node's successors when it is met for the first time, nothing when it is already marked. If the
marked set is closed under successors to begin with, pruning loses nothing: the walk ends with
exactly the closure of the initial stack marked on top of it, after at most one step for each node
on the stack and each edge.
-/

namespace Lachesis.Core

variable {κ σ ε : Type*}

/-- Walk until the stack is empty. The nodes `visit` asks for are pushed in order, so the last of
them is on top. The walk ends with `stuck` when more than the given number of nodes are popped. -/
def walk (stuck : ε) (visit : σ → κ → Except ε (σ × List κ)) : ℕ → List κ → σ → Except ε σ
  | _, [], s => .ok s
  | 0, _ :: _, _ => .error stuck
  | n + 1, x :: stack, s =>
    match visit s x with
    | .error e => .error e
    | .ok (s', push) => walk stuck visit n (push.reverse ++ stack) s'

variable {visit : σ → κ → Except ε (σ × List κ)} {stuck : ε}

/-- More steps than a walk needs change nothing. -/
lemma walk_add (k : ℕ) :
    ∀ {n : ℕ} {stack : List κ} {s s' : σ}, walk stuck visit n stack s = .ok s' →
      walk stuck visit (n + k) stack s = .ok s' := by
  intro n
  induction n with
  | zero =>
    intro stack s s' h
    cases stack with
    | nil => simpa [walk] using h
    | cons x stack => simp [walk] at h
  | succ n ih =>
    intro stack s s' h
    cases stack with
    | nil => simpa [walk] using h
    | cons x stack =>
      rw [Nat.add_right_comm]
      simp only [walk] at h ⊢
      cases hv : visit s x with
      | error e => simp [hv] at h
      | ok r =>
        simp only [hv] at h ⊢
        exact ih h

/-- What every visit keeps, the walk keeps. -/
lemma walk_keeps {I : σ → Prop} (hvisit : ∀ s x s' push, I s → visit s x = .ok (s', push) → I s')
    {n : ℕ} {stack : List κ} {s s' : σ} (h : walk stuck visit n stack s = .ok s') (hs : I s) :
    I s' := by
  induction n generalizing stack s with
  | zero =>
    cases stack with
    | nil =>
      cases h
      exact hs
    | cons => cases h
  | succ n ih =>
    cases stack with
    | nil =>
      cases h
      exact hs
    | cons x stack =>
      rw [walk] at h
      split at h
      · cases h
      · rename_i s₁ push hx
        exact ih h (hvisit s x s₁ push hs hx)

lemma walk_unique {n m : ℕ} {stack : List κ} {s s₁ s₂ : σ}
    (h₁ : walk stuck visit n stack s = .ok s₁) (h₂ : walk stuck visit m stack s = .ok s₂) :
    s₁ = s₂ := by
  have h := walk_add m h₁
  rw [Nat.add_comm, walk_add n h₂] at h
  exact (Except.ok.inj h).symm

/-- A walk depends only on the visits inside a closed set. -/
lemma walk_congr {visit' : σ → κ → Except ε (σ × List κ)} {D : Set κ}
    (hvisit : ∀ s, ∀ x ∈ D, visit' s x = visit s x)
    (hpush : ∀ s, ∀ x ∈ D, ∀ s' push, visit s x = .ok (s', push) → ∀ y ∈ push, y ∈ D) (n : ℕ)
    {stack : List κ} (hstack : ∀ x ∈ stack, x ∈ D) (s : σ) :
    walk stuck visit' n stack s = walk stuck visit n stack s := by
  induction n generalizing stack s with
  | zero => cases stack <;> rfl
  | succ n ih =>
    cases stack with
    | nil => rfl
    | cons x stack =>
      have hx := hstack x (by simp)
      simp only [walk, hvisit s x hx]
      cases hv : visit s x with
      | error => rfl
      | ok r =>
        refine ih (fun y hy => ?_) r.1
        rcases List.mem_append.mp hy with hy | hy
        · exact hpush s x hx r.1 r.2 hv y (List.mem_reverse.mp hy)
        · exact hstack y (List.mem_cons_of_mem x hy)

/-- `y` is `x` or is reached from `x` along `next`. -/
def Reach (next : κ → List κ) (x y : κ) : Prop :=
  Relation.ReflTransGen (fun a b => b ∈ next a) x y

open Classical in
/-- The number of nodes a walk may still push: the edges out of the unmarked nodes. -/
noncomputable def pending (next : κ → List κ) (D : Finset κ) (M : Set κ) : ℕ :=
  ∑ x ∈ D.filter (· ∉ M), (next x).length

open Classical in
lemma pending_insert (next : κ → List κ) {D : Finset κ} {M : Set κ} {x : κ} (hx : x ∈ D)
    (hxM : x ∉ M) : pending next D (insert x M) + (next x).length = pending next D M := by
  have hsplit : D.filter (· ∉ M) = insert x (D.filter (· ∉ insert x M)) := by
    ext y
    by_cases hyx : y = x
    · subst hyx; simp [hx, hxM]
    · simp [hyx]
  rw [pending, pending, hsplit, Finset.sum_insert (by simp), Nat.add_comm]
  congr!

open Classical in
lemma pending_le (next : κ → List κ) (D : Finset κ) (M : Set κ) :
    pending next D M ≤ ∑ x ∈ D, (next x).length :=
  Finset.sum_le_sum_of_subset (Finset.filter_subset _ _)

section Walk

variable (stuck) {next : κ → List κ} {D : Finset κ} (St : Set κ → σ → Prop)

variable (hD : ∀ x ∈ D, ∀ y ∈ next x, y ∈ D)
  (hold : ∀ M s x, x ∈ D → x ∈ M → St M s → ∃ s', visit s x = .ok (s', []) ∧ St M s')
  (hnew : ∀ M s x, x ∈ D → x ∉ M → St M s → ∃ s', visit s x = .ok (s', next x) ∧ St (insert x M) s')
include hD hold hnew

/-- The walk from any intermediate state: the new marks are the stack and are closed under
successors as far as they are new. -/
lemma walk_run :
    ∀ (n : ℕ) (stack : List κ) (M : Set κ) (s : σ), (∀ x ∈ stack, x ∈ D) → St M s →
      stack.length + pending next D M ≤ n →
      ∃ M' s', walk stuck visit n stack s = .ok s' ∧ St M' s' ∧ M ⊆ M' ∧ (∀ x ∈ stack, x ∈ M') ∧
        (∀ y ∈ M', y ∈ M ∨ ∃ x ∈ stack, Reach next x y) ∧
        (∀ m ∈ M', m ∉ M → ∀ y ∈ next m, y ∈ M') := by
  intro n
  induction n with
  | zero =>
    intro stack M s _ hs hn
    have hnil : stack = [] := List.length_eq_zero_iff.mp (by omega)
    subst hnil
    exact ⟨M, s, by simp [walk], hs, subset_rfl, by simp, fun y hy => Or.inl hy,
      fun m hm hm' => absurd hm hm'⟩
  | succ n ih =>
    intro stack M s hstack hs hn
    cases stack with
    | nil =>
      exact ⟨M, s, by simp [walk], hs, subset_rfl, by simp, fun y hy => Or.inl hy,
        fun m hm hm' => absurd hm hm'⟩
    | cons x stack =>
      have hx : x ∈ D := hstack x (by simp)
      have hrest : ∀ y ∈ stack, y ∈ D := fun y hy => hstack y (by simp [hy])
      simp only [List.length_cons] at hn
      by_cases hxM : x ∈ M
      · obtain ⟨s₁, hv, hs₁⟩ := hold M s x hx hxM hs
        obtain ⟨M', s', hw, hs', hsub, hin, hout, hcl⟩ := ih stack M s₁ hrest hs₁ (by omega)
        refine ⟨M', s', by simp [walk, hv, hw], hs', hsub, ?_, ?_, hcl⟩
        · intro y hy
          rcases List.mem_cons.mp hy with rfl | hy
          · exact hsub hxM
          · exact hin y hy
        · intro y hy
          exact (hout y hy).imp_right fun ⟨z, hz, hzy⟩ => ⟨z, by simp [hz], hzy⟩
      · obtain ⟨s₁, hv, hs₁⟩ := hnew M s x hx hxM hs
        have hpend := pending_insert next hx hxM
        have hpush : ∀ y ∈ (next x).reverse ++ stack, y ∈ D := by
          intro y hy
          rcases List.mem_append.mp hy with hy | hy
          · exact hD x hx y (List.mem_reverse.mp hy)
          · exact hrest y hy
        obtain ⟨M', s', hw, hs', hsub, hin, hout, hcl⟩ :=
          ih ((next x).reverse ++ stack) (insert x M) s₁ hpush hs₁
            (by simp only [List.length_append, List.length_reverse]; omega)
        have hxM' : x ∈ M' := hsub (Set.mem_insert x M)
        refine ⟨M', s', by simp [walk, hv, hw], hs', (Set.subset_insert x M).trans hsub, ?_, ?_, ?_⟩
        · intro y hy
          rcases List.mem_cons.mp hy with rfl | hy
          · exact hxM'
          · exact hin y (by simp [hy])
        · intro y hy
          rcases hout y hy with hy | ⟨z, hz, hzy⟩
          · rcases Set.mem_insert_iff.mp hy with rfl | hy
            · exact Or.inr ⟨y, by simp, Relation.ReflTransGen.refl⟩
            · exact Or.inl hy
          · rcases List.mem_append.mp hz with hz | hz
            · exact Or.inr ⟨x, by simp,
                Relation.ReflTransGen.head (List.mem_reverse.mp hz) hzy⟩
            · exact Or.inr ⟨z, by simp [hz], hzy⟩
        · intro m hm hmM y hy
          by_cases hmx : m = x
          · subst hmx
            exact hin y (by simp [hy])
          · exact hcl m hm (by simp [hmx, hmM]) y hy

/-- A walk whose marks `M` are closed under successors terminates and marks, besides `M`, exactly
what the stack reaches. -/
theorem walk_marks {n : ℕ} (stack : List κ) {M : Set κ} {s : σ} (hstack : ∀ x ∈ stack, x ∈ D)
    (hclosed : ∀ x ∈ M, ∀ y ∈ next x, y ∈ M) (hs : St M s)
    (hn : stack.length + ∑ x ∈ D, (next x).length ≤ n) :
    ∃ s', walk stuck visit n stack s = .ok s' ∧
      St (M ∪ {y | ∃ x ∈ stack, Reach next x y}) s' := by
  have hpend := pending_le next D M
  obtain ⟨M', s', hw, hs', hsub, hin, hout, hcl⟩ :=
    walk_run stuck St hD hold hnew n stack M s hstack hs (by omega)
  have hstep : ∀ m ∈ M', ∀ y ∈ next m, y ∈ M' := by
    intro m hm y hy
    by_cases hmM : m ∈ M
    · exact hsub (hclosed m hmM y hy)
    · exact hcl m hm hmM y hy
  have heq : M' = M ∪ {y | ∃ x ∈ stack, Reach next x y} := by
    apply Set.Subset.antisymm
    · intro y hy
      exact hout y hy
    · rintro y (hy | ⟨x, hx, hxy⟩)
      · exact hsub hy
      · induction hxy with
        | refl => exact hin x hx
        | tail _ hyz ih => exact hstep _ ih _ hyz
  exact ⟨s', hw, heq ▸ hs'⟩

end Walk

end Lachesis.Core
