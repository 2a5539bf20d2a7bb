import Mathlib.Algebra.BigOperators.Ring.Finset
import Mathlib.Algebra.Order.BigOperators.Group.Finset
import Mathlib.Tactic.Linarith

/-!
# Weighted quorums

A finite set of voters carries natural weights. A quorum is a set of weight at least `q`; when
`q` exceeds two thirds of the whole, any two quorums share more than a third of it, and whatever
avoids a quorum is outweighed inside every other one. A weighted median stays between the values of
those who outweigh the others.
-/

namespace Lachesis.Core

variable {α : Type*}

def weight (w : α → ℕ) (s : Finset α) : ℕ := ∑ v ∈ s, w v

variable {s t : Finset α}

lemma weight_mono (w : α → ℕ) (h : s ⊆ t) : weight w s ≤ weight w t :=
  Finset.sum_le_sum_of_subset h

@[simp] lemma weight_empty (w : α → ℕ) : weight w ∅ = 0 := by simp [weight]

variable [DecidableEq α]

lemma weight_union_add_inter (w : α → ℕ) (s t : Finset α) :
    weight w (s ∪ t) + weight w (s ∩ t) = weight w s + weight w t :=
  Finset.sum_union_inter

lemma weight_union_of_disjoint (w : α → ℕ) (h : Disjoint s t) :
    weight w (s ∪ t) = weight w s + weight w t :=
  Finset.sum_union h

variable {w : α → ℕ} {V : Finset α}

/-- Two sets of weight at least `q` share at least `2q` minus the whole. -/
theorem two_mul_le_weight_inter_add {q : ℕ} (hs : s ⊆ V) (ht : t ⊆ V) (hqs : q ≤ weight w s)
    (hqt : q ≤ weight w t) : 2 * q ≤ weight w (s ∩ t) + weight w V := by
  have hu : weight w (s ∪ t) ≤ weight w V := weight_mono w (Finset.union_subset hs ht)
  have hui := weight_union_add_inter w s t
  omega

lemma weight_add_le_of_disjoint (hs : s ⊆ V) (ht : t ⊆ V) (h : Disjoint s t) :
    weight w s + weight w t ≤ weight w V := by
  rw [← weight_union_of_disjoint w h]
  exact weight_mono w (Finset.union_subset hs ht)

/-- Inside a quorum split into `s` and `t`, the part `t` that avoids some quorum `u` is strictly
outweighed by `s`. -/
theorem weight_lt_of_disjoint_quorum {u : Finset α} {q : ℕ} (h3 : 2 * weight w V < 3 * q)
    (ht : t ⊆ V) (hu : u ⊆ V) (hq : q ≤ weight w s + weight w t) (hqu : q ≤ weight w u)
    (hd : Disjoint t u) : weight w t < weight w s := by
  have := weight_add_le_of_disjoint (w := w) ht hu hd
  omega

omit [DecidableEq α] in
/-- Double counting: if every chooser of `O` leaves out at most weight `k` of the candidates, some
candidate is left out by choosers of weight at most `k`. -/
theorem exists_weight_leftOut_le {O : Finset α} {k : ℕ} (hO : O ⊆ V) (hpos : 0 < weight w V)
    (chosen : α → α → Prop) [∀ o v, Decidable (chosen o v)]
    (h : ∀ o ∈ O, weight w (V.filter fun v => ¬ chosen o v) ≤ k) :
    ∃ v ∈ V, weight w (O.filter fun o => ¬ chosen o v) ≤ k := by
  by_contra hne
  push Not at hne
  -- both sides sum `w o * w v` over the pairs that leave each other out
  have hswap : ∑ v ∈ V, w v * weight w (O.filter fun o => ¬ chosen o v)
      = ∑ o ∈ O, w o * weight w (V.filter fun v => ¬ chosen o v) := by
    simp only [weight, Finset.mul_sum, Finset.sum_filter]
    rw [Finset.sum_comm]
    refine Finset.sum_congr rfl fun o _ => Finset.sum_congr rfl fun v _ => ?_
    split_ifs <;> simp [Nat.mul_comm]
  have hle : ∑ o ∈ O, w o * weight w (V.filter fun v => ¬ chosen o v) ≤ weight w V * k := by
    calc ∑ o ∈ O, w o * weight w (V.filter fun v => ¬ chosen o v)
        ≤ ∑ o ∈ O, w o * k := Finset.sum_le_sum fun o ho => Nat.mul_le_mul_left _ (h o ho)
      _ = weight w O * k := by rw [weight, Finset.sum_mul]
      _ ≤ weight w V * k := Nat.mul_le_mul_right _ (weight_mono w hO)
  have hge : weight w V * (k + 1) ≤ ∑ v ∈ V, w v * weight w (O.filter fun o => ¬ chosen o v) := by
    rw [weight, Finset.sum_mul]
    exact Finset.sum_le_sum fun v hv => Nat.mul_le_mul_left _ (hne v hv)
  rw [hswap] at hge
  have hlt : weight w V * k < weight w V * (k + 1) := by
    rw [Nat.mul_succ]
    omega
  omega

/-! ### Medians -/

section Median

variable {β τ : Type*} [LinearOrder τ] {w : β → ℕ} {value : β → τ} {half : ℕ} {l : List β} {m : β}

/-- The weights of the list reach `half` at `m`. -/
def ReachesAt (w : β → ℕ) (half : ℕ) (l : List β) (m : β) : Prop :=
  ∃ l₁ l₂, l = l₁ ++ m :: l₂ ∧ (l₁ = [] ∨ (l₁.map w).sum < half) ∧
    half ≤ (l₁.map w).sum + w m

lemma sum_map_le_of_sublist {l l' : List β} (h : l.Sublist l') (w : β → ℕ) :
    (l.map w).sum ≤ (l'.map w).sum :=
  (h.map w).sum_le_sum fun _ _ => Nat.zero_le _

/-- If the others do not reach `half` alone, one of the chosen is not above the median. -/
theorem exists_value_le (hsorted : l.Pairwise fun a b => value a ≤ value b)
    (h : ReachesAt w half l m) (chosen : β → Prop) [DecidablePred chosen]
    (hothers : ((l.filter (¬ chosen ·)).map w).sum < half ∨ ∀ b ∈ l, chosen b) :
    ∃ b ∈ l, chosen b ∧ value b ≤ value m := by
  obtain ⟨l₁, l₂, rfl, -, hreach⟩ := h
  rcases hothers with hothers | hall
  · by_contra hno
    push Not at hno
    -- all up to the median are others
    have hle : ∀ b ∈ l₁ ++ [m], value b ≤ value m := by
      intro b hb
      rcases List.mem_append.mp hb with hb | hb
      · exact (List.pairwise_append.mp hsorted).2.2 b hb m (by simp)
      · rw [List.mem_singleton.mp hb]
    have hfilter : (l₁ ++ [m]).filter (¬ chosen ·) = l₁ ++ [m] := by
      refine List.filter_eq_self.mpr fun b hb => ?_
      have hmem : b ∈ l₁ ++ m :: l₂ := by
        rw [List.append_cons]
        exact List.mem_append_left _ hb
      exact decide_eq_true fun hc => absurd (hle b hb) (not_le.mpr (hno b hmem hc))
    have hsum := sum_map_le_of_sublist
      (((List.sublist_append_left (l₁ ++ [m]) l₂)).filter (¬ chosen ·)) w
    rw [hfilter, List.append_assoc] at hsum
    simp only [List.map_append, List.map_cons, List.map_nil, List.sum_append, List.sum_cons,
      List.sum_nil, List.singleton_append] at hsum hothers
    omega
  · exact ⟨m, by simp, hall m (by simp), le_rfl⟩

/-- If the chosen reach `half` alone, one of them is not below the median. -/
theorem exists_le_value (hsorted : l.Pairwise fun a b => value a ≤ value b)
    (h : ReachesAt w half l m) (chosen : β → Prop) [DecidablePred chosen]
    (hchosen : half ≤ ((l.filter chosen).map w).sum) (hex : ∃ b ∈ l, chosen b) :
    ∃ b ∈ l, chosen b ∧ value m ≤ value b := by
  obtain ⟨l₁, l₂, rfl, hfirst, -⟩ := h
  by_contra hno
  push Not at hno
  -- from the median on, all are others
  have hge : ∀ b ∈ m :: l₂, value m ≤ value b := by
    intro b hb
    rcases List.mem_cons.mp hb with rfl | hb
    · exact le_rfl
    · exact (List.pairwise_cons.mp (List.pairwise_append.mp hsorted).2.1).1 b hb
  have hnot : ∀ b ∈ m :: l₂, ¬ chosen b := fun b hb hc =>
    absurd (hge b hb) (not_le.mpr (hno b (List.mem_append_right _ hb) hc))
  rcases hfirst with rfl | hlt
  · obtain ⟨b, hb, hc⟩ := hex
    exact hnot b hb hc
  · have hfilter : (m :: l₂).filter chosen = [] :=
      List.filter_eq_nil_iff.mpr fun b hb => by simpa using hnot b hb
    rw [List.filter_append, hfilter, List.append_nil] at hchosen
    have hsum := sum_map_le_of_sublist (List.filter_sublist (p := chosen) (l := l₁)) w
    omega

end Median

end Lachesis.Core
