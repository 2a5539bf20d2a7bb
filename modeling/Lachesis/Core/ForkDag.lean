import Lachesis.Core.Quorum

/-!
# Graphs of self-chained nodes

Every node of the graph has a creator, a number in its creator's chain and parents, one of which
may be its self-parent: the previous node of the same creator. A creator forks when two different
nodes of its have one number. A node `a` is forkless caused by `b` when `a` sees no fork of `b`'s
creator and sees, from creators of a quorum of weight whose forks it does not see, nodes that see
`b`.

The main result is that causes of two branches of one fork cost the weight of a quorum
intersection in forking creators.
-/

namespace Lachesis.Core

/-- A graph of nodes chained by their creators. -/
structure ForkDag (ε α : Type*) where
  parents : ε → List ε
  creator : ε → α
  seq : ε → ℕ
  selfParent : ε → Option ε

namespace ForkDag

variable {ε α : Type*} (G : ForkDag ε α)

/-- `b` is `a` or an ancestor of `a`. -/
def Sees (a b : ε) : Prop := Relation.ReflTransGen (fun x y => y ∈ G.parents x) a b

/-- `b` is reached from `a` through self-parents. -/
def SelfSees (a b : ε) : Prop := Relation.ReflTransGen (fun x y => G.selfParent x = some y) a b

/-- Two different nodes of one creator with one number. -/
def Fork (x y : ε) : Prop := x ≠ y ∧ G.creator x = G.creator y ∧ G.seq x = G.seq y

/-- `a` sees a fork of the creator `v`. -/
def SeesFork (a : ε) (v : α) : Prop :=
  ∃ x y, G.Sees a x ∧ G.Sees a y ∧ G.creator x = v ∧ G.Fork x y

/-- The creator `v` has a fork among the nodes of `D`. -/
def Forks (D : Set ε) (v : α) : Prop := ∃ x ∈ D, ∃ y ∈ D, G.creator x = v ∧ G.Fork x y

/-- `v` lets `a` know about `b`: a node of `v` that `a` sees has seen `b`, and `a` sees no fork of
`v`. -/
def Relays (a b : ε) (v : α) : Prop :=
  ¬ G.SeesFork a v ∧ ∃ y, G.Sees a y ∧ G.creator y = v ∧ G.Sees y b

open Classical in
/-- The creators among `V` that let `a` know about `b`. -/
noncomputable def relayers (V : Finset α) (a b : ε) : Finset α := V.filter (G.Relays a b)

/-- `a` is forkless caused by `b`. -/
def ForklessCause (V : Finset α) (w : α → ℕ) (q : ℕ) (a b : ε) : Prop :=
  ¬ G.SeesFork a (G.creator b) ∧ q ≤ weight w (G.relayers V a b)

/-- The laws of the chains, on a set of nodes closed under parents. -/
structure Valid (D : Set ε) : Prop where
  parents_mem : ∀ x ∈ D, ∀ y ∈ G.parents x, y ∈ D
  selfParent_mem : ∀ x ∈ D, ∀ y, G.selfParent x = some y → y ∈ G.parents x
  selfParent_creator : ∀ x ∈ D, ∀ y, G.selfParent x = some y → G.creator y = G.creator x
  selfParent_seq : ∀ x ∈ D, ∀ y, G.selfParent x = some y → G.seq x = G.seq y + 1
  selfParent_isSome : ∀ x ∈ D, 1 < G.seq x → (G.selfParent x).isSome
  seq_pos : ∀ x ∈ D, 0 < G.seq x

variable {G}

lemma Sees.refl (a : ε) : G.Sees a a := Relation.ReflTransGen.refl

variable {a b : ε}

lemma Sees.trans {c : ε} (hab : G.Sees a b) (hbc : G.Sees b c) : G.Sees a c :=
  Relation.ReflTransGen.trans hab hbc

lemma Sees.of_mem_parents (h : b ∈ G.parents a) : G.Sees a b :=
  Relation.ReflTransGen.single h

lemma SelfSees.refl (a : ε) : G.SelfSees a a := Relation.ReflTransGen.refl

lemma sees_iff : G.Sees a b ↔ b = a ∨ ∃ p ∈ G.parents a, G.Sees p b := by
  constructor
  · intro h
    rcases Relation.ReflTransGen.cases_head h with rfl | ⟨p, hp, hpb⟩
    · exact Or.inl rfl
    · exact Or.inr ⟨p, hp, hpb⟩
  · rintro (rfl | ⟨p, hp, hpb⟩)
    · exact Sees.refl _
    · exact (Sees.of_mem_parents hp).trans hpb

instance [DecidableEq ε] [DecidableEq α] (D : Finset ε) : DecidablePred (G.Forks D) := fun v =>
  decidable_of_iff (∃ x ∈ D, ∃ y ∈ D, G.creator x = v ∧
    x ≠ y ∧ G.creator x = G.creator y ∧ G.seq x = G.seq y) Iff.rfl

/-- Graphs with the same parents on a set closed under parents show the same ancestors there. -/
lemma sees_congr {G' : ForkDag ε α} {D : Set ε} (hcl : ∀ x ∈ D, ∀ y ∈ G.parents x, y ∈ D)
    (h : ∀ x ∈ D, G'.parents x = G.parents x) (ha : a ∈ D) : G'.Sees a b ↔ G.Sees a b := by
  constructor
  · intro hab
    induction hab using Relation.ReflTransGen.head_induction_on with
    | refl => exact .refl _
    | head hp _ ih =>
      rw [h _ ha] at hp
      exact (Sees.of_mem_parents hp).trans (ih (hcl _ ha _ hp))
  · intro hab
    induction hab using Relation.ReflTransGen.head_induction_on with
    | refl => exact .refl _
    | head hp _ ih =>
      have hp' := hp
      rw [← h _ ha] at hp'
      exact (Sees.of_mem_parents hp').trans (ih (hcl _ ha _ hp))

lemma SeesFork.mono {v : α} (hab : G.Sees a b) (h : G.SeesFork b v) : G.SeesFork a v := by
  obtain ⟨x, y, hx, hy, hv, hf⟩ := h
  exact ⟨x, y, hab.trans hx, hab.trans hy, hv, hf⟩

/-! ### Twins -/

/-- Two nodes of one creator with one number and the same parents, in `S`, where they are not. -/
structure Twins (G : ForkDag ε α) (S : Set ε) (x y : ε) : Prop where
  closed : ∀ u ∈ S, ∀ v ∈ G.parents u, v ∈ S
  parents_mem : ∀ v ∈ G.parents x, v ∈ S
  parents : G.parents y = G.parents x
  creator : G.creator y = G.creator x
  seq : G.seq y = G.seq x
  left : x ∉ S
  right : y ∉ S

namespace Twins

variable {S : Set ε} {x y : ε}

variable (h : G.Twins S x y)
include h

lemma symm : G.Twins S y x :=
  ⟨h.closed, h.parents ▸ h.parents_mem, h.parents.symm, h.creator.symm, h.seq.symm, h.right, h.left⟩

lemma sees {u : ε} (hu : G.Sees x u) : u = x ∨ u ∈ S ∧ G.Sees y u := by
  rcases sees_iff.mp hu with rfl | ⟨p, hp, hpu⟩
  · exact Or.inl rfl
  · refine Or.inr ⟨?_, (Sees.of_mem_parents (by rwa [h.parents])).trans hpu⟩
    have hpS := h.parents_mem p hp
    clear hp hu
    induction hpu with
    | refl => exact hpS
    | tail _ hq ih => exact h.closed _ ih _ hq

lemma seesFork {v : α} (hx : G.SeesFork x v) : G.SeesFork y v := by
  obtain ⟨a, b, ha, hb, rfl, hne, hcreator, hseq⟩ := hx
  rcases h.sees ha with rfl | ⟨haS, hya⟩ <;> rcases h.sees hb with rfl | ⟨hbS, hyb⟩
  · exact absurd rfl hne
  · exact ⟨y, b, .refl y, hyb, h.creator, fun heq => h.right (heq ▸ hbS),
      h.creator.trans hcreator, h.seq.trans hseq⟩
  · exact ⟨a, y, hya, .refl y, rfl, fun heq => h.right (heq ▸ haS),
      hcreator.trans h.creator.symm, hseq.trans h.seq.symm⟩
  · exact ⟨a, b, hya, hyb, rfl, hne, hcreator, hseq⟩

lemma relays (hb : b ∈ S) {v : α} (hx : G.Relays x b v) : G.Relays y b v := by
  obtain ⟨hfork, u, hu, hcreator, hub⟩ := hx
  refine ⟨fun hy => hfork (h.symm.seesFork hy), ?_⟩
  rcases h.sees hu with rfl | ⟨-, hu⟩
  · rcases h.sees hub with rfl | ⟨-, hyb⟩
    · exact absurd hb h.left
    · exact ⟨y, .refl y, h.creator.trans hcreator, hyb⟩
  · exact ⟨u, hu, hcreator, hub⟩

lemma seesFork_iff {v : α} : G.SeesFork y v ↔ G.SeesFork x v :=
  ⟨h.symm.seesFork, h.seesFork⟩

lemma relayers_eq (V : Finset α) (hb : b ∈ S) : G.relayers V y b = G.relayers V x b := by
  classical
  exact Finset.filter_congr fun v _ => ⟨h.symm.relays hb, h.relays hb⟩

end Twins

open Classical in
lemma relayers_subset (V : Finset α) (a b : ε) : G.relayers V a b ⊆ V := Finset.filter_subset _ _

section Valid

variable {D : Set ε} (hD : G.Valid D)
include hD

lemma Valid.sees_mem (ha : a ∈ D) (h : G.Sees a b) : b ∈ D := by
  induction h with
  | refl => exact ha
  | tail _ hp ih => exact hD.parents_mem _ ih _ hp

lemma Valid.selfSees_sees (ha : a ∈ D) (h : G.SelfSees a b) : G.Sees a b := by
  induction h with
  | refl => exact Sees.refl a
  | tail _ hs ih =>
    exact ih.trans (Sees.of_mem_parents (hD.selfParent_mem _ (hD.sees_mem ha ih) _ hs))

lemma Valid.selfSees_creator (ha : a ∈ D) (h : G.SelfSees a b) : G.creator b = G.creator a := by
  induction h with
  | refl => rfl
  | tail h₀ hs ih =>
    rw [hD.selfParent_creator _ (hD.sees_mem ha (hD.selfSees_sees ha h₀)) _ hs, ih]

/-- Every number up to a node's own occurs in its chain. -/
lemma Valid.exists_selfSees_seq (ha : a ∈ D) {k : ℕ} (hk : 0 < k) (hka : k ≤ G.seq a) :
    ∃ b, G.SelfSees a b ∧ G.seq b = k := by
  obtain ⟨d, hd⟩ := Nat.exists_eq_add_of_le hka
  induction d generalizing a with
  | zero => exact ⟨a, SelfSees.refl a, by omega⟩
  | succ d ih =>
    obtain ⟨p, hp⟩ := Option.isSome_iff_exists.mp (hD.selfParent_isSome a ha (by omega))
    have hseq := hD.selfParent_seq a ha p hp
    have hpD := hD.parents_mem a ha p (hD.selfParent_mem a ha p hp)
    obtain ⟨b, hb, hbk⟩ := ih hpD (by omega) (by omega)
    exact ⟨b, Relation.ReflTransGen.head hp hb, hbk⟩

/-- Two nodes of one creator of which none is in the chain of the other show a fork of that
creator to whoever sees both. -/
lemma Valid.seesFork_of_not_selfSees {x y : ε} (ha : a ∈ D) (hx : G.Sees a x) (hy : G.Sees a y)
    (hc : G.creator x = G.creator y) (hxy : ¬ G.SelfSees x y) (hyx : ¬ G.SelfSees y x) :
    G.SeesFork a (G.creator x) := by
  wlog hle : G.seq x ≤ G.seq y generalizing x y
  · rw [hc]
    exact this hy hx hc.symm hyx hxy (by omega)
  have hxD := hD.sees_mem ha hx
  have hyD := hD.sees_mem ha hy
  -- the node of `y`'s chain numbered as `x` is the other half of the fork
  obtain ⟨z, hz, hzs⟩ := hD.exists_selfSees_seq hyD (hD.seq_pos x hxD) hle
  refine ⟨x, z, hx, hy.trans (hD.selfSees_sees hyD hz), rfl, ?_, ?_, hzs.symm⟩
  · rintro rfl
    exact hyx hz
  · rw [hD.selfSees_creator hyD hz, hc]

section

variable {x y : ε} (hx : x ∈ D) (hy : y ∈ D) (hc : G.creator x = G.creator y)
  (hle : G.seq x ≤ G.seq y) (hf : ¬ G.Forks D (G.creator x))
include hx hy hc hle hf

lemma Valid.selfSees_of_not_forks :
    G.SelfSees y x := by
  obtain ⟨z, hz, hzs⟩ := hD.exists_selfSees_seq hy (hD.seq_pos x hx) hle
  have hzD := hD.sees_mem hy (hD.selfSees_sees hy hz)
  have hzc : G.creator x = G.creator z := by rw [hD.selfSees_creator hy hz, hc]
  have hxz : x = z := by
    by_contra hne
    exact hf ⟨x, hx, z, hzD, rfl, hne, hzc, hzs.symm⟩
  exact hxz ▸ hz

/-- A set closed under parents that has a node of a creator without forks has those with smaller
numbers, too. -/
lemma Valid.mem_of_seq_le {M : Set ε} (hM : G.Valid M) (hyM : y ∈ M) : x ∈ M :=
  hM.sees_mem hyM (hD.selfSees_sees hy (hD.selfSees_of_not_forks hx hy hc hle hf))

end

variable {a₁ a₂ b₁ b₂ : ε} (ha₁ : a₁ ∈ D) (ha₂ : a₂ ∈ D) (hc : G.creator b₁ = G.creator b₂)
  (h₁₂ : ¬ G.SelfSees b₁ b₂) (h₂₁ : ¬ G.SelfSees b₂ b₁)
include ha₁ ha₂ hc h₁₂ h₂₁

/-- A creator that relays both sides of a fork has itself forked: a single chain of its would have
shown the fork to one of the two observers. -/
lemma Valid.forks_of_relays {v : α} (hf₁ : ¬ G.SeesFork a₁ (G.creator b₁))
    (hf₂ : ¬ G.SeesFork a₂ (G.creator b₂))
    (hv₁ : G.Relays a₁ b₁ v) (hv₂ : G.Relays a₂ b₂ v) : G.Forks D v := by
  by_contra hv
  obtain ⟨-, y₁, hy₁, hyv₁, hyb₁⟩ := hv₁
  obtain ⟨-, y₂, hy₂, hyv₂, hyb₂⟩ := hv₂
  have hy₁D := hD.sees_mem ha₁ hy₁
  have hy₂D := hD.sees_mem ha₂ hy₂
  rcases le_total (G.seq y₁) (G.seq y₂) with hle | hle
  · have hchain := hD.selfSees_sees hy₂D
      (hD.selfSees_of_not_forks hy₁D hy₂D (hyv₁.trans hyv₂.symm) hle (hyv₁ ▸ hv))
    have := hD.seesFork_of_not_selfSees ha₂ (hy₂.trans (hchain.trans hyb₁)) (hy₂.trans hyb₂)
      hc h₁₂ h₂₁
    exact hf₂ (hc ▸ this)
  · have hchain := hD.selfSees_sees hy₁D
      (hD.selfSees_of_not_forks hy₂D hy₁D (hyv₂.trans hyv₁.symm) hle (hyv₂ ▸ hv))
    exact hf₁ (hD.seesFork_of_not_selfSees ha₁ (hy₁.trans hyb₁) (hy₁.trans (hchain.trans hyb₂))
      hc h₁₂ h₂₁)

/-- If both sides of a fork forkless cause something, the forking creators weigh at least a quorum
intersection. -/
theorem Valid.two_mul_le_weight_forks [DecidablePred (G.Forks D)] {V : Finset α} {w : α → ℕ} {q : ℕ}
    (h₁ : G.ForklessCause V w q a₁ b₁) (h₂ : G.ForklessCause V w q a₂ b₂) :
    2 * q ≤ weight w (V.filter (G.Forks D)) + weight w V := by
  classical
  have hinter := two_mul_le_weight_inter_add (relayers_subset V a₁ b₁) (relayers_subset V a₂ b₂)
    h₁.2 h₂.2
  have hforks : G.relayers V a₁ b₁ ∩ G.relayers V a₂ b₂ ⊆ V.filter (G.Forks D) := by
    intro v hv
    obtain ⟨hv₁, hv₂⟩ := Finset.mem_inter.mp hv
    obtain ⟨hvV, hr₁⟩ := Finset.mem_filter.mp hv₁
    exact Finset.mem_filter.mpr ⟨hvV, hD.forks_of_relays ha₁ ha₂ hc h₁₂ h₂₁ h₁.1 h₂.1 hr₁
      (Finset.mem_filter.mp hv₂).2⟩
  have := weight_mono w hforks
  omega

end Valid

end ForkDag

end Lachesis.Core
