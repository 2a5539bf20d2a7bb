import Lachesis.Gossip.Sealing
import Lachesis.Poset.Blocks

/-!
# The last confirmed headers

The service keeps the last confirmed header of each validator of an epoch: it overwrites the record
when an event is confirmed that has no depth below what the atropos sees of its creator. The next
epoch begins to count gas power from these records. When an epoch is sealed, the records of the
cheaters are deleted, and so are those of the epoch before.

The events of a frame are confirmed in the order of a depth-first walk. For a validator without
forks the record is still that of its confirmed event with the greatest number, after every frame.
-/

namespace Lachesis

open Lachesis.Core Std

/-! ### The table -/

/-- The key of a last header. -/
@[ext]
structure HeaderKey where
  epoch : ℕ
  creator : StakerID
  deriving DecidableEq, Repr

namespace HeaderKey

instance : Ord HeaderKey := ⟨compareLex (compareOn epoch) (compareOn creator)⟩

instance : TransOrd HeaderKey :=
  inferInstanceAs (TransCmp (compareLex (compareOn epoch) (compareOn creator)))

instance : LawfulEqOrd HeaderKey where
  eq_of_compare {a b} h := by
    have h' : compareLex (compareOn epoch) (compareOn creator) a b = .eq := h
    simp only [compareLex_eq_eq, compareOn, Std.compare_eq_iff_eq] at h'
    exact HeaderKey.ext h'.1 h'.2

end HeaderKey

/-- The table `LastEpochHeaders`. -/
abbrev LastHeaders := ExtTreeMap HeaderKey Event

namespace LastHeaders

variable (t : LastHeaders) (k : HeaderKey)

/-- `Store.DelLastHeader` -/
def delLastHeader (epoch : ℕ) (creator : StakerID) : LastHeaders := t.erase ⟨epoch, creator⟩

/-- `Store.DelLastHeaders`: the keys are collected first. -/
def delLastHeaders (epoch : ℕ) : LastHeaders :=
  (t.keys.filter (·.epoch = epoch)).foldl (fun t key => t.erase key) t

/-- `Store.AddLastHeader` -/
def addLastHeader (epoch : ℕ) (header : Event) : LastHeaders :=
  t.insert ⟨epoch, header.creator⟩ header

/-- `Store.GetLastHeaders` -/
def getLastHeaders (epoch : ℕ) : ExtTreeMap StakerID Event :=
  (t.toList.filter (·.1.epoch = epoch)).foldl (fun hh kv => hh.insert kv.1.creator kv.2) ∅

/-- `Service.onEpochSealed`, in the epoch of the engine. -/
def onEpochSealed (epoch : ℕ) (cheaters : List StakerID) : LastHeaders :=
  (cheaters.foldl (fun t cheater => t.delLastHeader epoch cheater) t).delLastHeaders (epoch - 1)

/-- `Service.onEventConfirmed`, the part that tracks last headers. -/
def onEventConfirmed (header : Event) (seqDepth : ℕ) : LastHeaders :=
  if seqDepth = 0 then t.addLastHeader header.epoch header else t

lemma getElem?_addLastHeader (epoch : ℕ) (header : Event) :
    (t.addLastHeader epoch header)[k]? =
      if k = ⟨epoch, header.creator⟩ then some header else t[k]? := by
  simp only [addLastHeader, ExtTreeMap.getElem?_insert, LawfulEqCmp.compare_eq_iff_eq,
    eq_comm (a := k)]

lemma getElem?_foldl_erase (keys : List HeaderKey) :
    (keys.foldl (fun t key => t.erase key) t)[k]? = if k ∈ keys then none else t[k]? := by
  induction keys generalizing t with
  | nil => simp
  | cons key keys ih =>
    rw [List.foldl_cons, ih, ExtTreeMap.getElem?_erase]
    by_cases hk : k = key
    · simp [hk]
    · simp [hk, LawfulEqCmp.compare_eq_iff_eq, Ne.symm hk]

lemma getElem?_delLastHeaders (epoch : ℕ) :
    (t.delLastHeaders epoch)[k]? = if k.epoch = epoch then none else t[k]? := by
  rw [delLastHeaders, getElem?_foldl_erase]
  by_cases hmem : k ∈ t
  · simp [hmem]
  · simp [hmem]

lemma getElem?_foldl_delLastHeader (epoch : ℕ) (cheaters : List StakerID) :
    (cheaters.foldl (fun t cheater => t.delLastHeader epoch cheater) t)[k]? =
      if k.epoch = epoch ∧ k.creator ∈ cheaters then none else t[k]? := by
  have hmem : k ∈ cheaters.map (HeaderKey.mk epoch) ↔ k.epoch = epoch ∧ k.creator ∈ cheaters := by
    simp [HeaderKey.ext_iff, and_comm, eq_comm]
  simp only [delLastHeader, ← hmem, ← getElem?_foldl_erase, List.foldl_map]

lemma getElem?_onEpochSealed (epoch : ℕ) (cheaters : List StakerID) :
    (t.onEpochSealed epoch cheaters)[k]? =
      if k.epoch = epoch - 1 ∨ k.epoch = epoch ∧ k.creator ∈ cheaters then none else t[k]? := by
  rw [onEpochSealed, getElem?_delLastHeaders, getElem?_foldl_delLastHeader]
  by_cases hold : k.epoch = epoch - 1
  · simp only [hold, if_true, true_or]
  · simp only [hold, if_false, false_or]

lemma getElem?_foldl_insert (epoch : ℕ) {l : List (HeaderKey × Event)}
    (hepoch : ∀ kv ∈ l, kv.1.epoch = epoch) (hkeys : l.Pairwise fun a b => a.1 ≠ b.1)
    (hh : ExtTreeMap StakerID Event) (u : StakerID) (e : Event) :
    (l.foldl (fun hh kv => hh.insert kv.1.creator kv.2) hh)[u]? = some e ↔
      (⟨epoch, u⟩, e) ∈ l ∨ (∀ kv ∈ l, kv.1 ≠ ⟨epoch, u⟩) ∧ hh[u]? = some e := by
  induction l generalizing hh with
  | nil => simp
  | cons kv l ih =>
    obtain ⟨hhead, hrest⟩ := List.pairwise_cons.mp hkeys
    obtain ⟨hkv, hepoch⟩ := List.forall_mem_cons.mp hepoch
    rw [List.foldl_cons, ih hepoch hrest, ExtTreeMap.getElem?_insert, List.forall_mem_cons]
    by_cases hkey : kv.1 = ⟨epoch, u⟩
    · rw [hkey] at hhead
      have hnot : (⟨epoch, u⟩, e) ∉ l := fun hmem => hhead _ hmem rfl
      simp only [hkey, hnot, Prod.ext_iff, eq_comm (a := e), false_or, List.mem_cons]
      simpa using fun _ a b hmem => (hhead (a, b) hmem).symm
    · have hu : kv.1.creator ≠ u := fun hu => hkey (HeaderKey.ext hkv hu)
      simp [hkey, hu, Prod.ext_iff, Ne.symm hkey]

lemma getElem?_getLastHeaders (epoch : ℕ) (u : StakerID) :
    (t.getLastHeaders epoch)[u]? = t[(⟨epoch, u⟩ : HeaderKey)]? := by
  have hkeys : (t.toList.filter (·.1.epoch = epoch)).Pairwise fun a b => a.1 ≠ b.1 := by
    apply List.Pairwise.filter
    exact t.distinct_keys_toList.imp fun h heq => h (by simp [heq])
  ext e
  rw [getLastHeaders, getElem?_foldl_insert epoch (by simp) hkeys]
  simp [ExtTreeMap.mem_toList_iff_getElem?_eq_some]

end LastHeaders

/-! ### Behind the callbacks -/

/-- The callbacks that the service sets. -/
structure ConsensusCallbacks.Serviced (callback : ConsensusCallbacks) : Prop where
  applyBlock : callback.applyBlock.isSome
  selectValidatorsGroup : callback.selectValidatorsGroup.isSome
  onEventConfirmed : callback.onEventConfirmed = true

/-- The table after a call of the service, given the calls before it. An epoch is sealed by the
block for which the service says so. -/
def LastHeaders.onCall (cfg : Config) (before : List Call) (t : LastHeaders) (call : Call) :
    LastHeaders :=
  match call with
  | .onEventConfirmed header seqDepth => t.onEventConfirmed header seqDepth
  | .applyBlock block decidedFrame cheaters =>
    match cfg.callback.applyBlock with
    | none => t
    | some apply =>
      if (apply before block decidedFrame cheaters).2 then
        t.onEpochSealed (engineEpoch before) cheaters
      else t
  | _ => t

/-- The table after the calls, from the genesis. -/
def lastHeaders (cfg : Config) (calls : List Call) : LastHeaders :=
  (calls.foldl (fun s call => (s.1 ++ [call], s.2.onCall cfg s.1 call))
    (([], ∅) : List Call × LastHeaders)).2

section

variable {cfg : Config} {calls : List Call}

lemma lastHeaders_concat (cfg : Config) (calls : List Call) (call : Call) :
    lastHeaders cfg (calls ++ [call]) = (lastHeaders cfg calls).onCall cfg calls call := by
  have hcalls : ∀ (l : List Call) (s : List Call × LastHeaders),
      (l.foldl (fun s call => (s.1 ++ [call], s.2.onCall cfg s.1 call)) s).1 = s.1 ++ l := by
    intro l
    induction l with
    | nil => simp
    | cons call l ih =>
      intro s
      rw [List.foldl_cons, ih]
      simp
  rw [lastHeaders, List.foldl_append, List.foldl_cons, List.foldl_nil, hcalls, List.nil_append]
  rfl

/-- The depth of an event below what an atropos sees of its creator. -/
def seqDepth (creatorHighest : BranchSeq) (e : Event) : ℕ :=
  if creatorHighest.seq < e.seq then maxInt32 else creatorHighest.seq - e.seq

/-- Only the greatest event that the atropos sees has no depth. -/
lemma seqDepth_eq_zero_iff {creatorHighest : BranchSeq} {e : Event} :
    seqDepth creatorHighest e = 0 ↔ creatorHighest.seq = e.seq := by
  have hmax : maxInt32 ≠ 0 := by decide
  unfold seqDepth
  split_ifs with h
  · exact iff_of_false hmax h.ne
  · omega

lemma onConfirmed_calls (hcfg : cfg.callback.Serviced) {V : Validators} {highest : ℕ → BranchSeq}
    {e : Event} {s s' : Confirming} (h : onConfirmed cfg V highest e s = .ok s') :
    lastHeaders cfg s'.calls = (lastHeaders cfg s.calls).onEventConfirmed e
        (seqDepth (highest (V.getIdx e.creator)) e) ∧
      engineEpoch s'.calls = engineEpoch s.calls := by
  unfold onConfirmed at h
  dsimp only at h
  split at h
  · cases h
  · cases h
    dsimp only [Config.onEventConfirmed]
    rw [if_pos hcfg.onEventConfirmed, lastHeaders_concat, engineEpoch_concat]
    unfold Config.isEventAllowedIntoBlock
    cases cfg.callback.isEventAllowedIntoBlock with
    | none => exact ⟨rfl, rfl⟩
    | some allowed =>
      dsimp only
      rw [lastHeaders_concat, engineEpoch_concat]
      exact ⟨rfl, rfl⟩

end

/-- After the reports of a frame a record is as before, or it is that of one of the reported events
without depth. -/
lemma LastHeaders.foldl_onEventConfirmed (depth : Event → ℕ) (k : HeaderKey) (reported : List Event)
    (t : LastHeaders) :
    (reported.foldl (fun t e => t.onEventConfirmed e (depth e)) t)[k]? = t[k]? ∧
        (∀ e ∈ reported, depth e = 0 → k ≠ ⟨e.epoch, e.creator⟩) ∨
      ∃ e ∈ reported, depth e = 0 ∧ k = ⟨e.epoch, e.creator⟩ ∧
        (reported.foldl (fun t e => t.onEventConfirmed e (depth e)) t)[k]? = some e := by
  induction reported generalizing t with
  | nil => exact .inl ⟨rfl, by simp⟩
  | cons e reported ih =>
    rw [List.foldl_cons]
    rcases ih (t.onEventConfirmed e (depth e)) with ⟨hsame, hothers⟩ | ⟨e', he', hrest⟩
    · rw [hsame, onEventConfirmed]
      split_ifs with hdepth
      · rw [getElem?_addLastHeader]
        split_ifs with hk
        · exact .inr ⟨e, by simp, hdepth, hk, rfl⟩
        · exact .inl ⟨rfl, List.forall_mem_cons.mpr ⟨fun _ => hk, hothers⟩⟩
      · exact .inl ⟨rfl, List.forall_mem_cons.mpr ⟨fun h => absurd h hdepth, hothers⟩⟩
    · exact .inr ⟨e', by simp [he'], hrest⟩

/-! ### What a frame confirms -/

lemma CheckedSet.union {maxParents : ℕ} {getEvent : GetEvent} {A B : Set EventID}
    (hA : CheckedSet maxParents getEvent A) (hB : CheckedSet maxParents getEvent B) :
    CheckedSet maxParents getEvent (A ∪ B) where
  checked id hid := hid.elim (hA.checked id) (hB.checked id)
  parents_mem id hid e he p hp := hid.imp (fun h => hA.parents_mem id h e he p hp)
    (fun h => hB.parents_mem id h e he p hp)

lemma CheckedSet.sees {maxParents : ℕ} {getEvent : GetEvent} {D : Set EventID}
    (hD : CheckedSet maxParents getEvent D) {a : EventID} (ha : a ∈ D) :
    CheckedSet maxParents getEvent {x | (eventDag getEvent).Sees a x} where
  checked id hid := hD.checked id (hD.valid.sees_mem ha hid)
  parents_mem id hid e he p hp := by
    apply ForkDag.Sees.trans hid
    apply ForkDag.Sees.of_mem_parents
    rwa [parents_eventDag he]

namespace Chain

/-- The confirmed events of the epoch `n`. -/
def confirmedSet (c : Chain) (n : ℕ) : Set EventID :=
  {x | EventID.epoch x = n ∧ c.confirmedOn x ≠ 0}

/-- The event `e` of the validator `u` is confirmed. -/
structure ConfirmsEvent (cfg : Config) (c : Chain) (n : ℕ) (u : StakerID) (e : Event) : Prop where
  stored : cfg.input n e.hash = some e
  confirmed : e.hash ∈ c.confirmedSet n
  creator : e.creator = u

/-- The header is that of the last confirmed event of the validator, and there is none if no event
of it is confirmed. -/
def LastConfirmed (cfg : Config) (c : Chain) (n : ℕ) (u : StakerID) : Option Event → Prop
  | none => ∀ e, ¬ c.ConfirmsEvent cfg n u e
  | some e => c.ConfirmsEvent cfg n u e ∧ ∀ e', c.ConfirmsEvent cfg n u e' → e'.seq ≤ e.seq

lemma LastConfirmed.congr {cfg : Config} {c c' : Chain} {n : ℕ} {u : StakerID}
    {header : Option Event} (h : c.LastConfirmed cfg n u header)
    (hsame : ∀ e, c'.ConfirmsEvent cfg n u e ↔ c.ConfirmsEvent cfg n u e) :
    c'.LastConfirmed cfg n u header := by
  cases header with
  | none => exact fun e he => h e ((hsame e).mp he)
  | some e => exact ⟨(hsame e).mpr h.1, fun e' he' => h.2 e' ((hsame e').mp he')⟩

/-- What `confirmBlock` does for the service: the events of `reported` are those that the atropos
confirms, in the order of the walk. -/
structure HeadersConfirmed (cfg : Config) (es : EpochState) (a : EventID)
    (highest : ℕ → BranchSeq) (c c' : Chain) (reported : List Event) : Prop where
  reported_iff : ∀ e, e ∈ reported ↔ cfg.events es e.hash = some e ∧
    (cfg.dag es).Sees a e.hash ∧ c.confirmedOn e.hash = 0
  confirmed_iff : ∀ x, c'.confirmedOn x ≠ 0 ↔ (cfg.dag es).Sees a x ∨ c.confirmedOn x ≠ 0
  headers : lastHeaders cfg c'.calls =
    reported.foldl (fun t e => t.onEventConfirmed e
      (seqDepth (highest (es.validators.getIdx e.creator)) e)) (lastHeaders cfg c.calls)
  epoch : engineEpoch c'.calls = engineEpoch c.calls

section Frame

variable {cfg : Config} {es : EpochState} {a : EventID} {highest : ℕ → BranchSeq}
variable {c c' : Chain} {f fuel : ℕ} {D : Finset EventID} {block : Block}
variable {cheaters : List StakerID} {reported : List Event} {u : StakerID}
variable (hD : Connected cfg es D) (ha : a ∈ D) (hhighest : HighestOf cfg es a highest)

include hD ha

lemma HeadersConfirmed.confirmedSet_eq (h : c.HeadersConfirmed cfg es a highest c' reported) :
    c'.confirmedSet es.epochN = c.confirmedSet es.epochN ∪ {x | (cfg.dag es).Sees a x} := by
  ext x
  simp only [confirmedSet, Set.mem_union, Set.mem_ofPred_eq, h.confirmed_iff]
  constructor
  · rintro ⟨hepoch, hsees | hold⟩
    · exact .inr hsees
    · exact .inl ⟨hepoch, hold⟩
  · rintro (⟨hepoch, hold⟩ | hsees)
    · exact ⟨hepoch, .inr hold⟩
    · exact ⟨hD.epoch x (hD.checked.valid.sees_mem ha hsees), .inl hsees⟩

lemma HeadersConfirmed.records (h : c.HeadersConfirmed cfg es a highest c' reported)
    {k : HeaderKey} {e : Event} (hk : (lastHeaders cfg c'.calls)[k]? = some e) :
    (lastHeaders cfg c.calls)[k]? = some e ∨
      k.epoch = es.epochN ∧ c'.ConfirmsEvent cfg k.epoch k.creator e := by
  rw [h.headers] at hk
  rcases LastHeaders.foldl_onEventConfirmed
    (fun e => seqDepth (highest (es.validators.getIdx e.creator)) e) k reported
    (lastHeaders cfg c.calls) with ⟨hsame, -⟩ | ⟨e', he', -, hkey, hget⟩
  · exact .inl (hsame.symm.trans hk)
  · obtain rfl : e' = e := Option.some.inj (hget.symm.trans hk)
    obtain ⟨hstored, hsees, -⟩ := (h.reported_iff e').mp he'
    have hmem := hD.checked.valid.sees_mem ha hsees
    subst hkey
    have hepoch : e'.epoch = es.epochN := (hD.checked_event hstored hmem).2
    refine .inr ⟨hepoch, ?_⟩
    dsimp only
    rw [hepoch]
    exact ⟨hstored, ⟨hD.epoch _ hmem, (h.confirmed_iff _).mpr (.inl hsees)⟩, rfl⟩

include hhighest

lemma confirmBlock_headers (hcfg : cfg.callback.Serviced) (hes : c.epochState = es) (hf : f ≠ 0)
    (hclosed : ∀ x ∈ D, c.confirmedOn x ≠ 0 → ∀ p ∈ (cfg.dag es).parents x, c.confirmedOn p ≠ 0)
    (hrun : c.confirmBlock cfg fuel highest f a = .ok (block, cheaters, c')) :
    cheaters = cheatersOf es.validators highest ∧
      ∃ reported, c.HeadersConfirmed cfg es a highest c' reported := by
  classical
  obtain ⟨marks, s, reported, hwalk, ⟨hheaders, hepoch⟩, -, hreported, hmarks⟩ :=
    confirmEvents_ok (onConfirmed cfg es.validators highest) hD.checked.storedSet
      (fun reported s => lastHeaders cfg s.calls = reported.foldl (fun t e => t.onEventConfirmed e
          (seqDepth (highest (es.validators.getIdx e.creator)) e)) (lastHeaders cfg c.calls) ∧
        engineEpoch s.calls = engineEpoch c.calls) hclosed hf ha le_rfl
      (s := ⟨0, 0, [], c.calls⟩) ⟨rfl, rfl⟩
      (by
        rintro done e t he hsees - ⟨hheaders, hepoch⟩
        have hcreator := hD.creator_mem _ (hD.checked.valid.sees_mem ha hsees)
        rw [creator_eventDag he] at hcreator
        obtain ⟨t', hreport, -⟩ : ∃ t', onConfirmed cfg es.validators highest e t = .ok t' ∧ _ :=
          onConfirmed_ok t (hhighest.consistent hD.checked ha he hsees hcreator)
        obtain ⟨hheaders', hepoch'⟩ := onConfirmed_calls hcfg hreport
        refine ⟨t', hreport, ?_, hepoch'.trans hepoch⟩
        rw [hheaders', hheaders, List.foldl_append, List.foldl_cons, List.foldl_nil])
  subst hes
  unfold confirmBlock at hrun
  simp only [bind, bind_eq_ok_iff] at hrun
  obtain ⟨⟨marks', s'⟩, hwalk', time, -, hrun⟩ := hrun
  obtain ⟨rfl, rfl⟩ := Prod.mk.inj (walk_unique hwalk' hwalk)
  split at hrun
  · cases hrun
  cases hrun
  refine ⟨rfl, reported, hreported, fun x => ?_, hheaders, hepoch⟩
  change marks'.confirmedOn x ≠ 0 ↔ _ ∨ c.main.confirmedEvent.confirmedOn x ≠ 0
  rw [hmarks x]
  split_ifs with hif
  · exact iff_of_true hf (.inl hif.1)
  · refine ⟨.inr, ?_⟩
    rintro (hsees | hold)
    · exact fun hzero => hif ⟨hsees, hzero⟩
    · exact hold

/-- Without a fork, the clock has the greatest number of what the atropos sees of a validator. -/
lemma isGreatest_of_not_seesFork (hforks : ¬ (cfg.dag es).SeesFork a u) {x : EventID}
    (hx : (cfg.dag es).Sees a x) (hu : (cfg.dag es).creator x = u) :
    IsGreatest (Set.image (cfg.dag es).seq
      {y | (cfg.dag es).Sees a y ∧
        (cfg.dag es).creator y = u})
      (highest (es.validators.getIdx u)).seq := by
  have hmem := hD.creator_mem x (hD.checked.valid.sees_mem ha hx)
  rw [hu] at hmem
  obtain ⟨t, ht⟩ := hhighest u hmem
  exact ((ht.exact hD.checked.valid ha).2.2 hforks ⟨x, hx, hu⟩).1

lemma exists_seqDepth_eq_zero (hfork : ¬ (cfg.dag es).SeesFork a u) {x : EventID}
    (hx : (cfg.dag es).Sees a x) (hu : (cfg.dag es).creator x = u) :
    ∃ e, cfg.events es e.hash = some e ∧ (cfg.dag es).Sees a e.hash ∧ e.creator = u ∧
      seqDepth (highest (es.validators.getIdx e.creator)) e = 0 ∧
      (cfg.dag es).seq x ≤ (cfg.dag es).seq e.hash := by
  obtain ⟨⟨top, ⟨htop, htopu⟩, hseq⟩, hbound⟩ :=
    isGreatest_of_not_seesFork hD ha hhighest hfork hx hu
  obtain ⟨e, he, rfl, -⟩ := hD.checked.exists_event (hD.checked.valid.sees_mem ha htop)
  have hcreator : e.creator = u := by rw [← creator_eventDag he, htopu]
  refine ⟨e, he, htop, hcreator, ?_, ?_⟩
  · rw [seqDepth_eq_zero_iff, hcreator, ← hseq, seq_eventDag he]
  · rw [hseq]
    exact hbound ⟨x, ⟨hx, hu⟩, rfl⟩

/-- Without forks the last header is the last confirmed event. -/
lemma HeadersConfirmed.lastConfirmed (h : c.HeadersConfirmed cfg es a highest c' reported)
    (hold : CheckedSet cfg.maxParents (cfg.events es) (c.confirmedSet es.epochN))
    (hforks : ¬ (cfg.dag es).Forks (c'.confirmedSet es.epochN) u)
    (hlast : c.LastConfirmed cfg es.epochN u
      (lastHeaders cfg c.calls)[(⟨es.epochN, u⟩ : HeaderKey)]?) :
    c'.LastConfirmed cfg es.epochN u
      (lastHeaders cfg c'.calls)[(⟨es.epochN, u⟩ : HeaderKey)]? := by
  have hset := h.confirmedSet_eq hD ha
  have hnew := hset ▸ hold.union (hD.checked.sees ha)
  have hseen : ∀ x, (cfg.dag es).Sees a x → x ∈ c'.confirmedSet es.epochN :=
    fun x hx => hset ▸ .inr hx
  have hkept : ∀ x ∈ c.confirmedSet es.epochN, x ∈ c'.confirmedSet es.epochN :=
    fun x hx => hset ▸ .inl hx
  have hatropos : ¬ (cfg.dag es).SeesFork a u := by
    rintro ⟨x, y, hx, hy, hu, hfork⟩
    exact hforks ⟨x, hseen x hx, y, hseen y hy, hu, hfork⟩
  have hchain : ∀ e e' : Event, c'.ConfirmsEvent cfg es.epochN u e →
      c'.ConfirmsEvent cfg es.epochN u e' → e'.hash ∈ c.confirmedSet es.epochN →
      e.seq ≤ e'.seq → e.hash ∈ c.confirmedSet es.epochN := by
    intro e e' he he' hmem hle
    refine hnew.valid.mem_of_seq_le he.confirmed he'.confirmed ?_ ?_ ?_ hold.valid hmem
    · rw [creator_eventDag he.stored, creator_eventDag he'.stored, he.creator, he'.creator]
    · rwa [seq_eventDag he.stored, seq_eventDag he'.stored]
    · rwa [creator_eventDag he.stored, he.creator]
  rw [h.headers]
  rcases LastHeaders.foldl_onEventConfirmed
    (fun e => seqDepth (highest (es.validators.getIdx e.creator)) e) ⟨es.epochN, u⟩ reported
    (lastHeaders cfg c.calls) with ⟨hsame, hothers⟩ | ⟨e, he, hdepth, hkey, hget⟩
  · -- the event without depth was confirmed before, and so was all below it
    rw [hsame]
    apply hlast.congr
    intro e
    refine ⟨fun he => ⟨he.stored, ?_, he.creator⟩,
      fun he => ⟨he.stored, hkept _ he.confirmed, he.creator⟩⟩
    rcases (hset ▸ he.confirmed : e.hash ∈ _ ∪ _) with hmem | hsees
    · exact hmem
    · obtain ⟨top, hstored, htop, hcreator, hdepth, hle⟩ := exists_seqDepth_eq_zero hD ha hhighest
        hatropos hsees (by rw [creator_eventDag he.stored, he.creator])
      have htopD := hD.checked.valid.sees_mem ha htop
      rw [seq_eventDag he.stored, seq_eventDag hstored] at hle
      refine hchain e top he ⟨hstored, hseen _ htop, hcreator⟩ ⟨hD.epoch _ htopD, ?_⟩ hle
      intro hzero
      apply hothers top ((h.reported_iff top).mpr ⟨hstored, htop, hzero⟩) hdepth
      rw [(hD.checked_event hstored htopD).2, hcreator]
  · -- the new event without depth is above all that was confirmed before
    rw [hget]
    obtain ⟨hstored, hsees, hzero⟩ := (h.reported_iff e).mp he
    have hcreator : e.creator = u := (congrArg HeaderKey.creator hkey).symm
    have hconfirms : c'.ConfirmsEvent cfg es.epochN u e := ⟨hstored, hseen _ hsees, hcreator⟩
    refine ⟨hconfirms, fun e' he' => ?_⟩
    rcases (hset ▸ he'.confirmed : e'.hash ∈ _ ∪ _) with hmem | hsees'
    · by_contra hlt
      exact (hchain e e' hconfirms he' hmem (Nat.le_of_not_le hlt)).2 hzero
    · have hbound := (isGreatest_of_not_seesFork hD ha hhighest hatropos hsees
        (by rw [creator_eventDag hstored, hcreator])).2
      have hle := hbound ⟨e'.hash, ⟨hsees', by rw [creator_eventDag he'.stored, he'.creator]⟩, rfl⟩
      rwa [seq_eventDag he'.stored, ← hcreator, seqDepth_eq_zero_iff.mp hdepth] at hle

/-- The cheaters of a block are those whom the atropos sees forking. -/
lemma mem_cheatersOf_iff : u ∈ cheatersOf es.validators highest ↔ (cfg.dag es).SeesFork a u := by
  have hmem : u ∈ cheatersOf es.validators highest ↔ u ∈ es.validators.members ∧
      (highest (es.validators.getIdx u)).isForkDetected = true := by
    simp only [cheatersOf, List.mem_map, List.mem_filter, Prod.exists, exists_and_right,
      exists_eq_right, List.mk_mem_zipIdx_iff_getElem?]
    constructor
    · rintro ⟨i, hi, hdetected⟩
      obtain ⟨hu, rfl⟩ := Validators.getIdx_of_ids hi
      exact ⟨hu, hdetected⟩
    · rintro ⟨hu, hdetected⟩
      exact ⟨_, Validators.ids_getIdx hu, hdetected⟩
  rw [hmem]
  constructor
  · rintro ⟨hu, hdetected⟩
    obtain ⟨t, ht⟩ := hhighest u hu
    exact (ht.exact hD.checked.valid ha).1.mp hdetected
  · intro hfork
    obtain ⟨x, -, hx, -, hcreator, -⟩ := id hfork
    have hu := hD.creator_mem x (hD.checked.valid.sees_mem ha hx)
    rw [hcreator] at hu
    obtain ⟨t, ht⟩ := hhighest u hu
    exact ⟨hu, (ht.exact hD.checked.valid ha).1.mpr hfork⟩

omit hD ha hhighest in
lemma finishFrame_headers (hcfg : cfg.callback.Serviced) {sealed : Bool}
    (hengine : engineEpoch c.calls = c.epochState.epochN)
    (h : c.finishFrame cfg f a block cheaters = .ok (sealed, c')) :
    engineEpoch c'.calls = c'.epochState.epochN ∧
      c'.epochState.epochN = (if sealed then c.epochState.epochN + 1 else c.epochState.epochN) ∧
      lastHeaders cfg c'.calls = if sealed then
        (lastHeaders cfg c.calls).onEpochSealed c.epochState.epochN cheaters
      else lastHeaders cfg c.calls := by
  obtain ⟨apply, happly⟩ := Option.isSome_iff_exists.mp hcfg.applyBlock
  obtain ⟨select, hselect⟩ := Option.isSome_iff_exists.mp hcfg.selectValidatorsGroup
  simp only [finishFrame, applyBlock, happly] at h
  have hblock := lastHeaders_concat cfg c.calls (.applyBlock block f cheaters)
  simp only [LastHeaders.onCall, happly, hengine] at hblock
  cases hsealed : (apply c.calls block f cheaters).2 with
  | false =>
    rw [hsealed] at h hblock
    cases h
    refine ⟨?_, rfl, hblock⟩
    rw [saveCheckpoint, engineEpoch_concat, hengine]
  | true =>
    rw [hsealed] at h hblock
    obtain ⟨c₁, hseal, hpair⟩ := map_eq_ok_iff.mp h
    cases hpair
    simp only [sealEpoch, bind, bind_eq_ok_iff, nextValidators, hselect] at hseal
    obtain ⟨time, -, hseal⟩ := hseal
    cases hseal
    refine ⟨?_, rfl, ?_⟩
    · rw [saveCheckpoint, engineEpoch_concat]
    · rw [saveCheckpoint, lastHeaders_concat]
      exact hblock

end Frame

/-! ### Runs of decided frames -/

/-- The chain is reached by deciding frames with atropoi whose clocks were read, over any number of
epochs. -/
inductive ReadRun (cfg : Config) (c₀ : Chain) : Chain → Prop
  | start : ReadRun cfg c₀ c₀
  | next {c c' : Chain} {fuel : ℕ} {highest : ℕ → BranchSeq} {atropos : EventID} {sealed : Bool}
      (before : ReadRun cfg c₀ c) (read : AtroposRead cfg c.epochState atropos highest)
      (decided : c.onFrameDecided cfg fuel highest (c.checkpoint.lastDecidedFrame + 1) atropos =
        .ok (sealed, c')) :
      ReadRun cfg c₀ c'

/-- The epoch `n` of a chain, in which a validator does not fork as far as its events are
confirmed. -/
def Honest (cfg : Config) (c : Chain) (n : ℕ) (u : StakerID) : Prop :=
  ¬ (eventDag (cfg.input n)).Forks (c.confirmedSet n) u

/-- The last headers between two frames. -/
structure KeepsHeaders (cfg : Config) (c : Chain) : Prop where
  epoch_pos : 0 < c.epochState.epochN
  engine : engineEpoch c.calls = c.epochState.epochN
  past : ∀ x, c.confirmedOn x ≠ 0 → EventID.epoch x ≤ c.epochState.epochN
  checked : CheckedSet cfg.maxParents (cfg.input c.epochState.epochN)
    (c.confirmedSet c.epochState.epochN)
  last : ∀ u, c.Honest cfg c.epochState.epochN u →
    c.LastConfirmed cfg c.epochState.epochN u
      (lastHeaders cfg c.calls)[(⟨c.epochState.epochN, u⟩ : HeaderKey)]?
  future : ∀ k : HeaderKey, c.epochState.epochN < k.epoch → (lastHeaders cfg c.calls)[k]? = none

/-- What a frame that is decided with the atropos `a` leaves in the table. -/
structure LeavesHeaders (cfg : Config) (a : EventID) (sealed : Bool) (c c' : Chain) : Prop where
  last : ∀ u, c'.Honest cfg c.epochState.epochN u →
    c'.LastConfirmed cfg c.epochState.epochN u
      (lastHeaders cfg c'.calls)[(⟨c.epochState.epochN, u⟩ : HeaderKey)]?
  cheaters : sealed = true → ∀ u, (cfg.dag c.epochState).SeesFork a u →
    (lastHeaders cfg c'.calls)[(⟨c.epochState.epochN, u⟩ : HeaderKey)]? = none
  records : ∀ (k : HeaderKey) (e : Event), (lastHeaders cfg c'.calls)[k]? = some e →
    (sealed = true → k.epoch ≠ c.epochState.epochN - 1) ∧
      ((lastHeaders cfg c.calls)[k]? = some e ∨
        k.epoch = c.epochState.epochN ∧ c'.ConfirmsEvent cfg k.epoch k.creator e)
  kept : ∀ x, c.confirmedOn x ≠ 0 → c'.confirmedOn x ≠ 0
  past : ∀ x, c'.confirmedOn x ≠ 0 → EventID.epoch x ≤ c.epochState.epochN
  checked : CheckedSet cfg.maxParents (cfg.input c.epochState.epochN)
    (c'.confirmedSet c.epochState.epochN)
  engine : engineEpoch c'.calls = c'.epochState.epochN
  epochN : c'.epochState.epochN =
    if sealed then c.epochState.epochN + 1 else c.epochState.epochN

section Runs

variable {cfg : Config} {c c' : Chain} {a : EventID} {highest : ℕ → BranchSeq} {fuel : ℕ}
variable {sealed : Bool}

/-- A decided frame keeps the headers with the confirmed events. -/
lemma KeepsHeaders.frame (hcfg : cfg.callback.Serviced) (h : c.KeepsHeaders cfg)
    (hread : AtroposRead cfg c.epochState a highest)
    (hdecided : c.onFrameDecided cfg fuel highest (c.checkpoint.lastDecidedFrame + 1) a =
      .ok (sealed, c')) : LeavesHeaders cfg a sealed c c' := by
  obtain ⟨D, hD, ha, hhighest⟩ := hread.spec
  unfold onFrameDecided at hdecided
  split at hdecided
  · cases hdecided
  rename_i block cheaters c₁ hconfirm
  have hclosed : ∀ x ∈ D, c.confirmedOn x ≠ 0 →
      ∀ p ∈ (cfg.dag c.epochState).parents x, c.confirmedOn p ≠ 0 :=
    fun x hx hmark p hp => (h.checked.valid.parents_mem x ⟨hD.epoch x hx, hmark⟩ p hp).2
  obtain ⟨rfl, reported, hframe⟩ := confirmBlock_headers hD ha hhighest hcfg
    (c := { c with checkpoint := { c.checkpoint with
      lastDecidedFrame := c.checkpoint.lastDecidedFrame + 1 } }) rfl (Nat.succ_ne_zero _) hclosed
    hconfirm
  have hframe : c.HeadersConfirmed cfg c.epochState a highest c₁ reported :=
    ⟨hframe.reported_iff, hframe.confirmed_iff, hframe.headers, hframe.epoch⟩
  have hconfirmed : ∀ x, c'.confirmedOn x = c₁.confirmedOn x := fun x => by
    rw [confirmedOn, (finishFrame_finishes hdecided).confirmedEvent, confirmedOn]
  have hset : ∀ n, c'.confirmedSet n = c₁.confirmedSet n := fun n => by
    simp only [confirmedSet, hconfirmed]
  obtain ⟨-, hes, -⟩ := confirmBlock_keeps hconfirm
  have hes : c₁.epochState = c.epochState := hes
  obtain ⟨hengine, hepochN, hheaders⟩ := finishFrame_headers hcfg
    (by rw [hframe.epoch, hes]; exact h.engine) hdecided
  rw [hes] at hepochN hheaders
  have hunion := hframe.confirmedSet_eq hD ha
  refine ⟨?_, ?_, ?_, ?_, ?_, ?_, hengine, hepochN⟩
  · intro u hhonest
    rw [Honest, hset] at hhonest
    have hbefore : c.Honest cfg c.epochState.epochN u := by
      rintro ⟨x, hx, y, hy, hfork⟩
      exact hhonest ⟨x, hunion ▸ .inl hx, y, hunion ▸ .inl hy, hfork⟩
    have hlast := hframe.lastConfirmed hD ha hhighest h.checked hhonest (h.last u hbefore)
    have hkept : (lastHeaders cfg c'.calls)[(⟨c.epochState.epochN, u⟩ : HeaderKey)]? =
        (lastHeaders cfg c₁.calls)[(⟨c.epochState.epochN, u⟩ : HeaderKey)]? := by
      rw [hheaders]
      split_ifs
      · rw [LastHeaders.getElem?_onEpochSealed, if_neg]
        rintro (hpred | ⟨-, hcheater⟩)
        · exact absurd hpred (Nat.sub_lt h.epoch_pos Nat.one_pos).ne'
        · obtain ⟨x, y, hx, hy, hfork⟩ := (mem_cheatersOf_iff hD ha hhighest).mp hcheater
          exact hhonest ⟨x, hunion ▸ .inr hx, y, hunion ▸ .inr hy, hfork⟩
      · rfl
    rw [hkept]
    apply hlast.congr
    intro e
    exact ⟨fun he => ⟨he.stored, hset _ ▸ he.confirmed, he.creator⟩,
      fun he => ⟨he.stored, (hset _).symm ▸ he.confirmed, he.creator⟩⟩
  · rintro rfl u hfork
    have hcheater := (mem_cheatersOf_iff hD ha hhighest).mpr hfork
    rw [hheaders, if_pos rfl, LastHeaders.getElem?_onEpochSealed, if_pos (.inr ⟨rfl, hcheater⟩)]
  · intro k e hk
    rw [hheaders] at hk
    have hkept : (sealed = true → k.epoch ≠ c.epochState.epochN - 1) ∧
        (lastHeaders cfg c₁.calls)[k]? = some e := by
      split_ifs at hk with hsealed
      · rw [LastHeaders.getElem?_onEpochSealed] at hk
        split_ifs at hk with hdeleted
        exact ⟨fun _ hk => hdeleted (.inl hk), hk⟩
      · exact ⟨fun h => absurd h hsealed, hk⟩
    refine ⟨hkept.1, (hframe.records hD ha hkept.2).imp_right ?_⟩
    rintro ⟨hepoch, he⟩
    exact ⟨hepoch, he.stored, hset _ ▸ he.confirmed, he.creator⟩
  · intro x hx
    rw [hconfirmed]
    exact (hframe.confirmed_iff x).mpr (.inr hx)
  · intro x hx
    rw [hconfirmed, hframe.confirmed_iff] at hx
    rcases hx with hsees | hold
    · exact (hD.epoch x (hD.checked.valid.sees_mem ha hsees)).le
    · exact h.past x hold
  · rw [hset, hunion]
    exact h.checked.union (hD.checked.sees ha)

lemma LeavesHeaders.others (h : LeavesHeaders cfg a sealed c c') (k : HeaderKey)
    (hk : k.epoch ≠ c.epochState.epochN) (hnone : (lastHeaders cfg c.calls)[k]? = none) :
    (lastHeaders cfg c'.calls)[k]? = none := by
  by_contra hsome
  obtain ⟨e, he⟩ := Option.ne_none_iff_exists'.mp hsome
  rcases (h.records k e he).2 with hold | ⟨hepoch, -⟩
  · simp [hnone] at hold
  · exact hk hepoch

lemma LeavesHeaders.keepsHeaders (h : c.KeepsHeaders cfg) (h' : LeavesHeaders cfg a sealed c c') :
    c'.KeepsHeaders cfg := by
  cases sealed with
  | false =>
    have hepochN : c'.epochState.epochN = c.epochState.epochN := h'.epochN
    refine ⟨hepochN ▸ h.epoch_pos, h'.engine, hepochN ▸ h'.past, hepochN ▸ h'.checked,
      hepochN ▸ h'.last, ?_⟩
    intro k hk
    rw [hepochN] at hk
    exact h'.others k hk.ne' (h.future k hk)
  | true =>
    have hepochN : c'.epochState.epochN = c.epochState.epochN + 1 := h'.epochN
    have hnew : ∀ x, x ∉ c'.confirmedSet c'.epochState.epochN := by
      rintro x ⟨hepoch, hmark⟩
      have hle := h'.past x hmark
      rw [hepoch, hepochN] at hle
      exact absurd hle (Nat.not_succ_le_self _)
    have hfuture : ∀ k : HeaderKey, c.epochState.epochN < k.epoch →
        (lastHeaders cfg c'.calls)[k]? = none :=
      fun k hk => h'.others k hk.ne' (h.future k hk)
    refine ⟨by rw [hepochN]; exact Nat.succ_pos _, h'.engine, ?_, ?_, ?_, ?_⟩
    · intro x hx
      rw [hepochN]
      exact (h'.past x hx).trans (Nat.le_succ _)
    · exact ⟨fun x hx => absurd hx (hnew x), fun x hx => absurd hx (hnew x)⟩
    · intro u _
      rw [hfuture ⟨c'.epochState.epochN, u⟩ (by rw [hepochN]; exact Nat.lt_succ_self _)]
      exact fun e he => hnew _ he.confirmed
    · intro k hk
      rw [hepochN] at hk
      exact hfuture k (Nat.lt_of_succ_lt hk)

lemma keepsHeaders_genesis (cfg : Config) (V : Validators) (time : Timestamp)
    (genesisAtropos : EventID) (appHash : Hash) :
    (genesis V time genesisAtropos appHash []).KeepsHeaders cfg := by
  have hmarks : ∀ x, (genesis V time genesisAtropos appHash []).confirmedOn x = 0 := fun _ => rfl
  refine ⟨Nat.one_pos, rfl, ?_, ?_, ?_, fun _ _ => rfl⟩
  · exact fun x hx => absurd (hmarks x) hx
  · exact ⟨fun x hx => absurd (hmarks x) hx.2, fun x hx => absurd (hmarks x) hx.2⟩
  · exact fun u _ e he => he.confirmed.2 (hmarks _)

lemma ReadRun.keepsHeaders {c₀ : Chain} (hcfg : cfg.callback.Serviced) (h₀ : c₀.KeepsHeaders cfg)
    (h : ReadRun cfg c₀ c) : c.KeepsHeaders cfg := by
  induction h with
  | start => exact h₀
  | next _ read decided ih => exact (ih.frame hcfg read decided).keepsHeaders ih

lemma ReadRun.deleted {c₀ : Chain} (hcfg : cfg.callback.Serviced) (h₀ : c₀.KeepsHeaders cfg)
    (h : ReadRun cfg c₀ c) {k : HeaderKey} (hk : k.epoch < c₀.epochState.epochN)
    (hnone : (lastHeaders cfg c₀.calls)[k]? = none) :
    k.epoch < c.epochState.epochN ∧ (lastHeaders cfg c.calls)[k]? = none := by
  induction h with
  | start => exact ⟨hk, hnone⟩
  | @next c c' fuel highest atropos sealed before read decided ih =>
    have hframe := (before.keepsHeaders hcfg h₀).frame hcfg read decided
    refine ⟨?_, hframe.others k ih.1.ne ih.2⟩
    rw [hframe.epochN]
    split_ifs
    · exact Nat.lt_succ_of_lt ih.1
    · exact ih.1

/-- After every run of decided frames from the genesis, `GetLastHeaders` of the current epoch has,
for a validator without forks, its confirmed event with the greatest number, and nothing if none is
confirmed. A frame that seals the epoch leaves these headers, but none of a validator that its
atropos sees forking, then or later. -/
theorem ReadRun.lastHeaders_exact (hcfg : cfg.callback.Serviced) {V : Validators} {time : Timestamp}
    {genesisAtropos : EventID} {appHash : Hash}
    (h : ReadRun cfg (genesis V time genesisAtropos appHash []) c) :
    (∀ u, c.Honest cfg c.epochState.epochN u → c.LastConfirmed cfg c.epochState.epochN u
      ((lastHeaders cfg c.calls).getLastHeaders c.epochState.epochN)[u]?) ∧
    ∀ (fuel : ℕ) (highest : ℕ → BranchSeq) (a : EventID) (c' : Chain),
      AtroposRead cfg c.epochState a highest →
      c.onFrameDecided cfg fuel highest (c.checkpoint.lastDecidedFrame + 1) a = .ok (true, c') →
      (∀ u, c'.Honest cfg c.epochState.epochN u → c'.LastConfirmed cfg c.epochState.epochN u
        ((lastHeaders cfg c'.calls).getLastHeaders c.epochState.epochN)[u]?) ∧
      ∀ u, (cfg.dag c.epochState).SeesFork a u →
        ∀ c'', ReadRun cfg c' c'' →
          ((lastHeaders cfg c''.calls).getLastHeaders c.epochState.epochN)[u]? = none := by
  have hkeeps := h.keepsHeaders hcfg (keepsHeaders_genesis cfg V time genesisAtropos appHash)
  refine ⟨fun u hhonest => ?_, fun fuel highest a c' hread hdecided => ?_⟩
  · rw [LastHeaders.getElem?_getLastHeaders]
    exact hkeeps.last u hhonest
  · have hframe := hkeeps.frame hcfg hread hdecided
    refine ⟨fun u hhonest => ?_, fun u hfork c'' hlater => ?_⟩
    · rw [LastHeaders.getElem?_getLastHeaders]
      exact hframe.last u hhonest
    · rw [LastHeaders.getElem?_getLastHeaders]
      apply (hlater.deleted hcfg (hframe.keepsHeaders hkeeps) ?_ (hframe.cheaters rfl u hfork)).2
      rw [hframe.epochN]
      exact Nat.lt_succ_self _

/-- After every run of decided frames the table has records of the current epoch and the one before
only, each of a confirmed event of the epoch and the validator that its key names. -/
theorem ReadRun.records_confirmed (hcfg : cfg.callback.Serviced) {V : Validators}
    {time : Timestamp} {genesisAtropos : EventID} {appHash : Hash}
    (h : ReadRun cfg (genesis V time genesisAtropos appHash []) c) (k : HeaderKey) (e : Event)
    (hk : (lastHeaders cfg c.calls)[k]? = some e) :
    k.epoch ≤ c.epochState.epochN ∧ c.epochState.epochN ≤ k.epoch + 1 ∧
      c.ConfirmsEvent cfg k.epoch k.creator e := by
  induction h with
  | start => cases hk
  | @next c c' fuel highest atropos sealed before read decided ih =>
    have hkeeps := before.keepsHeaders hcfg (keepsHeaders_genesis cfg V time genesisAtropos appHash)
    have hframe := hkeeps.frame hcfg read decided
    have hpos := hkeeps.epoch_pos
    have hepochN := hframe.epochN
    obtain ⟨hpruned, hold | ⟨hepoch, he⟩⟩ := hframe.records k e hk
    · obtain ⟨hle, hlt, he⟩ := ih hold
      refine ⟨?_, ?_, he.stored, ⟨he.confirmed.1, hframe.kept _ he.confirmed.2⟩, he.creator⟩
      · split_ifs at hepochN <;> omega
      · split_ifs at hepochN with hsealed
        · have := hpruned hsealed
          omega
        · omega
    · refine ⟨?_, ?_, he⟩ <;> split_ifs at hepochN <;> omega

lemma ReadRun.run {c₀ : Chain} (h : ReadRun cfg c₀ c) : Chain.Run cfg c₀ c := by
  induction h with
  | start => exact .start
  | next _ _ decided ih => exact .next ih decided

lemma confirmBlock_cheaters {f : ℕ} {block : Block} {cheaters : List StakerID}
    (h : c.confirmBlock cfg fuel highest f a = .ok (block, cheaters, c')) :
    cheaters = cheatersOf c.epochState.validators highest := by
  simp only [confirmBlock, bind, bind_eq_ok_iff] at h
  obtain ⟨_, -, _, -, h⟩ := h
  split at h
  · cases h
  · cases h
    rfl

/-- Whatever frames a node has decided before, the next one ends the epoch if and only if its
atropos sees a fork, it is the last frame that the network allows, its block comes late enough after
the last voting, or the contract forces it. -/
theorem ReadRun.sealed_iff {net : Net} {process : List Call → Block → Execution}
    (hserves : Service.Serves net process cfg.callback) {V : Validators} {time : Timestamp}
    {genesisAtropos : EventID} {appHash : Hash}
    (h : ReadRun cfg (genesis V time genesisAtropos appHash []) c)
    (hread : AtroposRead cfg c.epochState a highest)
    (hdecided : c.onFrameDecided cfg fuel highest (c.checkpoint.lastDecidedFrame + 1) a =
      .ok (sealed, c')) :
    ∃ calls s block cheaters, Service.after net process calls = .ok (calls, s) ∧
      block.index = c.checkpoint.lastBlockN + 1 ∧
      calls ++ [.applyBlock block (c.checkpoint.lastDecidedFrame + 1) cheaters] <+: c'.calls ∧
      (sealed = true ↔ (∃ u, (cfg.dag c.epochState).SeesFork a u) ∨
        net.maxEpochBlocks.toNat ≤ c.checkpoint.lastDecidedFrame + 1 ∨
        net.maxEpochDuration.toUInt64 ≤ block.time - s.app.getLastVoting.2 ∨
        epochIsForceSealed net.asSigHash (process calls block).receipts = true) := by
  obtain ⟨D, hD, ha, hhighest⟩ := hread.spec
  obtain ⟨s, hfollows, hrun⟩ := h.run.blockRun hserves
  unfold onFrameDecided at hdecided
  split at hdecided
  · cases hdecided
  rename_i block cheaters c₁ hconfirm
  obtain ⟨hfollows₁, hindex⟩ := Follows.confirmBlock hconfirm hfollows
  obtain ⟨hcheckpoint, hes, -⟩ := confirmBlock_keeps hconfirm
  obtain ⟨-, hcalls, hsealed⟩ := Follows.finishFrame (e := c.engine) hserves
    (by rw [engine, hes, hcheckpoint]; rfl) hindex hrun hfollows₁ hdecided
  refine ⟨c₁.calls, s, block, cheaters, hfollows₁.after, hindex, hcalls, ?_⟩
  have hforks : cheaters ≠ [] ↔ ∃ u, (cfg.dag c.epochState).SeesFork a u := by
    simp only [confirmBlock_cheaters hconfirm, ne_eq, List.eq_nil_iff_forall_not_mem, not_forall,
      not_not]
    exact exists_congr fun u => mem_cheatersOf_iff hD ha hhighest
  rw [hsealed, App.deliverTxs, Bool.or_eq_true, hrun.inStep.shouldSealEpoch_iff hindex, hforks]
  change (_ ∨ _ ∨ _) ∨ _ ↔ _
  tauto

end Runs

/-! ### A frame that seals an epoch with a fork -/

namespace Sealing

open Index.Forked

/-- The second event of the validator 1, which sees both sides of the fork. -/
def top : Event := ⟨1, 2, 2, true, 1, 0, [aboveLeft.hash, aboveRight.hash], 3, 2, 2, 5⟩

def known : List Event := [left, right, aboveLeft, aboveRight, top]

/-- A service that seals the epoch with every block. -/
def config : Config where
  maxParents := 3
  input _ := lookup known
  callback := ⟨some fun _ _ _ _ => (0, true), some fun _ _ _ => equal, true, none⟩
  genesisHash _ := 0
  hashOf a _ := a

/-- The chain at the genesis. -/
def start : Chain := .genesis equal 1 0 0 []

lemma serviced : config.callback.Serviced := ⟨rfl, rfl, rfl⟩

lemma atroposRead : ∃ highest, AtroposRead config start.epochState top.hash highest := by
  have hlegal : Index.Legal config.maxParents start.epochState.validators
      (config.input start.epochState.epochN) (∅, ∅) (known.map .add) := by decide +kernel
  refine exists_atroposRead Index.smallCaches hlegal (fun e he => ?_) (by decide +kernel)
  obtain ⟨e', he', heq⟩ := List.mem_map.mp he
  cases heq
  exact (show ∀ e ∈ known, e.epoch = 1 by decide) e he'

lemma exists_sealed : ∃ fuel highest c, AtroposRead config start.epochState top.hash highest ∧
    start.onFrameDecided config fuel highest 1 top.hash = .ok (true, c) := by
  obtain ⟨highest, hread⟩ := atroposRead
  have htime : start.frameConsensusTime ([] : List EventID).length = .ok 1 := rfl
  have hmarked : start.MarkedBy config start.epochState [] := fun _ _ => rfl
  obtain ⟨block, sealed, c, hdecided⟩ := exists_frameDecided rfl hmarked hread htime
  obtain ⟨fuel, highest, hread, hrun⟩ := exists_frameDecided_iff.mp ⟨block, hdecided⟩
  have hsealed : sealed = true := by
    unfold onFrameDecided at hrun
    split at hrun
    · cases hrun
    · obtain ⟨c', -, hpair⟩ := map_eq_ok_iff.mp hrun
      exact (congrArg Prod.fst hpair).symm
  exact ⟨fuel, highest, c, hread, hsealed ▸ hrun⟩

lemma honest {c : Chain}
    (hchecked : CheckedSet config.maxParents (config.input 1) (c.confirmedSet 1)) :
    c.Honest config 1 1 := by
  rintro ⟨x, hx, y, hy, hu, hne, hcreator, hseq⟩
  have hknown : ∀ x ∈ c.confirmedSet 1, x ∈ known.map Event.hash := by
    intro x hx
    obtain ⟨e, he, rfl, -⟩ := hchecked.exists_event hx
    simp only [config, lookup] at he
    exact List.mem_map_of_mem (List.mem_of_find?_eq_some he)
  have hapart : ∀ x ∈ known.map Event.hash, ∀ y ∈ known.map Event.hash,
      (eventDag (config.input 1)).creator x = 1 →
      (eventDag (config.input 1)).creator x = (eventDag (config.input 1)).creator y →
      (eventDag (config.input 1)).seq x = (eventDag (config.input 1)).seq y → x = y := by
    decide +kernel
  exact hne (hapart x (hknown x hx) y (hknown y hy) hu hcreator hseq)

lemma seesFork : (eventDag (config.input 1)).SeesFork top.hash 3 := by
  have hparent : ∀ x y : Event, y.hash ∈ (eventDag (config.input 1)).parents x.hash →
      (eventDag (config.input 1)).Sees x.hash y.hash := fun _ _ => ForkDag.Sees.of_mem_parents
  refine ⟨left.hash, right.hash, ?_, ?_, by decide +kernel, by decide +kernel, by decide +kernel,
    by decide +kernel⟩
  · exact (hparent top aboveLeft (by decide +kernel)).trans
      (hparent aboveLeft left (by decide +kernel))
  · exact (hparent top aboveRight (by decide +kernel)).trans
      (hparent aboveRight right (by decide +kernel))

/-- A network that seals the epoch with every block. -/
def net : Net := ⟨0, 100, 5, HashBytes.zero⟩

/-- No transaction is ever executed. -/
def noReceipts (_ : List Call) (_ : Block) : Execution := ⟨[], 0, 0⟩

lemma serves : Service.Serves net noReceipts config.callback := by
  refine ⟨⟨_, rfl, fun calls block frame cheaters r h => ?_⟩, rfl⟩
  simp only [Service.answer, Service.applyBlock, Service.applyNewState, bind, bind_eq_ok_iff] at h
  obtain ⟨_, -, ⟨sealEpoch, _⟩, ⟨_, -, ⟨sealEpoch', _⟩, ⟨_, -, hnew⟩, hchecked⟩, hr⟩ := h
  cases hnew
  split_ifs at hchecked
  cases hchecked
  cases hr
  simp [App.deliverTxs, App.shouldSealEpoch, net, noReceipts]

end Sealing

theorem ReadRun.lastHeaders_exact_sealing : ∃ c, ReadRun Sealing.config Sealing.start c ∧
    c.LastConfirmed Sealing.config 1 1
      ((lastHeaders Sealing.config c.calls).getLastHeaders 1)[1]? ∧
    ((lastHeaders Sealing.config c.calls).getLastHeaders 1)[3]? = none := by
  obtain ⟨fuel, highest, c, hread, hdecided⟩ := Sealing.exists_sealed
  have hstart : ReadRun Sealing.config Sealing.start Sealing.start := .start
  obtain ⟨hlast, hcheaters⟩ := (ReadRun.lastHeaders_exact Sealing.serviced hstart).2 fuel highest
    Sealing.top.hash c hread hdecided
  have hframe := (keepsHeaders_genesis _ _ _ _ _).frame Sealing.serviced hread hdecided
  exact ⟨c, .next hstart hread hdecided, hlast 1 (Sealing.honest hframe.checked),
    hcheaters 3 Sealing.seesFork c .start⟩

open Sealing

theorem ReadRun.records_confirmed_sealing : ∃ c e, ReadRun config Sealing.start c ∧
    (lastHeaders config c.calls)[(⟨1, 1⟩ : HeaderKey)]? = some e ∧
    c.epochState.epochN = 2 ∧ c.ConfirmsEvent config 1 1 e := by
  obtain ⟨fuel, highest, c, hread, hdecided⟩ := exists_sealed
  have hrun : ReadRun config Sealing.start c := .next .start hread hdecided
  have hframe := (keepsHeaders_genesis _ _ _ _ _).frame serviced hread hdecided
  have hlast : c.LastConfirmed config 1 1
      (lastHeaders config c.calls)[(⟨1, 1⟩ : HeaderKey)]? :=
    hframe.last 1 (honest hframe.checked)
  obtain ⟨block, hblock⟩ := exists_frameDecided_iff.mpr ⟨fuel, highest, hread, hdecided⟩
  have hmarked : Sealing.start.MarkedBy config Sealing.start.epochState [] := fun _ _ => rfl
  have hmark := (FrameDecided.spec rfl hmarked hblock).2.1 top.hash (by decide +kernel)
  have htop : c.ConfirmsEvent config 1 1 top := by
    refine ⟨by decide +kernel, ⟨by decide +kernel, ?_⟩, rfl⟩
    rw [hmark]
    simp [firstFrame, ForkDag.Sees.refl]
  cases hk : (lastHeaders config c.calls)[(⟨1, 1⟩ : HeaderKey)]? with
  | none =>
    rw [hk] at hlast
    exact absurd htop (hlast _)
  | some e =>
    have hrecord := ReadRun.records_confirmed serviced hrun ⟨1, 1⟩ e hk
    exact ⟨c, e, hrun, hk, hframe.epochN, hrecord.2.2⟩

theorem ReadRun.sealed_iff_sealing : ∃ fuel highest sealed c,
    Sealing.start.onFrameDecided config fuel highest 1 top.hash = .ok (sealed, c) ∧
    sealed = true ∧ ∃ calls s block cheaters,
      Service.after net noReceipts calls = .ok (calls, s) ∧ block.index = 1 ∧
      calls ++ [.applyBlock block 1 cheaters] <+: c.calls ∧
      (sealed = true ↔ (∃ u, (config.dag Sealing.start.epochState).SeesFork top.hash u) ∨
        net.maxEpochBlocks.toNat ≤ 1 ∨
        net.maxEpochDuration.toUInt64 ≤ block.time - s.app.getLastVoting.2 ∨
        epochIsForceSealed net.asSigHash (noReceipts calls block).receipts = true) := by
  obtain ⟨fuel, highest, c, hread, hdecided⟩ := exists_sealed
  exact ⟨fuel, highest, true, c, hdecided, rfl, ReadRun.sealed_iff serves .start hread hdecided⟩

theorem Run.calls_inOrder_sealing : ∃ c, Chain.Run config Sealing.start c ∧
    c.epochState.epochN = 2 ∧ Engine.after c.calls = some c.engine := by
  obtain ⟨fuel, highest, c, hread, hdecided⟩ := exists_sealed
  have hrun : Chain.Run config Sealing.start c := .next .start hdecided
  have hframe := (keepsHeaders_genesis _ _ _ _ _).frame serviced hread hdecided
  exact ⟨c, hrun, hframe.epochN, Run.calls_inOrder rfl rfl hrun⟩

end Chain

end Lachesis
