import Mathlib.Algebra.Group.Nat.Defs
import Mathlib.Data.List.Nodup

/-!
# Migrations

A chain of steps brings a database up to date. Each step has an id, made of the names up to it, and
the id of the last step that ran is stored. `Exec` goes back along the chain to the stored id before
anything runs, and runs the steps on its way forward.

The digest is any function. What a step does to the database is any function of the state, which may
fail half way.
-/

namespace Lachesis

/-- `Migration`, as made by `Begin` and `Next`: the first link has no `exec`. -/
inductive Migration (σ ε : Type)
  | first (name : String)
  | step (name : String) (exec : σ → Option ε × σ) (prev : Migration σ ε)

/-- The errors of `Exec`: `unknown version`, or what the step returns. -/
inductive MigrationError (ε : Type)
  | unknownVersion (currID : String)
  | failed (err : ε)
  deriving DecidableEq, Repr

/-- The stored id and the database. -/
structure Migrated (σ : Type) where
  id : String
  db : σ

/-- A digit of `%x`. -/
def hexDigit (n : ℕ) : Char := if n < 10 then Char.ofNat (48 + n) else Char.ofNat (87 + n)

/-- `fmt.Sprintf("%x", bytes)` of 32 bytes. -/
def hexString (digest : BitVec 256) : String :=
  String.ofList ((List.range 64).map fun i => hexDigit (digest.toNat / 16 ^ (63 - i) % 16))

namespace Migration

variable {σ ε : Type}

section Exec

variable (sha256 : String → BitVec 256)

def id : Migration σ ε → String
  | first name => hexString (sha256 name)
  | step name _ prev => hexString (sha256 (prev.id ++ name))

def exec : Migration σ ε → Migrated σ → Option (MigrationError ε) × Migrated σ
  | first _, curr => if curr.id ≠ "" then (some (.unknownVersion curr.id), curr) else (none, curr)
  | step name run prev, curr =>
    let myID := (step name run prev).id sha256
    if curr.id = myID then (none, curr)
    else match prev.exec curr with
      | (some err, curr) => (some err, curr)
      | (none, curr) =>
        match run curr.db with
        | (some err, db) => (some (.failed err), ⟨curr.id, db⟩)
        | (none, db) => (none, ⟨myID, db⟩)

end Exec

/-! ### The steps in order -/

/-- A step with its id. -/
structure Step (σ ε : Type) where
  id : String
  run : σ → Option ε × σ

/-- The steps of a chain, in the order in which they are to run. -/
def steps (sha256 : String → BitVec 256) : Migration σ ε → List (Step σ ε)
  | first _ => []
  | step name run prev => prev.steps sha256 ++ [⟨(step name run prev).id sha256, run⟩]

/-- The steps run one after the other, the id of each stored when it is done. The first that fails
is the last that runs. -/
def runSteps : List (Step σ ε) → Migrated σ → Option (MigrationError ε) × Migrated σ
  | [], curr => (none, curr)
  | st :: rest, curr =>
    match st.run curr.db with
    | (some err, db) => (some (.failed err), ⟨curr.id, db⟩)
    | (none, db) => runSteps rest ⟨st.id, db⟩

/-- All of the steps succeed, one after the other. -/
inductive Succeed : List (Step σ ε) → Migrated σ → Migrated σ → Prop
  | nil (curr : Migrated σ) : Succeed [] curr curr
  | cons {st : Step σ ε} {rest : List (Step σ ε)} {curr curr' : Migrated σ} {db : σ}
      (ran : st.run curr.db = (none, db)) (others : Succeed rest ⟨st.id, db⟩ curr') :
      Succeed (st :: rest) curr curr'

/-- The steps that are left to run with this id stored: all of them, or those after its step. -/
def Pending (sha256 : String → BitVec 256) (m : Migration σ ε) (id : String)
    (pending : List (Step σ ε)) : Prop :=
  id = "" ∧ pending = m.steps sha256 ∨
    ∃ done st, m.steps sha256 = done ++ st :: pending ∧ st.id = id

section Steps

variable {sha256 : String → BitVec 256} {m : Migration σ ε} {curr curr' : Migrated σ}
variable {l l' done rest pending : List (Step σ ε)} {st : Step σ ε}

lemma id_ne_empty (m : Migration σ ε) : m.id sha256 ≠ "" := by
  have hne : ∀ digest, hexString digest ≠ "" := by
    intro digest h
    have hlength := congrArg String.length h
    simp [hexString] at hlength
  cases m with
  | first name => exact hne _
  | step name run prev => exact hne _

lemma runSteps_append_singleton (l : List (Step σ ε)) (st : Step σ ε) (curr : Migrated σ) :
    runSteps (l ++ [st]) curr =
      match runSteps l curr with
      | (some err, curr) => (some err, curr)
      | (none, curr) =>
        match st.run curr.db with
        | (some err, db) => (some (.failed err), ⟨curr.id, db⟩)
        | (none, db) => (none, ⟨st.id, db⟩) := by
  induction l generalizing curr with
  | nil => rfl
  | cons st' l ih =>
    simp only [List.cons_append, runSteps]
    cases st'.run curr.db with
    | mk err db =>
      cases err with
      | some err => rfl
      | none => exact ih _

/-- The last step of a chain: it runs after the others that are left, unless it is the one whose id
is stored. -/
lemma exec_step (name : String) (run : σ → Option ε × σ) (h : curr.id ≠ (step name run m).id sha256)
    (hrun : m.exec sha256 curr = runSteps l curr) :
    (step name run m).exec sha256 curr =
      runSteps (l ++ [⟨(step name run m).id sha256, run⟩]) curr := by
  rw [exec, if_neg h, runSteps_append_singleton, hrun]

lemma exec_of_empty (h : curr.id = "") : m.exec sha256 curr = runSteps (m.steps sha256) curr := by
  induction m with
  | first name => simp [exec, h, steps, runSteps]
  | step name run prev ih =>
    apply exec_step name run _ ih
    rw [h]
    exact (id_ne_empty _).symm

/-- The steps after the current one are run. -/
lemma exec_of_id (hnodup : ((m.steps sha256).map Step.id).Nodup)
    (hsteps : m.steps sha256 = done ++ st :: rest) (hid : st.id = curr.id) :
    m.exec sha256 curr = runSteps rest curr := by
  induction m generalizing rest with
  | first name => simp [steps] at hsteps
  | step name run prev ih =>
    rw [steps] at hsteps hnodup
    obtain rfl | ⟨rest', last, rfl⟩ := rest.eq_nil_or_concat
    · -- the stored id is that of the last step
      obtain ⟨-, hlast⟩ := List.append_inj' hsteps rfl
      obtain rfl : _ = st := List.singleton_inj.mp hlast
      rw [exec, if_pos hid.symm]
      rfl
    · rw [List.concat_eq_append, ← List.cons_append, ← List.append_assoc] at hsteps
      obtain ⟨hprev, hlast⟩ := List.append_inj' hsteps rfl
      obtain rfl : _ = last := List.singleton_inj.mp hlast
      rw [List.map_append, List.nodup_append] at hnodup
      rw [List.concat_eq_append]
      apply exec_step name run _ (ih hnodup.1 hprev)
      intro heq
      apply hnodup.2.2 st.id _ _ (List.mem_singleton.mpr rfl)
      · rw [hid]
        exact heq
      · rw [hprev]
        exact List.mem_map_of_mem (by simp)

lemma exec_of_unknown (hempty : curr.id ≠ "") (hid : ∀ st ∈ m.steps sha256, st.id ≠ curr.id) :
    m.exec sha256 curr = (some (.unknownVersion curr.id), curr) := by
  induction m with
  | first name => rw [exec, if_pos hempty]
  | step name run prev ih =>
    rw [steps] at hid
    have hprev := ih fun st hst => hid st (List.mem_append_left _ hst)
    have hlast := hid _ (List.mem_append_right _ (List.mem_singleton.mpr rfl))
    rw [exec, if_neg (Ne.symm hlast), hprev]

/-! ### What runs -/

lemma Succeed.runSteps_append (h : Succeed done curr curr') (rest : List (Step σ ε)) :
    runSteps (done ++ rest) curr = runSteps rest curr' := by
  induction h with
  | nil => rfl
  | cons ran others ih =>
    rw [List.cons_append, runSteps, ran]
    exact ih

lemma Succeed.id_eq (h : Succeed done curr curr') :
    curr'.id = (done.getLast?.map Step.id).getD curr.id := by
  induction h with
  | nil => rfl
  | cons ran others ih =>
    rename_i rest _ _ _
    rw [ih]
    cases rest with
    | nil => rfl
    | cons st' rest => simp [List.getLast?_cons]

lemma exec_of_pending (hnodup : ((m.steps sha256).map Step.id).Nodup)
    (hpending : m.Pending sha256 curr.id pending) :
    m.exec sha256 curr = runSteps pending curr := by
  obtain ⟨hempty, rfl⟩ | ⟨done, st, hsteps, hid⟩ := hpending
  · exact exec_of_empty hempty
  · exact exec_of_id hnodup hsteps hid

lemma Pending.of_succeed (hpending : m.Pending sha256 curr.id (done ++ rest))
    (h : Succeed done curr curr') : m.Pending sha256 curr'.id rest := by
  have hid := h.id_eq
  obtain rfl | ⟨before, last, rfl⟩ := done.eq_nil_or_concat
  · rw [hid]
    exact hpending
  · rw [List.concat_eq_append, List.getLast?_concat] at hid
    right
    obtain ⟨-, hsteps⟩ | ⟨done', st, hsteps, -⟩ := hpending
    · exact ⟨before, last, by rw [← hsteps]; simp, hid.symm⟩
    · exact ⟨done' ++ st :: before, last, by rw [hsteps]; simp, hid.symm⟩

/-- With pairwise different ids, `Exec` runs the steps that are left in order. If all succeed it
stores the id of the last one. If one fails, those before it have run, the id of the last of these
is stored, and whenever `Exec` is called again it goes on with the one that failed. With an id that
is not of the chain nothing runs. -/
theorem exec_resumes (hnodup : ((m.steps sha256).map Step.id).Nodup) (curr : Migrated σ) :
    (∀ pending, m.Pending sha256 curr.id pending →
      (∀ curr', Succeed pending curr curr' → m.exec sha256 curr = (none, curr') ∧
        curr'.id = (pending.getLast?.map Step.id).getD curr.id) ∧
      (∀ done st rest curr' err db, pending = done ++ st :: rest → Succeed done curr curr' →
        st.run curr'.db = (some err, db) →
          m.exec sha256 curr = (some (.failed err), ⟨curr'.id, db⟩) ∧
          curr'.id = (done.getLast?.map Step.id).getD curr.id ∧
          m.Pending sha256 curr'.id (st :: rest) ∧
          ∀ db', m.exec sha256 ⟨curr'.id, db'⟩ = runSteps (st :: rest) ⟨curr'.id, db'⟩)) ∧
      (curr.id ≠ "" → (∀ st ∈ m.steps sha256, st.id ≠ curr.id) →
        m.exec sha256 curr = (some (.unknownVersion curr.id), curr)) := by
  refine ⟨?_, exec_of_unknown⟩
  intro pending hpending
  have hexec := exec_of_pending hnodup hpending
  constructor
  · intro curr' hsucceed
    have hall := hsucceed.runSteps_append []
    rw [List.append_nil] at hall
    exact ⟨hexec.trans hall, hsucceed.id_eq⟩
  · intro done st rest curr' err db hsplit hsucceed hfails
    subst hsplit
    have hleft := hpending.of_succeed hsucceed
    refine ⟨?_, hsucceed.id_eq, hleft, ?_⟩
    · rw [hexec, hsucceed.runSteps_append, runSteps, hfails]
    · intro db'
      exact exec_of_pending hnodup hleft

end Steps

/-! ### A step that fails once -/

/-- Two steps that count; the second fails on its first try. -/
def twoSteps : Migration ℕ String :=
  .step "b" (fun n => if n = 1 then (some "not yet", n + 10) else (none, n + 1))
    (.step "a" (fun n => (none, n + 1)) (.first "app"))

/-- A digest that tells the ids of `twoSteps` apart. -/
def polynomialDigest (s : String) : BitVec 256 :=
  BitVec.ofNat 256 (s.toList.foldl (fun n c => 31 * n + c.toNat) 7)

theorem exec_resumes_twoSteps :
    ∃ stored, twoSteps.exec polynomialDigest ⟨"", 0⟩ = (some (.failed "not yet"), ⟨stored, 11⟩) ∧
      twoSteps.exec polynomialDigest ⟨stored, 11⟩ = (none, ⟨twoSteps.id polynomialDigest, 12⟩) := by
  have hnodup : ((twoSteps.steps polynomialDigest).map Step.id).Nodup := by decide +kernel
  obtain ⟨hruns, -⟩ := exec_resumes hnodup ⟨"", 0⟩
  obtain ⟨-, hfails⟩ := hruns _ (.inl ⟨rfl, rfl⟩)
  obtain ⟨hfirst, -, -, hagain⟩ := hfails [_] _ [] _ "not yet" 11 rfl (.cons rfl (.nil _)) rfl
  exact ⟨_, hfirst, hagain 11⟩

end Migration

end Lachesis
