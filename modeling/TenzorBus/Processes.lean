import Mathlib.Data.UInt

/-!
# Processes and their pids

A process table over time. Processes are told apart by numbers that are never reused; a pid may be
given to a new process once its process is dead.

* `ProcessTable` : the pid and the start token of each process
* `Processes` : which processes have been started, and which of them have died
* `Processes.check` : an exact `pid_alive_with_token`
-/

namespace TenzorBus

/-- The pid of each process, and its start time as far as 32 bits tell it. -/
structure ProcessTable where
  pid : Nat → UInt32
  token : Nat → UInt32
  pid_ne : ∀ p, pid p ≠ 0

/-- The processes that have been started and those that have died. -/
structure Processes where
  born : List Nat
  died : List Nat

namespace Processes

variable (T : ProcessTable) (s : Processes)

def alive (p : Nat) : Bool := s.born.contains p && !s.died.contains p

/-- `pid_alive_with_token`: a live process has this pid, and this start token if one is given. -/
def check (pid token : UInt32) : Bool :=
  s.born.any fun p => s.alive p && T.pid p == pid && (token == 0 || T.token p == token)

/-- Live processes have different pids. -/
def Distinct : Prop := ∀ p q, s.alive p = true → s.alive q = true → T.pid p = T.pid q → p = q

/-- A process is started under a pid that is not in use, or a process dies. -/
inductive Step : Processes → Processes → Prop
  | start (s : Processes) (p : Nat) (fresh : s.born.contains p = false)
      (free : s.check T (T.pid p) 0 = false) : Step s { s with born := p :: s.born }
  | die (s : Processes) (p : Nat) : Step s { s with died := p :: s.died }

variable {T s} {s' : Processes} {p q : Nat}

theorem alive_born (h : s.alive p = true) : s.born.contains p = true :=
  (Bool.and_eq_true_iff.mp h).1

/-- A live process is found by its pid. -/
theorem check_pid (h : s.alive p = true) : s.check T (T.pid p) 0 = true := by
  refine List.any_eq_true.mpr ⟨p, by simpa using alive_born h, by simp [h]⟩

/-- What an exact check says. -/
theorem check_iff {pid token : UInt32} : s.check T pid token = true ↔
    ∃ p, s.alive p = true ∧ T.pid p = pid ∧ (token = 0 ∨ T.token p = token) := by
  unfold check
  rw [List.any_eq_true]
  constructor
  · rintro ⟨p, -, hp⟩
    exact ⟨p, by simpa [and_assoc] using hp⟩
  · rintro ⟨p, hp, hpid, htok⟩
    refine ⟨p, by simpa using alive_born hp, ?_⟩
    simp [hp, hpid, htok]

/-- The started stay started. -/
theorem Step.born (h : Step T s s') (hp : s.born.contains p = true) :
    s'.born.contains p = true := by
  cases h with
  | start q fresh free => simp only [List.contains_cons, hp, Bool.or_true]
  | die q => exact hp

/-- Whoever is alive was alive before, or has just been started. -/
theorem Step.alive (h : Step T s s') (hp : s'.alive p = true) :
    s.alive p = true ∨ s.born.contains p = false := by
  cases h with
  | start q fresh free =>
    by_cases hq : p = q
    · exact .inr (hq ▸ fresh)
    · exact .inl (by simpa [Processes.alive, hq] using hp)
  | die q =>
    simp only [Processes.alive, List.contains_cons, Bool.and_eq_true, Bool.not_eq_true',
      Bool.or_eq_false_iff] at hp ⊢
    exact .inl ⟨hp.1, hp.2.2⟩

theorem Distinct.step (hd : s.Distinct T) (h : Step T s s') : s'.Distinct T := by
  intro p q hp hq he
  cases h with
  | start r fresh free =>
    -- the new process has the pid of no other
    have new : ∀ x, x ≠ r → ({ s with born := r :: s.born } : Processes).alive x = true →
        T.pid x ≠ T.pid r := fun x hx hl hpid => by
      have hl : s.alive x = true := by simpa [Processes.alive, hx] using hl
      rw [← hpid, check_pid hl] at free
      cases free
    by_cases hpr : p = r <;> by_cases hqr : q = r
    · rw [hpr, hqr]
    · exact absurd (hpr ▸ he.symm) (new q hqr hq)
    · exact absurd (hqr ▸ he) (new p hpr hp)
    · exact hd p q (by simpa [Processes.alive, hpr] using hp)
        (by simpa [Processes.alive, hqr] using hq) he
  | die r =>
    have old : ∀ x, ({ s with died := r :: s.died } : Processes).alive x = true →
        s.alive x = true := fun x hx =>
      ((Step.die (T := T) s r).alive hx).resolve_right fun hn => by
        have := alive_born hx
        simp only at this
        rw [hn] at this
        cases this
    exact hd p q (old p hp) (old q hq) he

end Processes

end TenzorBus
