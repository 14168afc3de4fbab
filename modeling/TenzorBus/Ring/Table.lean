import TenzorBus.Processes
import TenzorBus.Ring.Script

/-!
# A platform with processes that are started and die

The platform of a process table: which process an actor belongs to, which pids and start tokens
there are. A pid is given to a new process only once its process is dead.

* `Platform.table` : the platform, its liveness check is exact
* `Platform.apart`, `Platform.each` : two ways to share the processes out
* `Script.start`, `Script.kill` : moves of the environment
-/

namespace TenzorBus

open Conc

namespace Processes

variable {T : ProcessTable} {s : Processes} {p : Nat}

/-- `pid_start_token`: the token of the live process that has this pid. -/
def startToken (T : ProcessTable) (s : Processes) (pid : UInt32) : UInt32 :=
  ((s.born.find? fun p => s.alive p && T.pid p == pid).map T.token).getD 0

theorem startToken_eq (hd : s.Distinct T) (h : s.alive p = true) :
    s.startToken T (T.pid p) = T.token p := by
  unfold startToken
  cases hf : s.born.find? fun q => s.alive q && T.pid q == T.pid p with
  | none =>
    have := List.find?_eq_none.mp hf p (by simpa using alive_born h)
    simp [h] at this
  | some q =>
    have hq := List.find?_some hf
    simp only [Bool.and_eq_true, beq_iff_eq] at hq
    rw [hd q p hq.1 h hq.2]
    rfl

/-- Process `p` is started, if its pid is not in use. -/
def start (s : { s : Processes // s.Distinct T }) (p : Nat) : { s : Processes // s.Distinct T } :=
  if h : s.1.born.contains p = false ∧ s.1.check T (T.pid p) 0 = false then
    ⟨_, s.2.step (.start s.1 p h.1 h.2)⟩
  else s

theorem step_start (s : { s : Processes // s.Distinct T }) (p : Nat) :
    Step T s.1 (start s p).1 ∨ start s p = s := by
  unfold start
  split
  · next h => exact .inl (.start s.1 p h.1 h.2)
  · exact .inr rfl

/-- These processes have been started, as far as their pids allow. -/
def started (l : List Nat) : { s : Processes // s.Distinct T } :=
  l.foldl start ⟨{ born := [], died := [] }, fun p _ hp => by cases hp⟩

end Processes

/-- A process is started or dies, or nothing happens. -/
def Platform.table (T : ProcessTable) (proc : Actor → Nat) : Platform where
  Os := { s : Processes // s.Distinct T }
  step s s' := Processes.Step T s.1 s'.1 ∨ s' = s
  alive s p := !s.1.died.contains p
  running s p := s.1.alive p
  alive_of_step := by
    rintro s s' p (h | rfl) hp
    · rcases s with ⟨s, hs⟩
      rcases s' with ⟨s', hs'⟩
      cases h with
      | start q fresh free => exact hp
      | die q =>
        simp only [List.contains_cons, Bool.not_eq_true', Bool.or_eq_false_iff] at hp ⊢
        exact hp.2
    · exact hp
  running_of_step := by
    rintro s s' p (h | rfl) hr hp
    · unfold Processes.alive at hr ⊢
      rw [h.born (Processes.alive_born hr), Bool.true_and]
      exact hp
    · exact hr
  proc := proc
  pid := T.pid
  pidStartToken s pid := s.1.startToken T pid
  pidAliveWithToken s pid token := s.1.check T pid token
  now _ := 0
  nowNs _ := 0
  debugAssertions := false

/-- Pids that are used again after a hundred processes, and start tokens that are not. -/
def ProcessTable.hundred : ProcessTable where
  pid p := UInt32.ofNat (p % 100 + 1)
  token p := UInt32.ofNat (p + 1)
  pid_ne p h := by
    have hlt := Nat.mod_lt p (show 100 > 0 by decide)
    have := congrArg UInt32.toNat h
    rw [UInt32.toNat_ofNat_of_lt' (by simp only [UInt32.size]; omega)] at this
    simp at this

/-- Process 0 has the writers and those who sweep, every consumer has a process of its own. -/
abbrev Platform.apart : Platform :=
  .table .hundred fun
    | .consumer c => c + 1
    | _ => 0

/-- The first four processes have been started. -/
def Platform.apartly : Platform.apart.Os := Processes.started [0, 1, 2, 3]

/-- Every actor has a process of its own. -/
abbrev Platform.each : Platform :=
  .table .hundred fun
    | .consumer c => 3 * c
    | .writer t => 3 * t + 1
    | .sweeper k => 3 * k + 2

/-- These processes have been started. -/
def Platform.eachOf (l : List Nat) : Platform.each.Os := Processes.started l

namespace Script

variable {T : ProcessTable} {proc : Actor → Nat} {L : RingLayout}

/-- The environment does something to the processes. -/
def system (f : (Platform.table T proc).Os → (Platform.table T proc).Os)
    (h : ∀ s, (Platform.table T proc).step s (f s)) :
    System.Move (ringSystem (Platform.table T proc) L) :=
  .env (fun m => ({ m.1 with os := f m.1.os }, m.2)) fun m => ⟨f m.1.os, h _, rfl⟩

/-- Process `p` dies. -/
def kill (p : Nat) : System.Move (ringSystem (Platform.table T proc) L) :=
  system (fun s => ⟨_, s.2.step (.die s.1 p)⟩) fun s => .inl (.die s.1 p)

/-- Process `p` is started, if its pid is not in use. -/
def start (p : Nat) : System.Move (ringSystem (Platform.table T proc) L) :=
  system (fun s => Processes.start s p) fun s => Processes.step_start s p

end Script

end TenzorBus
