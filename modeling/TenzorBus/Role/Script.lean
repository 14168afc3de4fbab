import TenzorBus.Role.Claim

/-!
# Scripts for the producer role

Three processes with different pids, and what they may do as moves of a script.
-/

namespace TenzorBus.Role.Script

open Conc

def table : ProcessTable where
  pid p := if p = 0 then 1 else if p = 1 then 2 else 3
  token p := UInt32.ofNat p
  pid_ne p := by
    by_cases h0 : p = 0
    · rw [if_pos h0]; decide
    · by_cases h1 : p = 1
      · rw [if_neg h0, if_pos h1]; decide
      · rw [if_neg h0, if_neg h1]; decide

def handle (proc attachment id : Nat) : Handle := { proc, attachment, id }

/-- A process is started; if its pid is in use nothing comes of it. -/
def start (p : Nat) : System.Move (roleSystem table) :=
  .env
    (fun m =>
      if m.1.procs.born.contains p = false ∧ m.1.procs.check table (table.pid p) 0 = false then
        ({ m.1 with procs := { m.1.procs with born := p :: m.1.procs.born } }, m.2)
      else ({ m.1 with procs := { m.1.procs with died := p :: m.1.procs.died } }, m.2))
    fun m => by
      by_cases h : m.1.procs.born.contains p = false ∧
          m.1.procs.check table (table.pid p) 0 = false
      · rw [if_pos h]; exact ⟨_, .start _ p h.1 h.2, rfl⟩
      · rw [if_neg h]; exact ⟨_, .die _ p, rfl⟩

def die (p : Nat) : System.Move (roleSystem table) :=
  .env (fun m => ({ m.1 with procs := { m.1.procs with died := p :: m.1.procs.died } }, m.2))
    fun _ => ⟨_, .die _ p, rfl⟩

/-- An operation of the thread that has the place `x`, if it may start it now. -/
def call (x : Handle) (may : State → Bool) (q : RoleM Unit)
    (h : ∀ s, may s = true → Starts table s x q) : System.Move (roleSystem table) :=
  .start x (fun s => if s.procs.born.contains x.proc = true ∧ may s = true then some q else none)
    fun s q' hq => by
      obtain ⟨hp, hq⟩ := Option.ite_none_right_eq_some.mp hq
      cases hq
      exact ⟨hp.1, h s hp.2⟩

def attach (p a : Nat) : System.Move (roleSystem table) :=
  call (handle p a 0) (fun s => !s.attached p a) _ fun s h =>
    .attach (handle p a 0) (show s.attached p a = false by simpa using h)

def claim (p a k : Nat) : System.Move (roleSystem table) :=
  call (handle p a k) (fun s => s.attached p a && decide (s.phase (handle p a k) = .none)) _
    fun s h => by
      simp only [Bool.and_eq_true, decide_eq_true_eq] at h
      exact .producer (handle p a k) h.1 h.2

def release (p a k : Nat) : System.Move (roleSystem table) :=
  call (handle p a k) (fun s => decide (s.phase (handle p a k) = .live)) _
    fun _ h => .drop (handle p a k) (of_decide_eq_true h)

/-- An operation from its start to its end. -/
def whole (x : Handle) (move : System.Move (roleSystem table)) :
    List (System.Move (roleSystem table)) := [move, .steps x 20]

/-- The processes that have not died run. -/
def running (x : Handle) (s : State) : Bool := !s.procs.died.contains x.proc

/-- Where a script leads. -/
theorem reach (ok : State × Ghost → State × Ghost → Prop)
    (chk : State × Ghost → State × Ghost → Bool) (hchk : ∀ m m', chk m m' = true → ok m m')
    (moves : List (System.Move (roleSystem table))) (test : RoleConfig → Bool)
    (h : (System.play running chk moves RoleConfig.init).any test = true) :
    ∃ d, (roleSystem table).Reach ok (· = RoleConfig.init) d ∧ test d = true :=
  System.Reach.play (fun _ _ h => by simpa [running, roleSystem] using h) hchk moves (.init rfl) h

end TenzorBus.Role.Script
