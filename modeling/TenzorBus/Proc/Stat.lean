import TenzorBus.Ring.State
import TenzorBus.Word.Text

/-!
# `/proc/<pid>/stat` (`shm`)

What the kernel writes about a process, and what `proc_stat` reads there: the state, and the
*twentieth* field behind it. That is field 23, the size of the process's virtual memory; the start
time is field 22.

* `Stat`, `Stat.line` : the line of a process
* `procStat`, `pidStartToken`, `pidAliveWithToken` : the functions of `shm`
* `Line`, `reads_start_time_iff` : when they read any line of this format as they should
* `procStat_line` : what they read in a line of the kernel
* `Platform.Procfs` : a platform whose liveness check works like this
-/

namespace TenzorBus.Shm

open Text

/-- What the kernel says about a process: the name of its executable, its state, the numbers of
fields 4 to 21, its start time, the size of its virtual memory, and the numbers behind. -/
structure Stat where
  comm : List Char
  state : Char
  state_alpha : state.isAlpha = true
  early : List Int
  early_length : early.length = 18
  starttime : UInt64
  vsize : UInt64
  late : List Int

/-- The fields from the third one on. -/
def Stat.fields (s : Stat) : List (List Char) :=
  [s.state] :: (s.early.map signedDecimal ++
    decimal s.starttime.toNat :: decimal s.vsize.toNat :: s.late.map signedDecimal)

/-- The line. The name stands in parentheses, and may contain any. -/
def Stat.line (s : Stat) (pid : UInt32) : List Char :=
  decimal pid.toNat ++ [' ', '('] ++ s.comm ++ ')' :: (s.fields.flatMap (' ' :: ·) ++ ['\n'])

/-! ## the functions -/

/-- `proc_stat`, of the text of the file. -/
def procStat (text : List Char) : Option (Char × UInt64) := do
  let rest ← afterLast ')' text
  let fields := words rest
  let state ← fields.head?.bind List.head?
  let starttime ← fields.tail[19]?.bind parseU64
  return (state, starttime)

/-- `pid_start_token`, if this is what reading the file gives. -/
def pidStartToken (text : Option (List Char)) : UInt32 :=
  match text.bind procStat with
  | none => 0
  | some (_, start) => start.toUInt32

/-- `pid_alive_with_token`, if this is what reading the file gives, and what `kill(pid, 0)` says
where there is nothing to be read. -/
def pidAliveWithToken (text : Option (List Char)) (kill : Bool) (pid startToken : UInt32) : Bool :=
  if pid = 0 then false
  else
    match text.bind procStat with
    | some (state, start) =>
      if state = 'Z' ∨ state = 'X' ∨ state = 'x' then false
      else startToken = 0 || start.toUInt32 = startToken
    | none => kill

/-! ## what they read -/

/-- A line of the documented format, whatever its fields are: the name of the executable, the
state, fields 4 to 21, the start time, and the fields from 23 on. -/
structure Line where
  comm : List Char
  state : Char
  early : List Int
  early_length : early.length = 18
  starttime : UInt64
  late : List Int
  late_ne : late ≠ []

/-- The numbers from field 4 on, as they stand there. -/
def Line.numbers (l : Line) : List (List Char) :=
  (l.early ++ (l.starttime.toNat : Int) :: l.late).map signedDecimal

/-- What follows the state. -/
def Line.rest (l : Line) : List Char := l.numbers.flatMap (' ' :: ·) ++ ['\n']

def Line.text (l : Line) (pid : UInt32) : List Char :=
  (decimal pid.toNat ++ [' ', '('] ++ l.comm) ++ ')' :: ' ' :: l.state :: l.rest

/-- Field 23. -/
def Line.vsize (l : Line) : Int := l.late.headD 0

/-- The state can be told from the white space around it and from the end of the name. -/
def Line.Plain (l : Line) : Prop := isWhiteSpace l.state = false ∧ l.state ≠ ')'

variable {l : Line} {pid : UInt32}

theorem Line.mem_numbers {w : List Char} (hw : w ∈ l.numbers) : ∃ z, w = signedDecimal z := by
  obtain ⟨z, -, rfl⟩ := List.mem_map.mp hw
  exact ⟨z, rfl⟩

/-- There is no parenthesis behind the state. -/
theorem Line.paren_notMem : ')' ∉ l.rest := by
  intro h
  rcases List.mem_append.mp h with h | h
  · obtain ⟨w, hw, h⟩ := List.mem_flatMap.mp h
    obtain ⟨z, rfl⟩ := l.mem_numbers hw
    rcases List.mem_cons.mp h with h | h
    · exact absurd h (by decide)
    · rcases mem_signedDecimal h with h | h <;> exact absurd h (by decide)
  · exact absurd (List.mem_singleton.mp h) (by decide)

theorem Line.words_rest : words l.rest = l.numbers := by
  refine words_spaced _ fun w hw => ?_
  obtain ⟨z, rfl⟩ := l.mem_numbers hw
  exact signedDecimal_word z

theorem Line.numbers_vsize : l.numbers[19]? = some (signedDecimal l.vsize) := by
  unfold Line.numbers Line.vsize
  rw [List.getElem?_map, List.getElem?_append_right (by simp [l.early_length]), l.early_length]
  cases hl : l.late with
  | nil => exact absurd hl l.late_ne
  | cons z zs => rfl

/-- `proc_stat` finds the state and field 23, if the state is not mistaken for something else. -/
theorem Line.procStat_plain (h : l.Plain) :
    procStat (l.text pid) = (parseU64 (signedDecimal l.vsize)).map fun v => (l.state, v) := by
  have hlast : afterLast ')' (l.text pid) = some (' ' :: l.state :: l.rest) := by
    refine afterLast_append ?_ _
    rw [List.mem_cons, not_or, List.mem_cons, not_or]
    exact ⟨by decide, fun e => h.2 e.symm, l.paren_notMem⟩
  have hwords : words (' ' :: l.state :: l.rest) = [l.state] :: l.numbers := by
    have hall : ∀ w ∈ [l.state] :: l.numbers, w ≠ [] ∧ ∀ c ∈ w, isWhiteSpace c = false := by
      intro w hw
      rcases List.mem_cons.mp hw with rfl | hw
      · refine ⟨List.cons_ne_nil _ _, fun c hc => ?_⟩
        rw [List.mem_singleton.mp hc]
        exact h.1
      · obtain ⟨z, rfl⟩ := l.mem_numbers hw
        exact signedDecimal_word z
    exact words_spaced _ hall
  unfold procStat
  rw [hlast]
  show ((words _).head?.bind List.head?).bind _ = _
  rw [hwords]
  show (l.numbers[19]?.bind parseU64).bind _ = _
  rw [l.numbers_vsize, Option.bind_some]
  cases parseU64 (signedDecimal l.vsize) <;> rfl

/-- Where the state is mistaken for something else, `proc_stat` takes it from a number. -/
theorem Line.procStat_mistaken (h : ¬l.Plain) {c : Char} {v : UInt64}
    (hs : procStat (l.text pid) = some (c, v)) : c ≠ l.state := by
  have hlast : ∃ text, afterLast ')' (l.text pid) = some text ∧ words text = l.numbers := by
    by_cases hparen : l.state = ')'
    · refine ⟨l.rest, ?_, l.words_rest⟩
      have htext : l.text pid =
          (decimal pid.toNat ++ [' ', '('] ++ l.comm ++ [')', ' ']) ++ ')' :: l.rest := by
        unfold Line.text
        rw [hparen]
        simp
      rw [htext]
      exact afterLast_append l.paren_notMem _
    · have hspace : isWhiteSpace l.state = true := by
        by_contra hn
        exact h ⟨by simpa using hn, hparen⟩
      refine ⟨' ' :: l.state :: l.rest, afterLast_append ?_ _, ?_⟩
      · rw [List.mem_cons, not_or, List.mem_cons, not_or]
        exact ⟨by decide, fun e => hparen e.symm, l.paren_notMem⟩
      · rw [words_cons_space (by decide), words_cons_space hspace, l.words_rest]
  obtain ⟨text, hlast, hwords⟩ := hlast
  unfold procStat at hs
  rw [hlast] at hs
  change ((words text).head?.bind List.head?).bind _ = some (c, v) at hs
  obtain ⟨c', hc, hs⟩ := Option.bind_eq_some_iff.mp hs
  obtain ⟨v', -, hs⟩ := Option.bind_eq_some_iff.mp hs
  cases hs
  rw [hwords] at hc
  obtain ⟨w, hw, hc⟩ := Option.bind_eq_some_iff.mp hc
  obtain ⟨z, rfl⟩ := l.mem_numbers (List.mem_of_mem_head? hw)
  have hmem := List.mem_of_mem_head? hc
  rintro rfl
  refine h ⟨(signedDecimal_word z).2 _ hmem, fun he => ?_⟩
  rw [he] at hmem
  rcases mem_signedDecimal hmem with hd | hd <;> exact absurd hd (by decide)

/-- `proc_stat` answers with the state and the start time exactly if the state is plain and field
23 says the same as field 22. -/
theorem Line.procStat_iff (l : Line) (pid : UInt32) :
    procStat (l.text pid) = some (l.state, l.starttime) ↔
      l.Plain ∧ l.vsize = l.starttime.toNat := by
  constructor
  · intro h
    have hplain : l.Plain := by
      by_contra hn
      exact l.procStat_mistaken hn h rfl
    rw [l.procStat_plain hplain] at h
    obtain ⟨v, hv, hpair⟩ := Option.map_eq_some_iff.mp h
    cases hpair
    exact ⟨hplain, parseU64_signedDecimal.mp hv⟩
  · rintro ⟨hplain, hsize⟩
    rw [l.procStat_plain hplain, parseU64_signedDecimal.mpr hsize]
    rfl

/-- What two readings of the line of a process should give, while it lives: state and start time,
the same token, and that it is alive. -/
structure ReadsStartTime (l l' : Line) (pid : UInt32) : Prop where
  first : procStat (l.text pid) = some (l.state, l.starttime)
  second : procStat (l'.text pid) = some (l'.state, l'.starttime)
  token : pidStartToken (some (l'.text pid)) = pidStartToken (some (l.text pid))
  alive : ∀ kill, pidAliveWithToken (some (l'.text pid)) kill pid
    (pidStartToken (some (l.text pid))) = true

/-- Two lines of a process that lives are read as they should be exactly if in both of them the
state is neither white space nor a parenthesis and field 23 is the same number as field 22. -/
theorem reads_start_time_iff {l l' : Line} {pid : UInt32} (hpid : pid ≠ 0)
    (hstart : l'.starttime = l.starttime)
    (hstate : l'.state ≠ 'Z' ∧ l'.state ≠ 'X' ∧ l'.state ≠ 'x') :
    ReadsStartTime l l' pid ↔ (l.Plain ∧ l.vsize = l.starttime.toNat) ∧
      (l'.Plain ∧ l'.vsize = l'.starttime.toNat) := by
  constructor
  · intro h
    exact ⟨(l.procStat_iff pid).mp h.first, (l'.procStat_iff pid).mp h.second⟩
  · rintro ⟨h, h'⟩
    have hfirst := (l.procStat_iff pid).mpr h
    have hsecond := (l'.procStat_iff pid).mpr h'
    have htoken : ∀ k : Line, procStat (k.text pid) = some (k.state, k.starttime) →
        pidStartToken (some (k.text pid)) = k.starttime.toUInt32 := by
      intro k hk
      unfold pidStartToken
      rw [Option.bind_some, hk]
    refine ⟨hfirst, hsecond, ?_, fun kill => ?_⟩
    · rw [htoken l hfirst, htoken l' hsecond, hstart]
    · unfold pidAliveWithToken
      rw [if_neg hpid, Option.bind_some, hsecond, htoken l hfirst, hstart]
      simp [hstate]

/-- A line of a process that has mapped as many bytes as its start time says. -/
def Line.sample (vsize : Int) : Line where
  comm := ['a', ')', ' ', 'S']
  state := 'S'
  early := List.replicate 18 0
  early_length := by decide
  starttime := 4096
  late := vsize :: List.replicate 29 0
  late_ne := List.cons_ne_nil _ _

theorem reads_start_time_sample : ReadsStartTime (.sample 4096) (.sample 4096) 7 :=
  (reads_start_time_iff (by decide) rfl (by decide)).mpr
    ⟨⟨⟨by decide, by decide⟩, by decide⟩, ⟨⟨by decide, by decide⟩, by decide⟩⟩

/-- Usually they are different numbers. -/
theorem misreads_start_time :
    procStat ((Line.sample 8192).text 7) = some ('S', 8192) ∧
      procStat ((Line.sample 8192).text 7) ≠
        some ((Line.sample 8192).state, (Line.sample 8192).starttime) := by
  have hread : procStat ((Line.sample 8192).text 7) = some ('S', 8192) := by
    rw [Line.procStat_plain ⟨by decide, by decide⟩,
      (parseU64_signedDecimal (q := 8192)).mpr (by decide)]
    rfl
  refine ⟨hread, ?_⟩
  rw [hread]
  decide

/-! ## a line of the kernel -/

variable {s : Stat}

theorem ne_paren_of_isAlpha {c : Char} (h : c.isAlpha = true) :
    c ≠ ')' ∧ isWhiteSpace c = false := by
  have hc := isAlpha_iff.mp h
  constructor
  · rintro rfl
    revert hc
    decide
  · simp only [isWhiteSpace, Bool.or_eq_false_iff, Bool.and_eq_false_iff,
      decide_eq_false_iff_not, beq_eq_false_iff_ne]
    omega

def Stat.toLine (s : Stat) : Line where
  comm := s.comm
  state := s.state
  early := s.early
  early_length := s.early_length
  starttime := s.starttime
  late := (s.vsize.toNat : Int) :: s.late
  late_ne := List.cons_ne_nil _ _

theorem Stat.toLine_plain : s.toLine.Plain :=
  (ne_paren_of_isAlpha s.state_alpha).symm

theorem Stat.toLine_text : s.toLine.text pid = s.line pid := by
  unfold Line.text Line.rest Line.numbers Stat.line Stat.fields Stat.toLine
  simp [signedDecimal]

/-- Whatever the name of the executable is, `proc_stat` finds the state and field 23. -/
theorem procStat_line : procStat (s.line pid) = some (s.state, s.vsize) := by
  have hsize : signedDecimal s.toLine.vsize = decimal s.vsize.toNat := rfl
  rw [← s.toLine_text, s.toLine.procStat_plain s.toLine_plain, hsize, parseU64_decimal]
  rfl

/-- A process that can run is found, if the token is that of field 23. -/
theorem pidAliveWithToken_line {kill : Bool} {startToken : UInt32} (hpid : pid ≠ 0)
    (hstate : s.state ≠ 'Z' ∧ s.state ≠ 'X' ∧ s.state ≠ 'x') :
    pidAliveWithToken (some (s.line pid)) kill pid startToken = true ↔
      startToken = 0 ∨ s.vsize.toUInt32 = startToken := by
  unfold pidAliveWithToken
  rw [if_neg hpid, Option.bind_some, procStat_line]
  simp [hstate]

end TenzorBus.Shm

namespace TenzorBus

/-- The platform's liveness check reads `/proc`, where there is a line for every running process.
Its start time does not change as long as it runs. -/
structure Platform.Procfs (P : Platform) where
  read : P.Os → UInt32 → Option (List Char)
  kill : P.Os → UInt32 → Bool
  stat : P.Os → Nat → Shm.Stat
  pid_ne : ∀ p, P.pid p ≠ 0
  startToken : ∀ os pid, P.pidStartToken os pid = Shm.pidStartToken (read os pid)
  check : ∀ os pid token,
    P.pidAliveWithToken os pid token = Shm.pidAliveWithToken (read os pid) (kill os pid) pid token
  line : ∀ os p, P.running os p = true → read os (P.pid p) = some ((stat os p).line (P.pid p))
  ready : ∀ os p, P.running os p = true →
    (stat os p).state ≠ 'Z' ∧ (stat os p).state ≠ 'X' ∧ (stat os p).state ≠ 'x'
  starttime : ∀ os os' p, P.step os os' → P.running os p = true → P.running os' p = true →
    (stat os' p).starttime = (stat os p).starttime

/-- A running process is found under its pid, if the token is 0 or that of field 23. -/
theorem Platform.Procfs.check_running {P : Platform} (F : P.Procfs) {os : P.Os} {p : Nat}
    (h : P.running os p = true) {token : UInt32} :
    P.pidAliveWithToken os (P.pid p) token = true ↔
      token = 0 ∨ (F.stat os p).vsize.toUInt32 = token := by
  rw [F.check, F.line os p h]
  exact Shm.pidAliveWithToken_line (F.pid_ne p) (F.ready os p h)

end TenzorBus
