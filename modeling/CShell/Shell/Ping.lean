/-
  C-Shell formalization — numbers in `ping` and `resume` (`ping.c`,
  `resume.c`).

  Both commands read numbers with `strtol`, which saturates at the ends of
  `long`, test the sign, and then convert to `int` or `pid_t`, which keeps the
  lowest 32 bits.  So a job number, a pid or a timeout of `2 ^ 31` or more is
  taken for another one (`asInt`), and a signal number of `2 ^ 63` or more for
  `2 ^ 63 - 1`.

  `JobTable.named` and `JobTable.aim` say whom a text names, in terms of the
  text and the table: the first listed job with a number, or a listed process.

  `numbers_iff`: for every text of digits and every job table, each of the
  five places where the commands take a number uses the number the text
  denotes, and signals what it denotes if the table has it, iff the number is
  small enough or the table has nothing it could be mistaken for.
-/
import CShell.Lib.Ints
import CShell.Lib.Text
import CShell.Shell.JobControl

namespace CShell

open Lib

/-! ## The commands -/

/-- Whom `kill` is for: `kill(-pgid, ..)` or `kill(pid, ..)`. -/
inductive Target where
  | group (pgid : ℕ)
  | process (pid : ℤ)
  deriving DecidableEq, Repr

/-- A call of `kill`. -/
structure Kill where
  target : Target
  signal : ℤ
  deriving DecidableEq, Repr

/-- `MAX_PING_JOBS` and `MAX_RESUME_JOBS`. -/
def maxListed : ℕ := 100

/-- The loop that looks for a job by its number. -/
def findJob (jobs : List ActivityJob) (number : ℤ) : Option ActivityJob :=
  jobs.find? fun j => j.jobNumber = number

/-- `parse_non_negative`. -/
def parseNonNegative (s : Str) : Option ℤ :=
  if s = [] then none
  else
    let (v, rest) := strtol s
    if rest ≠ [] ∨ v < 0 then none else some v

/-- What `exec_ping` does: the signal it sends, the line it prints, and its result. -/
structure PingResult where
  sent : Option Kill
  out : Str
  code : ℕ
  deriving DecidableEq, Repr

/-- `exec_ping` rejects its arguments. -/
def pingInvalid : PingResult := ⟨none, str "ping: invalid syntax\n", 1⟩

/-- `exec_ping` finds no job or process. -/
def pingNotFound : PingResult := ⟨none, str "ping: no such process found\n", 1⟩

/-- The line for a signal that was sent. -/
def sentText (sigTyped : ℤ) (target : Str) : Str :=
  str "Sent signal " ++ printInt sigTyped ++ str " to " ++ target ++ str "\n"

/-- `ping %number signal`. -/
def pingJob (jobs : List ActivityJob) (target : Str) (sigTyped : ℤ) : PingResult :=
  let (jobNumber, rest) := strtol target.tail
  if target.tail = [] ∨ rest ≠ [] ∨ jobNumber ≤ 0 then pingInvalid
  else
    match findJob jobs (toInt32 jobNumber) with
    | none => pingNotFound
    | some job =>
      ⟨some ⟨.group job.pgid, toInt32 (sigTyped % 64)⟩, sentText sigTyped target, 0⟩

/-- `ping pid signal`. -/
def pingProcess (jobs : List ActivityJob) (target : Str) (sigTyped : ℤ) : PingResult :=
  let (pidVal, rest) := strtol target
  if rest ≠ [] ∨ pidVal ≤ 0 then pingInvalid
  else
    let targetPid := toInt32 pidVal
    if jobs.any fun j => j.procs.any fun p => (p.pid : ℤ) = targetPid then
      ⟨some ⟨.process targetPid, toInt32 (sigTyped % 64)⟩, sentText sigTyped (printInt pidVal), 0⟩
    else pingNotFound

/-- `exec_ping` for the values of the tokens after the command. -/
def execPing (args : List Str) (t : JobTable) : PingResult :=
  match args with
  | [target, sig] =>
    match parseNonNegative sig with
    | none => pingInvalid
    | some sigTyped =>
      let jobs := t.getActivities maxListed
      if target.head? = some (byte '%') then pingJob jobs target sigTyped
      else pingProcess jobs target sigTyped
  | _ => pingInvalid

/-- The arguments of `resume`: the job number as a `long`, whether the job is resumed in the
    foreground, and the timeout as an `int`, 0 for none. -/
structure ResumeArgs where
  jobNumber : ℤ
  isFg : Bool
  timeoutSeconds : ℤ
  deriving DecidableEq, Repr

/-- `--timeout seconds`, the only thing that may follow `fg`. -/
def parseTimeout (isFg : Bool) : List Str → Option ℤ
  | [] => some 0
  | opt :: args =>
    if !isFg || opt ≠ str "--timeout" then none
    else
      match args with
      | [] => none
      | s :: more =>
        let (t, rest) := strtol s
        if rest ≠ [] ∨ t ≤ 0 then none
        else if more ≠ [] then none
        else some (toInt32 t)

/-- `fg` or `bg`, and what follows. -/
def parseMode : List Str → Option (Bool × ℤ)
  | mode :: args =>
    if mode = str "fg" then (parseTimeout true args).map (true, ·)
    else if mode = str "bg" then (parseTimeout false args).map (false, ·)
    else none
  | [] => none

/-- The arguments of `exec_resume`; `none` if it rejects them. -/
def parseResume : List Str → Option ResumeArgs
  | job :: args =>
    if job.head? ≠ some (byte '%') ∨ job.tail = [] then none
    else
      let (jobNumber, rest) := strtol job.tail
      if rest ≠ [] ∨ jobNumber ≤ 0 then none
      else (parseMode args).map fun m => ⟨jobNumber, m.1, m.2⟩
  | [] => none

/-- `SIGCONT`. -/
def sigCont : ℤ := 18

/-- `SIGTERM`. -/
def sigTerm : ℤ := 15

/-- What `exec_resume` does: the signals it sends, the seconds `alarm` is called with, the table
    it leaves, what it writes to `stdout` and `stderr`, and its result. -/
structure ResumeResult where
  sent : List Kill
  alarm : Option ℤ
  table : JobTable
  out : Str
  err : Str
  code : ℕ
  deriving DecidableEq, Repr

/-- The text by which `resume` names the job. -/
def ActivityJob.title (job : ActivityJob) : Str :=
  if job.cmdline ≠ [] then job.cmdline.take 255
  else
    match job.procs with
    | p :: _ => p.name.take 255
    | [] => []

/-- `exec_resume` from where it has found the job; `waited` is what
    `wait_foreground_group_timeout` returns. -/
def resumeJob (job : ActivityJob) (isFg : Bool) (timeoutSeconds : ℤ) (t : JobTable)
    (waited : WaitResult) : ResumeResult :=
  if job.procs = [] then
    ⟨[], none, t.removeJobByNumber job.jobNumber, str "resume: job has already finished\n", [], 0⟩
  else
    let cont : Kill := ⟨.group job.pgid, sigCont⟩
    let t := t.markJobRunning job.jobNumber
    let number := decimal job.jobNumber
    if !isFg then
      ⟨[cont], none, t, [], str "[" ++ number ++ str "] + Running " ++ job.title ++ str "\n", 0⟩
    else
      let alarm := if 0 < timeoutSeconds then some timeoutSeconds else none
      let out := job.title ++ str "\n"
      match waited with
      | .timedOut =>
        ⟨[cont, ⟨.group job.pgid, sigTerm⟩], alarm, t.removeJobByNumber job.jobNumber,
          out ++ str "resume: job timed out\n", [], 0⟩
      | .stopped =>
        ⟨[cont], alarm, t.markJobStopped job.jobNumber, out,
          str "\n[" ++ number ++ str "] + Stopped " ++ job.title ++ str "\n", 0⟩
      | .signaled => ⟨[cont], alarm, t.removeJobByNumber job.jobNumber, out ++ str "\n", [], 0⟩
      | .finished => ⟨[cont], alarm, t.removeJobByNumber job.jobNumber, out, [], 0⟩

/-- `exec_resume` for the values of the tokens after the command. -/
def execResume (args : List Str) (t : JobTable) (waited : WaitResult) : ResumeResult :=
  match parseResume args with
  | none => ⟨[], none, t, str "resume: invalid syntax\n", [], 1⟩
  | some a =>
    match findJob (t.getActivities maxListed) (toInt32 a.jobNumber) with
    | none => ⟨[], none, t, str "resume: no such job\n", [], 1⟩
    | some job => resumeJob job a.isFg a.timeoutSeconds t waited

/-! ## Digits -/

/-- What `(int)strtol(..)` makes of the digits of `n`. -/
def asInt (n : ℕ) : ℤ := toInt32 (saturate n)

theorem asInt_of_lt {n : ℕ} (h : n < 2 ^ 31) : asInt n = n := by
  have hn : saturate n = n := by
    unfold saturate
    omega
  rw [asInt, hn]
  exact toInt32_eq_self (by omega) (by omega)

theorem asInt_lt (n : ℕ) : asInt n < 2 ^ 31 := toInt32_lt _

/-- A text of decimal digits. -/
structure Digits (s : Str) : Prop where
  ne_nil : s ≠ []
  digits : ∀ b ∈ s, isDigit b

section
variable {t : JobTable} {s sig target : Str} {jobs : List ActivityJob} {v : ℤ}

theorem Digits.strtol (hs : Digits s) : strtol s = (saturate (digitsValue s), []) :=
  strtol_digits hs.ne_nil hs.digits

theorem Digits.head_ne (hs : Digits s) : s.head? ≠ some (byte '%') := by
  obtain ⟨b, t, rfl⟩ := List.exists_cons_of_ne_nil hs.ne_nil
  have hb := hs.digits b List.mem_cons_self
  rintro ⟨⟩
  revert hb
  decide

theorem Digits.parseNonNegative (hs : Digits s) :
    parseNonNegative s = some (saturate (digitsValue s)) := by
  have hpos : ¬saturate (digitsValue s) < 0 := by
    unfold saturate
    omega
  simp [CShell.parseNonNegative, hs.ne_nil, hs.strtol, hpos]

theorem saturate_le_zero {n : ℕ} : saturate n ≤ 0 ↔ n = 0 := by
  unfold saturate
  omega

/-! ## What is signalled -/

/-- `%` and the digits. -/
def jobName (s : Str) : Str := byte '%' :: s

/-- The jobs the commands see. -/
def JobTable.listed (t : JobTable) : List ActivityJob := t.getActivities maxListed

/-- The number of a text that is `%` and a positive number, as a `long`. -/
def numeral (target : Str) : Option ℤ :=
  if target.head? = some (byte '%') ∧ target.tail ≠ [] ∧ (strtol target.tail).2 = [] ∧
      0 < (strtol target.tail).1 then
    some (strtol target.tail).1
  else none

/-- The job a text names: the first one with the number after the `%`, as an `int`. -/
def JobTable.named (t : JobTable) (target : Str) : Option ActivityJob :=
  (numeral target).bind fun number => findJob t.listed (toInt32 number)

/-- Whom a text names: the group of a job, or a process of one of the jobs. -/
def JobTable.aim (t : JobTable) (target : Str) : Option Target :=
  if target.head? = some (byte '%') then (t.named target).map (.group ·.pgid)
  else if (strtol target).2 = [] ∧ 0 < (strtol target).1 ∧
      ∃ j ∈ t.listed, ∃ p ∈ j.procs, (p.pid : ℤ) = toInt32 (strtol target).1 then
    some (.process (toInt32 (strtol target).1))
  else none

theorem pingJob_sent (h : target.head? = some (byte '%')) :
    (pingJob t.listed target v).sent =
      (t.named target).map fun j => ⟨.group j.pgid, toInt32 (v % 64)⟩ := by
  simp only [pingJob, JobTable.named, numeral, h, true_and]
  by_cases hc : target.tail = [] ∨ (strtol target.tail).2 ≠ [] ∨ (strtol target.tail).1 ≤ 0
  · have hnot : ¬(target.tail ≠ [] ∧ (strtol target.tail).2 = [] ∧ 0 < (strtol target.tail).1) := by
      rintro ⟨h₁, h₂, h₃⟩
      rcases hc with hc | hc | hc
      · exact h₁ hc
      · exact hc h₂
      · omega
    rw [if_pos hc, if_neg hnot]
    rfl
  · push Not at hc
    rw [if_neg (by push Not; exact hc), if_pos hc, Option.bind_some]
    split <;> rename_i hfind <;> rw [hfind] <;> rfl

theorem pingProcess_sent (h : target.head? ≠ some (byte '%')) :
    (pingProcess t.listed target v).sent =
      (t.aim target).map fun k => ⟨k, toInt32 (v % 64)⟩ := by
  simp only [pingProcess, JobTable.aim, if_neg h]
  by_cases hc : (strtol target).2 ≠ [] ∨ (strtol target).1 ≤ 0
  · have hnot : ¬((strtol target).2 = [] ∧ 0 < (strtol target).1 ∧
        ∃ j ∈ t.listed, ∃ p ∈ j.procs, (p.pid : ℤ) = toInt32 (strtol target).1) := by
      rintro ⟨h₁, h₂, -⟩
      rcases hc with hc | hc
      · exact hc h₁
      · omega
    rw [if_pos hc, if_neg hnot]
    rfl
  · push Not at hc
    rw [if_neg (by push Not; exact hc)]
    split <;> rename_i hany
    · rw [if_pos ⟨hc.1, hc.2, by simpa using hany⟩]
      rfl
    · rw [if_neg fun h => hany (by simpa using h.2.2)]
      rfl

/-- **What `ping` sends**: its signal to whom its first argument names. -/
theorem execPing_sent (hv : parseNonNegative sig = some v) :
    (execPing [target, sig] t).sent = (t.aim target).map fun k => ⟨k, toInt32 (v % 64)⟩ := by
  simp only [execPing, hv]
  by_cases h : target.head? = some (byte '%')
  · rw [if_pos h, JobTable.aim, if_pos h, Option.map_map]
    exact pingJob_sent h
  · rw [if_neg h]
    exact pingProcess_sent h

/-- A signal number that is rejected. -/
theorem execPing_invalid (hv : parseNonNegative sig = none) :
    (execPing [target, sig] t).sent = none := by
  simp only [execPing, hv]
  rfl

theorem Digits.named (hs : Digits s) : t.named (jobName s) =
    if digitsValue s = 0 then none else findJob t.listed (asInt (digitsValue s)) := by
  have hpos : (0 < saturate (digitsValue s)) ↔ digitsValue s ≠ 0 := by
    rw [Ne, ← saturate_le_zero]
    omega
  simp only [JobTable.named, numeral, jobName, List.head?_cons, List.tail_cons, ne_eq, hs.ne_nil,
    hs.strtol, not_false_eq_true, true_and, hpos]
  by_cases h0 : digitsValue s = 0
  · simp [h0]
  · rw [if_pos h0, if_neg h0]
    rfl

theorem Digits.aim_job (hs : Digits s) : t.aim (jobName s) =
    if digitsValue s = 0 then none
    else (findJob t.listed (asInt (digitsValue s))).map (.group ·.pgid) := by
  rw [JobTable.aim, if_pos (by rfl), hs.named]
  split <;> rfl

theorem Digits.aim_process (hs : Digits s) : t.aim s =
    if digitsValue s ≠ 0 ∧
        ∃ j ∈ t.listed, ∃ p ∈ j.procs, (p.pid : ℤ) = asInt (digitsValue s) then
      some (.process (asInt (digitsValue s)))
    else none := by
  have hpos : (0 < saturate (digitsValue s)) ↔ digitsValue s ≠ 0 := by
    rw [Ne, ← saturate_le_zero]
    omega
  rw [JobTable.aim, if_neg hs.head_ne, hs.strtol]
  simp only [true_and, hpos]
  rfl

theorem parseTimeout_digits (hs : Digits s) : parseTimeout true [str "--timeout", s] =
    if digitsValue s = 0 then none else some (asInt (digitsValue s)) := by
  simp [parseTimeout, hs.strtol, saturate_le_zero, asInt]

variable {waited : WaitResult} {job : ActivityJob} {isFg : Bool} {timeout : ℤ}

theorem resumeJob_sent_eq_nil : (resumeJob job isFg timeout t waited).sent = [] ↔ job.procs = [] := by
  unfold resumeJob
  split
  · simp [*]
  · cases isFg
    · simp [*]
    · cases waited <;> simp [*]

theorem cont_mem_resumeJob (h : job.procs ≠ []) :
    ⟨.group job.pgid, sigCont⟩ ∈ (resumeJob job isFg timeout t waited).sent := by
  unfold resumeJob
  rw [if_neg h]
  cases isFg
  · exact List.mem_cons_self
  · cases waited <;> exact List.mem_cons_self

theorem target_of_resumeJob {k : Kill} (h : k ∈ (resumeJob job isFg timeout t waited).sent) :
    k.target = .group job.pgid := by
  unfold resumeJob at h
  split at h
  · cases h
  · cases isFg
    · simp at h
      rw [h]
    · cases waited <;> simp at h
      · rw [h]
      · rw [h]
      · rw [h]
      · rcases h with h | h <;> rw [h]

theorem resumeJob_alarm (h : job.procs ≠ []) : (resumeJob job true timeout t waited).alarm =
    if 0 < timeout then some timeout else none := by
  unfold resumeJob
  rw [if_neg h]
  cases waited <;> rfl

end

/-! ## The number that is meant -/

/-- The numbers and pids of a table fit in an `int`. -/
def JobTable.Fits (t : JobTable) : Prop :=
  ∀ j ∈ t.jobs, j.jobNumber < 2 ^ 31 ∧ ∀ p ∈ j.procs, p.pid < 2 ^ 31

section
variable (t : JobTable) (s : Str)

/-- `ping %s` signals only the group of a job with this number; and if there is one, the first of
    them, whatever the number of the signal. -/
structure PingsJob : Prop where
  only : ∀ sig k, (execPing [jobName s, sig] t).sent = some k →
    ∃ j ∈ t.listed, j.jobNumber = digitsValue s ∧ k.target = .group j.pgid
  reaches : ∀ sig j, Digits sig → 0 < digitsValue s → findJob t.listed (digitsValue s) = some j →
    ∃ k, (execPing [jobName s, sig] t).sent = some k ∧ k.target = .group j.pgid

/-- `ping s` signals only a process with this pid; and if there is one, it does. -/
structure PingsProcess : Prop where
  only : ∀ sig k, (execPing [s, sig] t).sent = some k →
    ∃ j ∈ t.listed, ∃ p ∈ j.procs, p.pid = digitsValue s ∧ k.target = .process p.pid
  reaches : ∀ sig, Digits sig → 0 < digitsValue s →
    (∃ j ∈ t.listed, ∃ p ∈ j.procs, p.pid = digitsValue s) →
      ∃ k, (execPing [s, sig] t).sent = some k ∧ k.target = .process (digitsValue s)

/-- `resume %s` continues only a job with this number; and if there is one that has a process
    left, the first of them. -/
structure ResumesJob : Prop where
  only : ∀ args waited, ∀ k ∈ (execResume (jobName s :: args) t waited).sent,
    ∃ j ∈ t.listed, j.jobNumber = digitsValue s ∧ k.target = .group j.pgid
  reaches : ∀ mode waited j, mode = str "fg" ∨ mode = str "bg" → 0 < digitsValue s →
    findJob t.listed (digitsValue s) = some j → j.procs ≠ [] →
      ⟨.group j.pgid, sigCont⟩ ∈ (execResume [jobName s, mode] t waited).sent

/-- `resume job fg --timeout s`, for a job with a process left, arms an alarm of this many seconds;
    for any other text it signals nothing and arms none. -/
def ArmsAlarm (job : Str) : Prop := 0 < digitsValue s → ∀ waited,
  let r := execResume [job, str "fg", str "--timeout", s] t waited
  if (t.named job).any (·.procs ≠ []) then r.alarm = some (digitsValue s : ℤ)
  else r.sent = [] ∧ r.alarm = none

/-- `ping target s` sends this signal, up to multiples of 64, to whom the target names, and
    nothing if it names nobody. -/
def SendsSignal (target : Str) : Prop :=
  (execPing [target, s] t).sent = (t.aim target).map fun k => ⟨k, (digitsValue s % 64 : ℕ)⟩

end

section
variable {t : JobTable} {s : Str}

theorem JobTable.Fits.listed (ht : t.Fits) {j : ActivityJob} (hj : j ∈ t.listed) :
    j.jobNumber < 2 ^ 31 ∧ ∀ p ∈ j.procs, p.pid < 2 ^ 31 := by
  obtain ⟨i, hi, rfl⟩ := List.mem_map.1 hj
  obtain ⟨hn, hp⟩ := ht i (List.mem_of_mem_filter (List.mem_of_mem_take hi))
  refine ⟨hn, fun p hmem => ?_⟩
  obtain ⟨q, hq, rfl⟩ := List.mem_map.1 hmem
  exact hp q (List.mem_of_mem_filter (List.mem_of_mem_take hq))

theorem of_findJob {jobs : List ActivityJob} {n : ℤ} {j : ActivityJob}
    (h : findJob jobs n = some j) : j ∈ jobs ∧ j.jobNumber = n := by
  have hnum := List.find?_some h
  exact ⟨List.mem_of_find?_eq_some h, of_decide_eq_true hnum⟩

theorem exists_findJob {jobs : List ActivityJob} {j : ActivityJob} (hj : j ∈ jobs) :
    ∃ j', findJob jobs j.jobNumber = some j' := by
  rw [← Option.isSome_iff_exists, findJob, List.find?_isSome]
  exact ⟨j, hj, decide_eq_true rfl⟩

/-- A number that does not fit is taken for one that does. -/
theorem ne_of_asInt {n : ℕ} (hn : 2 ^ 31 ≤ n) : asInt n ≠ n := by
  have := asInt_lt n
  omega

theorem sent_of_execPing {target sig : Str} {k : Kill}
    (hk : (execPing [target, sig] t).sent = some k) : t.aim target = some k.target := by
  cases hv : parseNonNegative sig with
  | none =>
    rw [execPing_invalid hv] at hk
    cases hk
  | some v =>
    rw [execPing_sent hv] at hk
    obtain ⟨a, ha, rfl⟩ := Option.map_eq_some_iff.1 hk
    exact ha

theorem Digits.execPing {sig target : Str} {a : Target} (hsig : Digits sig)
    (ha : t.aim target = some a) :
    ∃ k, (execPing [target, sig] t).sent = some k ∧ k.target = a :=
  ⟨_, by rw [execPing_sent hsig.parseNonNegative, ha]; rfl, rfl⟩

/-- A signal number for which `ping` goes on. -/
theorem digits_nine : Digits (str "9") := ⟨by decide, List.all_eq_true.1 (by decide)⟩

theorem pingsJob_iff (ht : t.Fits) (hs : Digits s) : PingsJob t s ↔
    digitsValue s < 2 ^ 31 ∨ ∀ j ∈ t.listed, j.jobNumber ≠ asInt (digitsValue s) := by
  constructor
  · intro h
    by_contra hnot
    push Not at hnot
    obtain ⟨hbig, j, hj, hnum⟩ := hnot
    obtain ⟨j', hfind⟩ := exists_findJob hj
    rw [hnum] at hfind
    have haim : t.aim (jobName s) = some (.group j'.pgid) := by
      rw [hs.aim_job, if_neg (by omega), hfind]
      rfl
    obtain ⟨k, hk, -⟩ := digits_nine.execPing haim
    obtain ⟨j'', hj'', hn, -⟩ := h.only (str "9") k hk
    have := (ht.listed hj'').1
    omega
  · intro h
    constructor
    · intro sig k hk
      have haim := sent_of_execPing hk
      rw [hs.aim_job] at haim
      split at haim
      · cases haim
      · obtain ⟨j, hfind, htarget⟩ := Option.map_eq_some_iff.1 haim
        obtain ⟨hj, hnum⟩ := of_findJob hfind
        rcases h with hsmall | hnone
        · rw [asInt_of_lt hsmall] at hnum
          exact ⟨j, hj, hnum, htarget.symm⟩
        · exact absurd hnum (hnone j hj)
    · intro sig j hsig hpos hfind
      obtain ⟨hj, hnum⟩ := of_findJob hfind
      have hsmall : digitsValue s < 2 ^ 31 := by
        have := (ht.listed hj).1
        omega
      refine hsig.execPing ?_
      rw [hs.aim_job, if_neg (by omega), asInt_of_lt hsmall, hfind]
      rfl

theorem pingsProcess_iff (ht : t.Fits) (hs : Digits s) : PingsProcess t s ↔
    digitsValue s < 2 ^ 31 ∨
      ∀ j ∈ t.listed, ∀ p ∈ j.procs, (p.pid : ℤ) ≠ asInt (digitsValue s) := by
  constructor
  · intro h
    by_contra hnot
    push Not at hnot
    obtain ⟨hbig, j, hj, p, hp, hpid⟩ := hnot
    have haim : t.aim s = some (.process (asInt (digitsValue s))) := by
      rw [hs.aim_process, if_pos ⟨by omega, j, hj, p, hp, hpid⟩]
    obtain ⟨k, hk, -⟩ := digits_nine.execPing haim
    obtain ⟨j', hj', p', hp', hn, -⟩ := h.only (str "9") k hk
    have := (ht.listed hj').2 p' hp'
    omega
  · intro h
    constructor
    · intro sig k hk
      have haim := sent_of_execPing hk
      rw [hs.aim_process] at haim
      split at haim
      case isFalse => cases haim
      case isTrue hfound =>
        obtain ⟨-, j, hj, p, hp, hpid⟩ := hfound
        have htarget : k.target = .process p.pid := by
          rw [hpid]
          exact (Option.some.inj haim).symm
        rcases h with hsmall | hnone
        · rw [asInt_of_lt hsmall] at hpid
          exact ⟨j, hj, p, hp, Int.ofNat.inj hpid, htarget⟩
        · exact absurd hpid (hnone j hj p hp)
    · rintro sig hsig hpos ⟨j, hj, p, hp, hpid⟩
      have hsmall : digitsValue s < 2 ^ 31 := hpid ▸ (ht.listed hj).2 p hp
      refine hsig.execPing ?_
      rw [hs.aim_process, asInt_of_lt hsmall, if_pos]
      exact ⟨by omega, j, hj, p, hp, by rw [hpid]⟩

theorem parseResume_cons (job : Str) (args : List Str) : parseResume (job :: args) =
    (numeral job).bind fun number => (parseMode args).map fun m => ⟨number, m.1, m.2⟩ := by
  simp only [parseResume, numeral]
  by_cases hjob : job.head? = some (byte '%') ∧ job.tail ≠ []
  · by_cases hnum : (strtol job.tail).2 = [] ∧ 0 < (strtol job.tail).1
    · rw [if_neg (by push Not; exact hjob), if_neg (by push Not; exact hnum),
        if_pos ⟨hjob.1, hjob.2, hnum.1, hnum.2⟩]
      rfl
    · rw [if_neg (by push Not; exact hjob), if_pos (by rw [not_and_or] at hnum; simpa using hnum),
        if_neg fun h => hnum h.2.2]
      rfl
  · rw [if_pos (by rw [not_and_or] at hjob; simpa using hjob), if_neg fun h => hjob ⟨h.1, h.2.1⟩]
    rfl

/-- **What `resume` does**: nothing, or it resumes the job its first argument names. -/
theorem execResume_cons (job : Str) (args : List Str) (waited : WaitResult) :
    (∃ m j, parseMode args = some m ∧ t.named job = some j ∧
      execResume (job :: args) t waited = resumeJob j m.1 m.2 t waited) ∨
    (parseMode args = none ∨ t.named job = none) ∧
      (execResume (job :: args) t waited).sent = [] ∧
      (execResume (job :: args) t waited).alarm = none := by
  simp only [execResume, parseResume_cons, JobTable.named]
  cases numeral job with
  | none => exact .inr ⟨.inr rfl, rfl, rfl⟩
  | some number =>
    cases parseMode args with
    | none => exact .inr ⟨.inl rfl, rfl, rfl⟩
    | some m =>
      simp only [Option.bind_some, Option.map_some, JobTable.listed]
      cases findJob (t.getActivities maxListed) (toInt32 number) with
      | none => exact .inr ⟨.inr rfl, rfl, rfl⟩
      | some j => exact .inl ⟨m, j, rfl, rfl, rfl⟩

theorem mem_execResume {args : List Str} {waited : WaitResult} {job : Str} {k : Kill}
    (hk : k ∈ (execResume (job :: args) t waited).sent) :
    ∃ j, t.named job = some j ∧ j.procs ≠ [] ∧ k.target = .group j.pgid := by
  rcases execResume_cons (t := t) job args waited with ⟨m, j, -, hj, heq⟩ | ⟨-, hsent, -⟩
  · rw [heq] at hk
    exact ⟨j, hj, mt resumeJob_sent_eq_nil.2 (List.ne_nil_of_mem hk), target_of_resumeJob hk⟩
  · rw [hsent] at hk
    cases hk

/-- A job with a process left is continued. -/
theorem cont_mem_execResume {args : List Str} {m : Bool × ℤ} (hm : parseMode args = some m)
    {job : Str} {j : ActivityJob} (hj : t.named job = some j) (hprocs : j.procs ≠ [])
    (waited : WaitResult) :
    ⟨.group j.pgid, sigCont⟩ ∈ (execResume (job :: args) t waited).sent := by
  rcases execResume_cons (t := t) job args waited with ⟨m', j', -, hj', heq⟩ | ⟨hnone, -⟩
  · obtain rfl : j = j' := Option.some.inj (hj.symm.trans hj')
    rw [heq]
    exact cont_mem_resumeJob hprocs
  · rw [hm, hj] at hnone
    rcases hnone with hnone | hnone <;> cases hnone

theorem resumesJob_iff (ht : t.Fits) (hs : Digits s) : ResumesJob t s ↔
    digitsValue s < 2 ^ 31 ∨
      ∀ j, findJob t.listed (asInt (digitsValue s)) = some j → j.procs = [] := by
  constructor
  · intro h
    by_contra hnot
    push Not at hnot
    obtain ⟨hbig, j, hfind, hprocs⟩ := hnot
    have hnamed : t.named (jobName s) = some j := by
      rw [hs.named, if_neg (by omega), hfind]
    have hmode : parseMode [str "bg"] = some (false, 0) := by decide
    obtain ⟨j', hj', hn, -⟩ := h.only [str "bg"] .finished _
      (cont_mem_execResume hmode hnamed hprocs .finished)
    have := (ht.listed hj').1
    omega
  · intro h
    constructor
    · intro args waited k hk
      obtain ⟨j, hnamed, hprocs, htarget⟩ := mem_execResume hk
      rw [hs.named] at hnamed
      split at hnamed
      · cases hnamed
      · obtain ⟨hj, hnum⟩ := of_findJob hnamed
        rcases h with hsmall | hnone
        · rw [asInt_of_lt hsmall] at hnum
          exact ⟨j, hj, hnum, htarget⟩
        · exact absurd (hnone j hnamed) hprocs
    · intro mode waited j hmode hpos hfind hprocs
      obtain ⟨hj, hnum⟩ := of_findJob hfind
      have hsmall : digitsValue s < 2 ^ 31 := by
        have := (ht.listed hj).1
        omega
      have hnamed : t.named (jobName s) = some j := by
        rw [hs.named, if_neg (by omega), asInt_of_lt hsmall, hfind]
      rcases hmode with rfl | rfl
      · exact cont_mem_execResume (show parseMode [str "fg"] = some (true, 0) by decide) hnamed
          hprocs waited
      · exact cont_mem_execResume (show parseMode [str "bg"] = some (false, 0) by decide) hnamed
          hprocs waited

theorem Digits.parseMode_timeout (hs : Digits s) : parseMode [str "fg", str "--timeout", s] =
    if digitsValue s = 0 then none else some (true, asInt (digitsValue s)) := by
  rw [parseMode, if_pos rfl, parseTimeout_digits hs]
  split <;> rfl

/-- The alarm of a job that is resumed in the foreground with a timeout. -/
theorem execResume_timeout (hs : Digits s) (h0 : 0 < digitsValue s) (job : Str)
    (waited : WaitResult) :
    let r := execResume [job, str "fg", str "--timeout", s] t waited
    if (t.named job).any (·.procs ≠ []) then
      r.alarm = if 0 < asInt (digitsValue s) then some (asInt (digitsValue s)) else none
    else r.sent = [] ∧ r.alarm = none := by
  have hmode := hs.parseMode_timeout
  rw [if_neg (by omega)] at hmode
  rcases execResume_cons (t := t) job _ waited with ⟨m, j, hm, hj, heq⟩ | ⟨hnone, hsent, halarm⟩
  · obtain rfl : m = _ := Option.some.inj (hm.symm.trans hmode)
    simp only [hj, Option.any_some, heq]
    by_cases hprocs : j.procs = []
    · rw [if_neg (by simp [hprocs])]
      exact ⟨resumeJob_sent_eq_nil.2 hprocs, by rw [resumeJob, if_pos hprocs]⟩
    · rw [if_pos (by simp [hprocs])]
      exact resumeJob_alarm hprocs
  · have hnamed : t.named job = none := hnone.resolve_left (by rw [hmode]; exact Option.some_ne_none _)
    simp only [hnamed, Option.any_none]
    rw [if_neg (by decide)]
    exact ⟨hsent, halarm⟩

theorem armsAlarm_iff (hs : Digits s) (job : Str) : ArmsAlarm t s job ↔ digitsValue s < 2 ^ 31 ∨
    ∀ j, t.named job = some j → j.procs = [] := by
  constructor
  · intro h
    by_contra hnot
    push Not at hnot
    obtain ⟨hbig, j, hj, hprocs⟩ := hnot
    have hany : (t.named job).any (·.procs ≠ []) := by
      rw [hj]
      simpa using hprocs
    have halarm := h (by omega) .finished
    have hcode := execResume_timeout (t := t) hs (by omega) job .finished
    simp only [hany, if_true] at halarm hcode
    rw [hcode] at halarm
    split at halarm
    · exact ne_of_asInt hbig (Option.some.inj halarm)
    · cases halarm
  · intro h h0 waited
    have hcode := execResume_timeout (t := t) hs h0 job waited
    rcases h with hsmall | hnone
    · have hpos : (0 : ℤ) < digitsValue s := by omega
      simp only [asInt_of_lt hsmall, if_pos hpos] at hcode
      exact hcode
    · -- the job named, if any, has finished: the alarm does not matter
      have hany : ¬(t.named job).any (·.procs ≠ []) := by
        cases hj : t.named job with
        | none => decide
        | some j => simp [hnone j hj]
      simp only [hany] at hcode ⊢
      exact hcode

theorem saturate_mod_64 (n : ℕ) :
    saturate n % 64 = if n < 2 ^ 63 then (n % 64 : ℕ) else 63 := by
  unfold saturate
  split <;> omega

theorem sendsSignal_iff (hs : Digits s) (target : Str) : SendsSignal t s target ↔
    digitsValue s < 2 ^ 63 ∨ digitsValue s % 64 = 63 ∨ t.aim target = none := by
  have hsignal : toInt32 (saturate (digitsValue s) % 64) =
      if digitsValue s < 2 ^ 63 then ((digitsValue s % 64 : ℕ) : ℤ) else 63 := by
    rw [saturate_mod_64]
    split
    · exact toInt32_eq_self (by omega) (by omega)
    · rfl
  rw [SendsSignal, execPing_sent hs.parseNonNegative, hsignal]
  constructor
  · intro h
    by_contra hnot
    push Not at hnot
    obtain ⟨hbig, hmod, haim⟩ := hnot
    obtain ⟨a, ha⟩ := Option.ne_none_iff_exists'.1 haim
    rw [ha, if_neg (by omega)] at h
    have hk := congrArg Kill.signal (Option.some.inj h)
    simp only at hk
    omega
  · rintro (h | h | h)
    · rw [if_pos h]
    · split
      · rfl
      · rw [h]
        rfl
    · rw [h]
      rfl

/-- **Numbers mean what they say, if they are small enough.**  For a text of digits and a job table:
    `ping %s` and `resume %s` are for the job with this number, and `ping s` for the process with
    this pid, iff the number is less than `2 ^ 31` or the `int` it is taken for is not in the
    table; the alarm of `resume .. --timeout s` has this many seconds iff there are less than
    `2 ^ 31` or the job named has no process left; and `ping .. s` sends this signal iff its number
    is less than `2 ^ 63` or 63 up to multiples of 64, or the target names nobody. -/
theorem numbers_iff (ht : t.Fits) (hs : Digits s) :
    (PingsJob t s ↔ digitsValue s < 2 ^ 31 ∨
      ∀ j ∈ t.listed, j.jobNumber ≠ asInt (digitsValue s)) ∧
    (PingsProcess t s ↔ digitsValue s < 2 ^ 31 ∨
      ∀ j ∈ t.listed, ∀ p ∈ j.procs, (p.pid : ℤ) ≠ asInt (digitsValue s)) ∧
    (ResumesJob t s ↔ digitsValue s < 2 ^ 31 ∨
      ∀ j, findJob t.listed (asInt (digitsValue s)) = some j → j.procs = []) ∧
    (∀ job, ArmsAlarm t s job ↔ digitsValue s < 2 ^ 31 ∨
      ∀ j, t.named job = some j → j.procs = []) ∧
    ∀ target, SendsSignal t s target ↔ digitsValue s < 2 ^ 63 ∨ digitsValue s % 64 = 63 ∨
      t.aim target = none :=
  ⟨pingsJob_iff ht hs, pingsProcess_iff ht hs, resumesJob_iff ht hs, armsAlarm_iff hs,
    sendsSignal_iff hs⟩

/-- A table with one stopped job, of one process. -/
def oneStopped : JobTable :=
  JobTable.empty.registerStoppedJob 4242 [(4242, str "vi")] (str "vi")

theorem numbers_iff_oneStopped :
    oneStopped.Fits ∧ Digits (str "1") ∧ PingsJob oneStopped (str "1") ∧
      ArmsAlarm oneStopped (str "1") (str "%1") ∧ SendsSignal oneStopped (str "1") (str "%1") := by
  have ht : oneStopped.Fits := by
    unfold JobTable.Fits
    decide
  have hs : Digits (str "1") := ⟨by decide, List.all_eq_true.1 (by decide)⟩
  have hone : digitsValue (str "1") = 1 := by decide
  obtain ⟨hping, -, -, halarm, hsignal⟩ := numbers_iff ht hs
  exact ⟨ht, hs, hping.2 (.inl (by omega)), (halarm _).2 (.inl (by omega)),
    (hsignal _).2 (.inl (by omega))⟩

/-- `ping %4294967297 9` signals job 1, `resume %1 fg --timeout 2147483648` waits without an alarm,
    and `ping %1 9223372036854775808` sends signal 63 instead of 0. -/
theorem numbers_wrap :
    (execPing [str "%4294967297", str "9"] oneStopped).sent = some ⟨.group 4242, 9⟩ ∧
    (execResume [str "%1", str "fg", str "--timeout", str "2147483648"] oneStopped .finished).sent =
      [⟨.group 4242, sigCont⟩] ∧
    (execResume [str "%1", str "fg", str "--timeout", str "2147483648"] oneStopped .finished).alarm =
      none ∧
    (execPing [str "%1", str "9223372036854775808"] oneStopped).sent = some ⟨.group 4242, 63⟩ := by
  decide

end

end CShell
