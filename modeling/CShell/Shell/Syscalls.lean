/-
  C-Shell formalization — what `snoop` counts.

  `run_syscall_trace` knows a stop by its signal only: a SIGTRAP is a syscall
  stop, entry and exit in turn, and the first one an entry.  The model runs its
  loop over a stream of stops, which says of each what it is.

  * `Trace.loop_count`: a call is recorded for every other SIGTRAP stop, with
    the number read there;
  * `Alternates.taken`: without SIGTRAPs among the signals these are the entry
    stops, or, if the tracee is in a syscall at the start, the exit stops;
  * `counts_iff`: so every entry is counted and every signal delivered iff no
    signal is a SIGTRAP, and the tracee starts outside a syscall or its exits
    have the numbers of its entries.
-/
import CShell.Shell.Snoop

namespace CShell

/-! ## The statistics -/

/-- `MAX_SYSCALLS` -/
def maxSyscalls : ℕ := 450

/-- An element of `stats`; its `number` is the index. -/
structure SyscallStat where
  count : ℕ
  totalTime : ℤ
  /-- order of first occurrence, -1 = unused -/
  order : ℤ

/-- The table of the system calls. -/
structure Stats where
  stat : Fin maxSyscalls → SyscallStat
  orderCounter : ℤ

/-- `reset_stats`. -/
def resetStats : Stats := ⟨fun _ => ⟨0, 0, -1⟩, 0⟩

/-- `record_syscall`; a number outside of the table is dropped. -/
def Stats.recordSyscall (s : Stats) (num elapsed : ℤ) : Stats :=
  if h : num < 0 ∨ num ≥ maxSyscalls then s
  else
    let i : Fin maxSyscalls := ⟨num.toNat, by omega⟩
    let st := s.stat i
    let new := st.order = -1
    { stat := Function.update s.stat i
        { count := st.count + 1
          totalTime := st.totalTime + elapsed
          order := if new then s.orderCounter else st.order }
      orderCounter := if new then s.orderCounter + 1 else s.orderCounter }

/-- `stats` after these calls of `record_syscall`. -/
def Stats.ofRecords (records : List (ℤ × ℤ)) : Stats :=
  records.foldl (fun s r => s.recordSyscall r.1 r.2) resetStats

theorem Stats.recordSyscall_count (s : Stats) (num elapsed : ℤ) (n : Fin maxSyscalls) :
    ((s.recordSyscall num elapsed).stat n).count =
      (s.stat n).count + if num = (n.val : ℤ) then 1 else 0 := by
  unfold recordSyscall
  split
  · rename_i h
    have hn : num ≠ (n.val : ℤ) := by
      have := n.isLt
      omega
    rw [if_neg hn, Nat.add_zero]
  · rename_i h
    by_cases hn : num = (n.val : ℤ)
    · subst hn
      simp
    · have hne : n ≠ ⟨num.toNat, by omega⟩ := by
        intro he
        have := congrArg Fin.val he
        simp only at this
        omega
      simp [Function.update_of_ne hne, hn]

theorem Stats.ofRecords_count (records : List (ℤ × ℤ)) (n : Fin maxSyscalls) :
    ((ofRecords records).stat n).count = records.countP (·.1 = (n.val : ℤ)) := by
  suffices h : ∀ s : Stats, ((records.foldl (fun s r => s.recordSyscall r.1 r.2) s).stat n).count =
      (s.stat n).count + records.countP (·.1 = (n.val : ℤ)) by
    simpa [ofRecords, resetStats] using h resetStats
  induction records with
  | nil => simp
  | cons r records ih =>
    intro s
    rw [List.foldl_cons, ih, recordSyscall_count, List.countP_cons]
    simp only [decide_eq_true_eq]
    omega

/-! ## The stops -/

/-- A stop of the tracee, with the `orig_rax` that `PTRACE_GETREGS` reads
    there: at the entry to a syscall its number. -/
inductive PtraceStop where
  | entry (n : Fin maxSyscalls)
  | exit (regs : ℤ)
  | signal (sig : ℕ) (regs : ℤ)
  deriving DecidableEq

namespace PtraceStop

/-- `WSTOPSIG` of its status. -/
def sig : PtraceStop → ℕ
  | .signal sig _ => sig
  | _ => sigtrap

/-- The number `PTRACE_GETREGS` gives at the stop. -/
def regs : PtraceStop → ℤ
  | .entry n => (n.val : ℤ)
  | .exit regs | .signal _ regs => regs

/-- The stop is the entry of a system call. -/
def isEntry : PtraceStop → Bool
  | .entry _ => true
  | _ => false

/-- The stop is the exit of a system call. -/
def isExit : PtraceStop → Bool
  | .exit _ => true
  | _ => false

/-- The signal the tracee stopped for, which it is to get when it goes on. -/
def delivers : PtraceStop → ℕ
  | .signal sig _ => sig
  | _ => 0

/-- A signal-delivery stop that has the status of a syscall stop. -/
def IsTrap : PtraceStop → Prop
  | .signal sig _ => sig = sigtrap
  | _ => False

instance : DecidablePred IsTrap
  | .signal sig _ => inferInstanceAs (Decidable (sig = sigtrap))
  | .entry _ | .exit _ => inferInstanceAs (Decidable False)

end PtraceStop

/-- Entry and exit stops alternate, the next one being an exit if the tracee is
    in a syscall. -/
def Alternates : Bool → List PtraceStop → Prop
  | _, [] => True
  | inSyscall, .entry _ :: stops => inSyscall = false ∧ Alternates true stops
  | inSyscall, .exit _ :: stops => inSyscall = true ∧ Alternates false stops
  | inSyscall, .signal .. :: stops => Alternates inSyscall stops

/-- How often `n` is the number of an entry stop. -/
def entryCount (n : Fin maxSyscalls) (stops : List PtraceStop) : ℕ :=
  (stops.filter (·.isEntry)).countP (·.regs = (n.val : ℤ))

/-- How many exits there are of a system call. -/
def exitCount (n : Fin maxSyscalls) (stops : List PtraceStop) : ℕ :=
  (stops.filter (·.isExit)).countP (·.regs = (n.val : ℤ))

/-! ## The loop -/

/-- How the stream ends. -/
structure TraceEnd where
  killed : Bool
  time : ℤ

/-- The status `waitpid` reports at the end. -/
def TraceEnd.status (e : TraceEnd) : TraceStatus := if e.killed then .signaled else .exited

/-- The loop of `run_syscall_trace` over these stops with their times: the
    signals it passes to `PTRACE_SYSCALL`, and its locals at the end. -/
def Trace.loop (e : TraceEnd) : List (PtraceStop × ℤ) → Trace → List ℕ × Trace
  | [], t => ([t.resumeSig], ({ t with resumeSig := 0 }.got e.status e.time none).1)
  | (stop, now) :: stops, t =>
    let (t', more) := { t with resumeSig := 0 }.got (.stopped stop.sig) now (some stop.regs)
    if more then
      let (sigs, t'') := t'.loop e stops
      (t.resumeSig :: sigs, t'')
    else ([t.resumeSig], t')

/-- `run_syscall_trace`. -/
def runSyscallTrace (stops : List (PtraceStop × ℤ)) (e : TraceEnd) : List ℕ × Trace :=
  Trace.start.loop e stops

/-- `stats` when it returns. -/
def syscallStats (stops : List (PtraceStop × ℤ)) (e : TraceEnd) : Stats :=
  .ofRecords (runSyscallTrace stops e).2.records

/-- The stops at which the loop reads a number. -/
def taken : Bool → List PtraceStop → List PtraceStop
  | _, [] => []
  | expectingEntry, stop :: stops =>
    if stop.sig ≠ sigtrap then taken expectingEntry stops
    else if expectingEntry then stop :: taken false stops
    else taken true stops

/-- The calls recorded for `n`. -/
def Trace.recorded (n : Fin maxSyscalls) (t : Trace) : ℕ :=
  t.records.countP (·.1 = (n.val : ℤ))

/-- Those recorded if the tracee ends now. -/
def Trace.calls (n : Fin maxSyscalls) (t : Trace) : ℕ :=
  t.recorded n + if t.expectingEntry = false ∧ t.currentSyscallNum = (n.val : ℤ) then 1 else 0

namespace Trace

theorem got_end (t : Trace) (e : TraceEnd) (n : Fin maxSyscalls) :
    ({ t with resumeSig := 0 }.got e.status e.time none).1.recorded n = t.calls n := by
  have hg : ∀ t : Trace, t.got e.status e.time none =
      (if t.expectingEntry then t else t.recordSyscall e.time, false) := by
    intro t
    unfold TraceEnd.status
    split <;> rfl
  rw [hg]
  cases h : t.expectingEntry <;> simp [calls, recorded, recordSyscall, List.countP_cons, h]

/-- What a stop does: a signal is kept for the next `PTRACE_SYSCALL`, and a
    SIGTRAP changes the phase and, if it is taken for an entry, adds a call. -/
theorem got_stopped (t : Trace) (stop : PtraceStop) (now : ℤ) (n : Fin maxSyscalls) :
    ∃ t', { t with resumeSig := 0 }.got (.stopped stop.sig) now (some stop.regs) = (t', true) ∧
      if stop.sig ≠ sigtrap then
        t'.resumeSig = stop.sig ∧ t'.expectingEntry = t.expectingEntry ∧ t'.calls n = t.calls n
      else
        t'.resumeSig = 0 ∧ t'.expectingEntry = !t.expectingEntry ∧
          t'.calls n = t.calls n +
            if t.expectingEntry = true ∧ stop.regs = (n.val : ℤ) then 1 else 0 := by
  by_cases hs : stop.sig = sigtrap
  · cases h : t.expectingEntry with
    | true =>
      refine ⟨{ t with
          currentSyscallNum := stop.regs
          entryTime := now
          expectingEntry := false
          resumeSig := 0 }, by simp [got, hs], ?_⟩
      simp [hs, calls, recorded, h]
    | false =>
      refine ⟨{ t.recordSyscall now with expectingEntry := true, resumeSig := 0 },
        by simp [got, hs, h, recordSyscall], ?_⟩
      simp [hs, calls, recorded, recordSyscall, List.countP_cons, h]
  · refine ⟨{ t with resumeSig := stop.sig }, by simp [got, hs], ?_⟩
    simp [hs, calls, recorded]

theorem loop_count (e : TraceEnd) (n : Fin maxSyscalls) (stops : List (PtraceStop × ℤ))
    (t : Trace) :
    (t.loop e stops).2.recorded n =
      t.calls n + (taken t.expectingEntry (stops.map (·.1))).countP (·.regs = (n.val : ℤ)) := by
  induction stops generalizing t with
  | nil => exact got_end t e n
  | cons s stops ih =>
    obtain ⟨stop, now⟩ := s
    obtain ⟨t', hg, h⟩ := got_stopped t stop now n
    have hl : (t.loop e ((stop, now) :: stops)).2 = (t'.loop e stops).2 := by
      simp [loop, hg]
    rw [hl, ih t', List.map_cons, taken]
    by_cases hs : stop.sig = sigtrap
    · rw [if_neg (not_not.2 hs)] at h ⊢
      obtain ⟨-, hp, hc⟩ := h
      rw [hp, hc]
      cases t.expectingEntry with
      | true =>
        simp only [true_and, if_true, Bool.not_true, List.countP_cons, decide_eq_true_eq]
        omega
      | false => simp
    · rw [if_pos hs] at h ⊢
      rw [h.2.1, h.2.2]

/-- The signal passed on after each stop. -/
theorem loop_sigs (e : TraceEnd) (stops : List (PtraceStop × ℤ)) (t : Trace) :
    (t.loop e stops).1 =
      t.resumeSig :: stops.map fun s => if s.1.sig ≠ sigtrap then s.1.sig else 0 := by
  induction stops generalizing t with
  | nil => rfl
  | cons s stops ih =>
    obtain ⟨stop, now⟩ := s
    -- the number plays no part here
    obtain ⟨t', hg, h⟩ := got_stopped t stop now ⟨0, by decide⟩
    have hl : (t.loop e ((stop, now) :: stops)).1 = t.resumeSig :: (t'.loop e stops).1 := by
      simp [loop, hg]
    rw [hl, ih t', List.map_cons]
    split at h
    · rw [h.1, if_pos ‹_›]
    · rw [h.1, if_neg ‹_›]

end Trace

/-! ## Which stops are taken for entries -/

/-- Without SIGTRAPs among the signals the stops taken for entries are all of
    one kind. -/
theorem Alternates.taken {inSyscall : Bool} {stops : List PtraceStop}
    (h : Alternates inSyscall stops) (hs : ∀ s ∈ stops, ¬ s.IsTrap) :
    taken (!inSyscall) stops = stops.filter (·.isEntry) ∧
      CShell.taken inSyscall stops = stops.filter (·.isExit) := by
  induction stops generalizing inSyscall with
  | nil => exact ⟨rfl, rfl⟩
  | cons s stops ih =>
    have hs' : ∀ s ∈ stops, ¬ s.IsTrap := fun s hm => hs s (List.mem_cons_of_mem _ hm)
    cases s with
    | entry n =>
      obtain ⟨rfl, h⟩ := h
      have ih := ih h hs'
      exact ⟨congrArg _ ih.1, ih.2⟩
    | exit r =>
      obtain ⟨rfl, h⟩ := h
      have ih := ih h hs'
      exact ⟨ih.1, congrArg _ ih.2⟩
    | signal sig r =>
      have hsig : sig ≠ sigtrap := hs _ List.mem_cons_self
      have ih := ih (show Alternates inSyscall stops from h) hs'
      simpa [CShell.taken, PtraceStop.sig, hsig, PtraceStop.isEntry, PtraceStop.isExit] using ih

/-! ## The property -/

/-- The signals passed on are those of the signal-delivery stops iff none of
    these is taken for a syscall stop. -/
theorem delivered_iff (stops : List (PtraceStop × ℤ)) (e : TraceEnd) :
    (runSyscallTrace stops e).1 = 0 :: stops.map (·.1.delivers) ↔ ∀ s ∈ stops, ¬ s.1.IsTrap := by
  rw [runSyscallTrace, Trace.loop_sigs]
  have hd : ∀ s : PtraceStop, (if s.sig ≠ sigtrap then s.sig else 0) = s.delivers ↔ ¬ s.IsTrap := by
    intro s
    cases s with
    | entry n => simp [PtraceStop.sig, PtraceStop.delivers, PtraceStop.IsTrap]
    | exit r => simp [PtraceStop.sig, PtraceStop.delivers, PtraceStop.IsTrap]
    | signal sig r =>
      by_cases h : sig = sigtrap
      · subst h
        simp [PtraceStop.sig, PtraceStop.delivers, PtraceStop.IsTrap, sigtrap]
      · simp [PtraceStop.sig, PtraceStop.delivers, PtraceStop.IsTrap, h]
  simp only [Trace.start, List.cons.injEq, true_and, List.map_inj_left, hd]

/-- The numbers that are counted. -/
theorem syscallStats_count (stops : List (PtraceStop × ℤ)) (e : TraceEnd) (n : Fin maxSyscalls) :
    ((syscallStats stops e).stat n).count =
      (taken true (stops.map (·.1))).countP (·.regs = (n.val : ℤ)) := by
  rw [syscallStats, Stats.ofRecords_count, ← Trace.recorded, runSyscallTrace, Trace.loop_count]
  simp [Trace.start, Trace.calls, Trace.recorded]

/-- **The counts are those of the entries, and every signal is delivered**, iff no signal is a SIGTRAP
    and the trace starts outside of a system call, or every system call has as many exits as
    entries. -/
theorem counts_iff (inSyscall : Bool) (stops : List (PtraceStop × ℤ)) (e : TraceEnd)
    (h : Alternates inSyscall (stops.map (·.1))) :
    ((∀ n, ((syscallStats stops e).stat n).count = entryCount n (stops.map (·.1))) ∧
        (runSyscallTrace stops e).1 = 0 :: stops.map (·.1.delivers)) ↔
      (∀ s ∈ stops, ¬ s.1.IsTrap) ∧
        (inSyscall = false ∨
          ∀ n, exitCount n (stops.map (·.1)) = entryCount n (stops.map (·.1))) := by
  rw [delivered_iff, and_comm]
  apply and_congr_right
  intro hs
  have ht := h.taken (by simpa using hs)
  simp only [syscallStats_count]
  cases inSyscall with
  | false =>
    -- the phases agree
    rw [Bool.not_false] at ht
    rw [ht.1]
    exact iff_of_true (fun n => rfl) (.inl rfl)
  | true =>
    rw [ht.2]
    exact (or_iff_right (by decide)).symm

/-- A program that reads once and leaves. -/
def readAndExit : List (PtraceStop × ℤ) :=
  [(.entry ⟨0, by decide⟩, 10), (.exit 0, 15), (.signal 17 (-1), 20), (.entry ⟨231, by decide⟩, 30)]

theorem counts_iff_readAndExit :
    Alternates false (readAndExit.map (·.1)) ∧
      (∀ n, ((syscallStats readAndExit ⟨false, 31⟩).stat n).count =
        entryCount n (readAndExit.map (·.1))) ∧
      (runSyscallTrace readAndExit ⟨false, 31⟩).1 = [0, 0, 0, 17, 0] := by
  have h : Alternates false (readAndExit.map (·.1)) := by simp [readAndExit, Alternates]
  exact ⟨h, (counts_iff false readAndExit ⟨false, 31⟩ h).2 ⟨by decide, .inl rfl⟩⟩

/-- After an `execve` (59) the kernel raises SIGTRAP, which is taken for an
    entry: `execve` is counted twice, `exit_group` (231) not at all, and the
    signal is dropped. -/
theorem execve_counted_twice :
    let stops : List (PtraceStop × ℤ) :=
      [(.entry ⟨59, by decide⟩, 10), (.exit 59, 15), (.signal sigtrap 59, 20),
        (.entry ⟨0, by decide⟩, 30), (.exit 0, 35), (.entry ⟨231, by decide⟩, 40)]
    Alternates false (stops.map (·.1)) ∧
      ((syscallStats stops ⟨false, 41⟩).stat ⟨59, by decide⟩).count = 2 ∧
      entryCount ⟨59, by decide⟩ (stops.map (·.1)) = 1 ∧
      ((syscallStats stops ⟨false, 41⟩).stat ⟨231, by decide⟩).count = 0 ∧
      entryCount ⟨231, by decide⟩ (stops.map (·.1)) = 1 ∧
      (runSyscallTrace stops ⟨false, 41⟩).1 = [0, 0, 0, 0, 0, 0, 0] := by
  intro stops
  refine ⟨by simp [stops, Alternates], ?_, by decide, ?_, by decide, by decide⟩
  · rw [syscallStats_count]
    decide
  · rw [syscallStats_count]
    decide

end CShell
