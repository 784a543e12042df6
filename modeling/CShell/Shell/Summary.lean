/-
  C-Shell formalization — the table `snoop` prints (`syscall_name`,
  `compare_stats` and `print_summary` in `snoop.c`).

  The entries of `stats` that have been used are sorted by `qsort`, of which
  nothing is assumed but that it sorts.

  * `Stats.ofRecords_order`: an entry's `order` is the place of its number among
    the first occurrences;
  * `compare_eq`: so `compare_stats` does not overflow, and compares the counts
    and then these places;
  * `print_summary_rows`: there is a row for each number that has been
    recorded, with its count, and their order is the only one there can be.
-/
import CShell.Shell.Syscalls
import CShell.Lib.Ints
import CShell.Lib.Occurrences
import CShell.Lib.Qsort
import CShell.Lib.Text

namespace CShell

open Lib

/-! ## syscall_name -/

/-- `table` -/
def syscallTable : List (ℤ × String) :=
  [(0, "read"), (1, "write"), (2, "open"), (3, "close"), (4, "stat"), (5, "fstat"), (6, "lstat"),
    (8, "lseek"), (17, "pread64"), (18, "pwrite64"), (21, "access"), (32, "dup"), (33, "dup2"),
    (72, "fcntl"), (78, "getdents"), (82, "rename"), (83, "mkdir"), (84, "rmdir"), (86, "link"),
    (87, "unlink"), (89, "readlink"), (90, "chmod"), (92, "chown"), (217, "getdents64"),
    (257, "openat"), (258, "mkdirat"), (262, "newfstatat"), (263, "unlinkat"), (269, "faccessat"),
    (9, "mmap"), (10, "mprotect"), (11, "munmap"), (12, "brk"), (25, "mremap"), (16, "ioctl"),
    (13, "rt_sigaction"), (14, "rt_sigprocmask"), (15, "rt_sigreturn"), (22, "pipe"),
    (34, "pause"), (35, "nanosleep"), (37, "alarm"), (39, "getpid"), (56, "clone"), (57, "fork"),
    (58, "vfork"), (59, "execve"), (60, "exit"), (61, "wait4"), (62, "kill"), (63, "uname"),
    (110, "getppid"), (186, "gettid"), (231, "exit_group"), (234, "tgkill"), (79, "getcwd"),
    (80, "chdir"), (102, "getuid"), (104, "getgid"), (107, "geteuid"), (108, "getegid"),
    (41, "socket"), (42, "connect"), (43, "accept"), (44, "sendto"), (45, "recvfrom"),
    (49, "bind"), (50, "listen"), (96, "gettimeofday"), (201, "time"), (228, "clock_gettime"),
    (230, "clock_nanosleep"), (97, "getrlimit"), (99, "sysinfo"), (137, "statfs"), (157, "prctl"),
    (158, "arch_prctl"), (202, "futex"), (218, "set_tid_address"), (273, "set_robust_list"),
    (302, "prlimit64"), (318, "getrandom")]

/-- `syscall_name` -/
def syscallName (num : ℤ) : Str :=
  match syscallTable.lookup num with
  | some name => str name
  | none => str "syscall_" ++ printInt num

/-! ## print_summary -/

/-- `compare_stats` -/
def compareStats (sa sb : SyscallStat) : ℤ :=
  if sa.count ≠ sb.count then toInt32 (sb.count - sa.count) -- descending count
  else toInt32 (sa.order - sb.order) -- ascending first-occurrence order

/-- A row of the table. -/
structure SummaryRow where
  name : Str
  calls : ℕ
  time : ℤ
  deriving DecidableEq

namespace Stats

/-- `compare_stats` on pointers into `stats`. -/
def compare (s : Stats) (a b : Fin maxSyscalls) : ℤ := compareStats (s.stat a) (s.stat b)

/-- `used`, before it is sorted. -/
def used (s : Stats) : List (Fin maxSyscalls) :=
  (List.finRange maxSyscalls).filter fun i => (s.stat i).order ≠ -1

/-- The row of a system call. -/
def row (s : Stats) (i : Fin maxSyscalls) : SummaryRow :=
  ⟨syscallName i.val, (s.stat i).count, (s.stat i).totalTime⟩

/-- `print_summary`: the rows after the head of the table. -/
def printSummary (s : Stats)
    (qsort : (Fin maxSyscalls → Fin maxSyscalls → ℤ) → List (Fin maxSyscalls) →
      List (Fin maxSyscalls)) : List SummaryRow :=
  (qsort s.compare s.used).map s.row

/-! ## First occurrences -/

/-- `record_syscall` for a number of the table. -/
theorem recordSyscall_val (s : Stats) (i : Fin maxSyscalls) (elapsed : ℤ) :
    s.recordSyscall i.val elapsed =
      { stat := Function.update s.stat i
          { count := (s.stat i).count + 1
            totalTime := (s.stat i).totalTime + elapsed
            order := if (s.stat i).order = -1 then s.orderCounter else (s.stat i).order }
        orderCounter := if (s.stat i).order = -1 then s.orderCounter + 1 else s.orderCounter } := by
  have hi : ¬((i.val : ℤ) < 0 ∨ (i.val : ℤ) ≥ maxSyscalls) := by
    have := i.isLt
    omega
  rw [recordSyscall, dif_neg hi]
  rfl

theorem recordSyscall_orderCounter (s : Stats) (i : Fin maxSyscalls) (elapsed : ℤ) :
    (s.recordSyscall i.val elapsed).orderCounter =
      if (s.stat i).order = -1 then s.orderCounter + 1 else s.orderCounter := by
  rw [recordSyscall_val]

theorem recordSyscall_order_self (s : Stats) (i : Fin maxSyscalls) (elapsed : ℤ) :
    ((s.recordSyscall i.val elapsed).stat i).order =
      if (s.stat i).order = -1 then s.orderCounter else (s.stat i).order := by
  rw [recordSyscall_val]
  simp

theorem recordSyscall_stat_of_ne (s : Stats) {i j : Fin maxSyscalls} (h : i ≠ j) (elapsed : ℤ) :
    (s.recordSyscall j.val elapsed).stat i = s.stat i := by
  rw [recordSyscall_val]
  exact Function.update_of_ne h _ _

theorem ofRecords_concat (records : List (ℤ × ℤ)) (r : ℤ × ℤ) :
    ofRecords (records ++ [r]) = (ofRecords records).recordSyscall r.1 r.2 := by
  simp [ofRecords]

/-- What `order` and `order_counter` are after calls with these numbers. -/
structure Stamped (s : Stats) (nums : List ℤ) : Prop where
  counter : s.orderCounter = nums.eraseDups.length
  used : ∀ i : Fin maxSyscalls, (i.val : ℤ) ∈ nums →
    (s.stat i).order = nums.eraseDups.idxOf (i.val : ℤ)
  unused : ∀ i : Fin maxSyscalls, (i.val : ℤ) ∉ nums → (s.stat i).order = -1

theorem Stamped.order_eq_iff {s : Stats} {nums : List ℤ} (h : s.Stamped nums)
    (i : Fin maxSyscalls) : (s.stat i).order = -1 ↔ (i.val : ℤ) ∉ nums := by
  constructor
  · intro horder hi
    rw [h.used i hi] at horder
    omega
  · exact h.unused i

theorem Stamped.record {s : Stats} {nums : List ℤ} (h : s.Stamped nums) (j : Fin maxSyscalls)
    (elapsed : ℤ) : (s.recordSyscall j.val elapsed).Stamped (nums ++ [(j.val : ℤ)]) := by
  have hother : ∀ i : Fin maxSyscalls, i ≠ j → (i.val : ℤ) ∈ nums ++ [(j.val : ℤ)] →
      (i.val : ℤ) ∈ nums := by
    intro i hne hi
    refine (List.mem_append.1 hi).resolve_right ?_
    rw [List.mem_singleton]
    intro heq
    exact hne (Fin.ext (by omega))
  by_cases hj : (j.val : ℤ) ∈ nums
  · have hold : (s.stat j).order ≠ -1 := mt (h.order_eq_iff j).1 (not_not_intro hj)
    refine ⟨?_, ?_, ?_⟩
    · rw [recordSyscall_orderCounter, if_neg hold, eraseDups_concat_of_mem hj, h.counter]
    · intro i hi
      rw [eraseDups_concat_of_mem hj]
      by_cases hij : i = j
      · subst hij
        rw [recordSyscall_order_self, if_neg hold, h.used i hj]
      · rw [recordSyscall_stat_of_ne s hij, h.used i (hother i hij hi)]
    · intro i hi
      rw [List.mem_append, not_or] at hi
      have hij : i ≠ j := by
        rintro rfl
        exact hi.1 hj
      rw [recordSyscall_stat_of_ne s hij, h.unused i hi.1]
  · have hnew := h.unused j hj
    refine ⟨?_, ?_, ?_⟩
    · rw [recordSyscall_orderCounter, if_pos hnew, eraseDups_concat_of_notMem hj,
        List.length_append, h.counter]
      rfl
    · intro i hi
      rw [eraseDups_concat_of_notMem hj]
      by_cases hij : i = j
      · subst hij
        rw [recordSyscall_order_self, if_pos hnew, h.counter,
          List.idxOf_append_of_notMem (mt List.mem_eraseDups.1 hj)]
        simp
      · have hold := hother i hij hi
        rw [recordSyscall_stat_of_ne s hij, h.used i hold,
          List.idxOf_append_of_mem (List.mem_eraseDups.2 hold)]
    · intro i hi
      rw [List.mem_append, not_or] at hi
      have hij : i ≠ j := by
        rintro rfl
        exact hi.2 (List.mem_singleton_self _)
      rw [recordSyscall_stat_of_ne s hij, h.unused i hi.1]

/-- **Stamps.** -/
theorem ofRecords_order {records : List (ℤ × ℤ)}
    (hnum : ∀ r ∈ records, 0 ≤ r.1 ∧ r.1 < maxSyscalls) :
    (ofRecords records).Stamped (records.map (·.1)) := by
  induction records using List.reverseRecOn with
  | nil => exact ⟨rfl, by simp, fun _ _ => rfl⟩
  | append_singleton records r ih =>
    rw [List.forall_mem_append, List.forall_mem_singleton] at hnum
    obtain ⟨hold, hlow, hhigh⟩ := hnum
    obtain ⟨j, hj⟩ : ∃ j : Fin maxSyscalls, (j.val : ℤ) = r.1 :=
      ⟨⟨r.1.toNat, by omega⟩, by simp only; omega⟩
    rw [ofRecords_concat, List.map_append, List.map_singleton, ← hj]
    exact (ih hold).record j r.2

theorem mem_used {s : Stats} {nums : List ℤ} (h : s.Stamped nums) (i : Fin maxSyscalls) :
    i ∈ s.used ↔ (i.val : ℤ) ∈ nums := by
  rw [used, List.mem_filter]
  have := h.order_eq_iff i
  simp [this]

/-! ## The comparison -/

theorem ofRecords_count_eq (records : List (ℤ × ℤ)) (i : Fin maxSyscalls) :
    ((ofRecords records).stat i).count = (records.map (·.1)).count (i.val : ℤ) := by
  rw [ofRecords_count, List.count, List.countP_map]
  refine List.countP_congr ?_
  intro r _
  simp

/-- **No overflow.**  `compare_stats` subtracts counts, or places of first
    occurrences. -/
theorem compare_eq {records : List (ℤ × ℤ)} (hlen : records.length < 2 ^ 31)
    (hnum : ∀ r ∈ records, 0 ≤ r.1 ∧ r.1 < maxSyscalls) {a b : Fin maxSyscalls}
    (ha : (a.val : ℤ) ∈ records.map (·.1)) (hb : (b.val : ℤ) ∈ records.map (·.1)) :
    (ofRecords records).compare a b =
      if ((records.map (·.1)).count (a.val : ℤ) : ℤ) ≠ (records.map (·.1)).count (b.val : ℤ) then
        ((records.map (·.1)).count (b.val : ℤ) : ℤ) - (records.map (·.1)).count (a.val : ℤ)
      else
        ((records.map (·.1)).eraseDups.idxOf (a.val : ℤ) : ℤ) -
          (records.map (·.1)).eraseDups.idxOf (b.val : ℤ) := by
  have hstamped := ofRecords_order hnum
  have hcount : ∀ n, (records.map (·.1)).count n < 2 ^ 31 := by
    intro n
    refine Nat.lt_of_le_of_lt List.count_le_length ?_
    rwa [List.length_map]
  have hplace : ∀ n ∈ records.map (·.1), (records.map (·.1)).eraseDups.idxOf n < 2 ^ 31 := by
    intro n hn
    have hlt := List.idxOf_lt_length_of_mem (List.mem_eraseDups.2 hn)
    have hle := length_eraseDups_le (records.map (·.1))
    rw [List.length_map] at hle
    omega
  rw [compare, compareStats, ofRecords_count_eq, ofRecords_count_eq, hstamped.used a ha,
    hstamped.used b hb]
  have hca := hcount (a.val : ℤ)
  have hcb := hcount (b.val : ℤ)
  have hpa := hplace _ ha
  have hpb := hplace _ hb
  split_ifs with h h' h'
  · exact toInt32_eq_self (by omega) (by omega)
  · omega
  · omega
  · exact toInt32_eq_self (by omega) (by omega)

end Stats

/-- `a` occurs more often than `b`, or as often and first. -/
def OccursBefore (nums : List ℤ) (a b : ℤ) : Prop :=
  nums.count b < nums.count a ∨ nums.count a = nums.count b ∧ nums.idxOf a < nums.idxOf b

namespace Stats

section
variable {records : List (ℤ × ℤ)} (hlen : records.length < 2 ^ 31)
  (hnum : ∀ r ∈ records, 0 ≤ r.1 ∧ r.1 < maxSyscalls)
include hlen hnum

theorem strictComparison_compare :
    StrictComparison (ofRecords records).compare (ofRecords records).used := by
  have hmem := mem_used (ofRecords_order hnum)
  refine strictComparison_of_keys (fun a ha b hb => compare_eq hlen hnum ((hmem a).1 ha) ((hmem b).1 hb)) ?_
  intro a ha b hb heq
  have hidx := (List.idxOf_inj (List.mem_eraseDups.2 ((hmem a).1 ha))).1 (Int.ofNat_inj.1 heq)
  exact Fin.ext (by omega)

theorem compare_neg_iff {a b : Fin maxSyscalls} (ha : a ∈ (ofRecords records).used)
    (hb : b ∈ (ofRecords records).used) :
    (ofRecords records).compare a b < 0 ↔ OccursBefore (records.map (·.1)) a.val b.val := by
  have ha' := (mem_used (ofRecords_order hnum) a).1 ha
  have hb' := (mem_used (ofRecords_order hnum) b).1 hb
  rw [compare_eq hlen hnum ha' hb', OccursBefore, ← idxOf_eraseDups_lt_iff ha' hb']
  split_ifs <;> omega

end

end Stats

/-- **The summary** has a row for each system call that was recorded, with its count and time, in the
    order of their first calls, whatever `qsort` does. -/
theorem print_summary_rows (records : List (ℤ × ℤ)) (hlen : records.length < 2 ^ 31)
    (hnum : ∀ r ∈ records, 0 ≤ r.1 ∧ r.1 < maxSyscalls)
    (qsort : (Fin maxSyscalls → Fin maxSyscalls → ℤ) → List (Fin maxSyscalls) →
      List (Fin maxSyscalls)) (hqsort : IsQsort qsort) :
    let s := Stats.ofRecords records
    let nums := records.map (·.1)
    StrictComparison s.compare s.used ∧
      ∃ printed : List (Fin maxSyscalls),
        s.printSummary qsort = printed.map (fun n =>
          ⟨syscallName n.val, nums.count (n.val : ℤ), (s.stat n).totalTime⟩) ∧
        printed.Nodup ∧ (∀ n : Fin maxSyscalls, n ∈ printed ↔ (n.val : ℤ) ∈ nums) ∧
        printed.Pairwise (fun a b => OccursBefore nums a.val b.val) ∧
        ∀ out, Sorts s.compare s.used out → out = printed := by
  intro s nums
  have hstrict := Stats.strictComparison_compare hlen hnum
  have hsorts := hqsort s.compare s.used hstrict.toComparison
  have hnodup : s.used.Nodup := (List.nodup_finRange _).filter _
  have hmem : ∀ n, n ∈ qsort s.compare s.used ↔ n ∈ s.used := fun n => hsorts.perm.mem_iff
  refine ⟨hstrict, qsort s.compare s.used, ?_, ?_, ?_, ?_, ?_⟩
  · refine List.map_congr_left ?_
    intro n _
    rw [Stats.row, Stats.ofRecords_count_eq]
  · exact hsorts.perm.nodup_iff.2 hnodup
  · intro n
    rw [hmem, Stats.mem_used (Stats.ofRecords_order hnum)]
  · refine (hsorts.pairwise_lt hstrict hnodup).imp_of_mem ?_
    intro a b ha hb hlt
    exact (Stats.compare_neg_iff hlen hnum ((hmem a).1 ha) ((hmem b).1 hb)).1 hlt
  · intro out hout
    exact hout.unique hstrict hsorts (List.Perm.refl _)

/-- `write`, `read`, `write`. -/
theorem print_summary_rows_three :
    let records : List (ℤ × ℤ) := [(1, 5), (0, 2), (1, 7)]
    (records.length < 2 ^ 31 ∧ (∀ r ∈ records, 0 ≤ r.1 ∧ r.1 < maxSyscalls) ∧
        IsQsort (@mergeQsort (Fin maxSyscalls))) ∧
      (Stats.ofRecords records).printSummary mergeQsort =
        [⟨str "write", 2, 12⟩, ⟨str "read", 1, 2⟩] := by
  intro records
  have hlen : records.length < 2 ^ 31 := by decide
  have hnum : ∀ r ∈ records, 0 ≤ r.1 ∧ r.1 < maxSyscalls := by decide
  obtain ⟨-, printed, hrows, -, -, -, hunique⟩ :=
    print_summary_rows records hlen hnum mergeQsort isQsort_mergeQsort
  have hused : (Stats.ofRecords records).used = [⟨0, by decide⟩, ⟨1, by decide⟩] := by decide +kernel
  have hprinted : [⟨1, by decide⟩, ⟨0, by decide⟩] = printed := by
    refine hunique _ ⟨?_, ?_⟩
    · rw [hused]
      exact List.Perm.swap _ _ _
    · decide
  refine ⟨⟨hlen, hnum, isQsort_mergeQsort⟩, hrows.trans ?_⟩
  rw [← hprinted]
  decide

end CShell
