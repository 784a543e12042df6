/-
  xv6 formalization — the log of the file system (`log.c`).

  `begin_op`, `log_write`, `end_op` and `sys_sync` as the code of a monitor, with any number
  of system calls at once.  A call changes blocks in the buffer cache between `begin_op` and
  `end_op`, and `commit` writes to the disk, both without the lock; so these are steps of
  their own, with everything else between them.  The cache is a map from block numbers to
  contents: a block that is not pinned is as on the disk, so that it does not matter when it
  is dropped.

  The state carries, besides the log, which calls are going on and which blocks they have
  logged, the calls that have ended, all changes of blocks in order, and the number of
  calls whose changes are committed.  `ncommit` is an `int` in the code and a natural number
  here: the results are about runs with fewer than 2^31 - 1 commits.

  * `log_never_panics`: as long as a call has not logged `MAXOPBLOCKS` blocks when it logs
    one, there is room for it, and no other panic is reached;
  * `log_crash_atomic`: at any time, recovery with any number of crashes in it makes of the
    disk what the committed calls have made of it, and nothing of any other call;
  * `sys_sync_durable`: the calls that had ended when `sys_sync` was called are committed
    when it returns, and from then on;
  * `log_no_lost_wakeup`: who sleeps waits for a call or a commit that is going on.
-/
import CShell.Lib.Inside
import CShell.Lib.RedoLog
import CShell.Xv6.Bio
import CShell.Xv6.Mlfq
import Mathlib.Algebra.BigOperators.Group.Finset.Piecewise
import Mathlib.Algebra.BigOperators.Ring.Finset
import Mathlib.Algebra.Order.BigOperators.Group.Finset
import Mathlib.Data.Fintype.Basic

namespace Xv6

open Lib

/-- `LOGBLOCKS` -/
def logblocks : ℕ := maxopblocks * 3

/-- A system call between `begin_op` and `end_op`. -/
structure LogOp where
  id : ℕ
  /-- the blocks it has logged -/
  blocks : Finset ℕ
  /-- the block it has changed and not logged yet -/
  dirty : Option ℕ
  deriving DecidableEq

/-- A change of a block in the cache. -/
structure LogWrite (D : Type) where
  op : ℕ
  block : ℕ
  data : D

/-- `struct log`, the cache and the disk. -/
structure LogState (D : Type) where
  outstanding : ℤ
  committing : Bool
  ncommit : ℕ
  /-- the block numbers of `lh`; their number is `lh.n` -/
  lh : List ℕ
  cache : ℕ → D
  disk : LogDisk ℕ D
  ops : Slot → Option LogOp
  /-- the process that commits -/
  committer : Option Slot
  /-- the number of calls that have begun -/
  begun : ℕ
  /-- the calls of a smaller number are committed -/
  sealed : ℕ
  ended : List ℕ
  writes : List (LogWrite D)

/-- Where a process is in the code of the log. -/
inductive LogPc where
  | user
  /-- at the head of the loop of `begin_op` -/
  | beginOp
  | began
  /-- in a system call -/
  | op
  /-- in a system call, with a block that is changed and not logged -/
  | dirty (b : ℕ)
  | logWrite (b : ℕ)
  | logged
  | endOp
  /-- before the `wakeup` of `end_op` -/
  | wake
  /-- before the last `release` of `end_op` -/
  | ret
  /-- `committing` is set, before `release` -/
  | sealing
  /-- at the start of `commit` -/
  | commit
  | writeLog (tail : ℕ)
  | writeHead
  | install (tail : ℕ)
  /-- before `log.lh.n = 0` -/
  | clear
  /-- before the second `write_head` -/
  | eraseHead
  /-- after `commit` -/
  | finish
  /-- after `commit`, with the lock -/
  | done
  | sync
  /-- in the loop of `sys_sync`, which waits for commit `n`; `k` calls had ended -/
  | syncWait (n k : ℕ)
  | syncRet (k : ℕ)
  | panic
  deriving DecidableEq, Repr

/-- What a process does next, where it has a choice. -/
inductive LogIn (D : Type) where
  | beginOp
  | change (b : ℕ) (v : D)
  | logWrite
  | endOp
  | sync
  | run

section
variable {D : Type}

/-- The loop of `begin_op`. -/
def beginOp (t : Slot) (x : LogState D) : MonitorCmd (LogState D) LogPc Unit :=
  if x.committing then .wait () .beginOp
  else if logblocks < x.lh.length + (x.outstanding + 1) * maxopblocks then .wait () .beginOp
  else
    .update
      { x with
        outstanding := x.outstanding + 1
        ops := Function.update x.ops t (some ⟨x.begun, ∅, none⟩)
        begun := x.begun + 1 }
      .began

/-- `log_write` under the lock. -/
def logWrite (t : Slot) (b : ℕ) (x : LogState D) : MonitorCmd (LogState D) LogPc Unit :=
  if logblocks ≤ x.lh.length then .update x .panic
  else if x.outstanding < 1 then .update x .panic
  else
    .update
      { x with
        lh := if b ∈ x.lh then x.lh else x.lh ++ [b]
        ops := Function.update x.ops t
          ((x.ops t).map fun o => { o with blocks := insert b o.blocks, dirty := none }) }
      .logged

/-- The call of `t` is over. -/
def LogState.leave (t : Slot) (x : LogState D) : LogState D :=
  { x with
    outstanding := x.outstanding - 1
    ops := Function.update x.ops t none
    ended := x.ended ++ ((x.ops t).map LogOp.id).toList }

/-- `end_op` up to its first `release`. -/
def endOp (t : Slot) (x : LogState D) : MonitorCmd (LogState D) LogPc Unit :=
  if x.committing then .update (x.leave t) .panic
  else if x.outstanding - 1 = 0 then
    .update { x.leave t with committing := true, committer := some t } .sealing
  else .update (x.leave t) .wake

/-- `end_op` after `commit`. -/
def commitDone (x : LogState D) : LogState D :=
  { x with committing := false, committer := none, ncommit := x.ncommit + 1 }

/-- `sys_sync` up to its loop. -/
def sysSync (x : LogState D) : MonitorCmd (LogState D) LogPc Unit :=
  if x.committing ∨ 0 < x.outstanding then .update x (.syncWait (x.ncommit + 1) x.ended.length)
  else .update x (.syncRet x.ended.length)

/-- The code with the lock. -/
def logCode (t : Slot) (x : LogState D) : LogPc → Option (MonitorCmd (LogState D) LogPc Unit)
  | .beginOp => some (beginOp t x)
  | .began => some (.release .op)
  | .logWrite b => some (logWrite t b x)
  | .logged => some (.release .op)
  | .endOp => some (endOp t x)
  | .wake => some (.wakeup () .ret)
  | .ret => some (.release .user)
  | .sealing => some (.release .commit)
  | .done => some (.update (commitDone x) .wake)
  | .sync => some (sysSync x)
  | .syncWait n k =>
    if x.ncommit < n then some (.wait () (.syncWait n k)) else some (.update x (.syncRet k))
  | .syncRet _ => some (.release .user)
  | _ => none

/-- A step of `commit`; each has at most one write to the disk. -/
def logCommit (x : LogState D) : LogPc → Option (LogState D × LogPc)
  | .commit =>
    if x.lh = [] then some ({ x with sealed := x.begun }, .finish) else some (x, .writeLog 0)
  | .writeLog tail =>
    match x.lh[tail]? with
    | some b =>
      let logged := Function.update x.disk.logged tail (x.cache b)
      some ({ x with disk := { x.disk with logged := logged } }, .writeLog (tail + 1))
    | none => some (x, .writeHead)
  | .writeHead =>
    some ({ x with disk := { x.disk with head := x.lh }, sealed := x.begun }, .install 0)
  | .install tail =>
    match x.lh[tail]? with
    | some b =>
      some
        ({ x with
            disk := x.disk.install b tail
            cache := Function.update x.cache b (x.disk.logged tail) },
          .install (tail + 1))
    | none => some (x, .clear)
  | .clear => some ({ x with lh := [] }, .eraseHead)
  | .eraseHead => some ({ x with disk := { x.disk with head := x.lh } }, .finish)
  | _ => none

/-- A system call changes a block in the cache. -/
def LogState.change (t : Slot) (b : ℕ) (v : D) (x : LogState D) : LogState D :=
  { x with
    cache := Function.update x.cache b v
    ops := Function.update x.ops t ((x.ops t).map fun o => { o with dirty := some b })
    writes := x.writes ++ ((x.ops t).map fun o => ⟨o.id, b, v⟩).toList }

/-- The processes of the table, with the log. -/
def logMonitor (D : Type) : Monitor (LogState D) Slot LogPc Unit (LogIn D) where
  threads := List.finRange nproc
  mem_threads := List.mem_finRange
  outside a t pc x :=
    match a, pc with
    | .change b v, .op => some (x.change t b v, .dirty b)
    | .change b v, .dirty b' => if b = b' then some (x.change t b v, .dirty b) else none
    | .run, pc => logCommit x pc
    | _, _ => none
  enter a _ pc :=
    match a, pc with
    | .beginOp, .user => some .beginOp
    | .logWrite, .dirty b => some (.logWrite b)
    | .endOp, .op => some .endOp
    | .sync, .user => some .sync
    | .run, .finish => some .done
    | _, _ => none
  code a t pc x :=
    match a with
    | .run => logCode t x pc
    | _ => none

/-- The log and the processes. -/
abbrev Logs (D : Type) := MonitorState (LogState D) Slot LogPc Unit

/-- After `initlog`, with these blocks on the disk. -/
def LogState.boot (logged home : ℕ → D) : LogState D where
  outstanding := 0
  committing := false
  ncommit := 0
  lh := []
  cache := home
  disk := ⟨[], logged, home⟩
  ops := fun _ => none
  committer := none
  begun := 0
  sealed := 0
  ended := []
  writes := []

/-- After `initlog`. -/
def Logs.init (logged home : ℕ → D) : Logs D :=
  Monitor.init (.boot logged home) fun _ => .user

/-- Before `log_write` takes the lock. -/
def LogPc.logs : LogPc → Bool
  | .logWrite _ => true
  | _ => false

/-- A call that logs a block has logged fewer than `MAXOPBLOCKS`. -/
def LogBudget (_ : LogIn D) (t : Slot) (pc : LogPc) (x : LogState D) : Prop :=
  pc.logs = true → ∀ o ∈ x.ops t, o.blocks.card < maxopblocks

instance (a : LogIn D) (t : Slot) (pc : LogPc) (x : LogState D) : Decidable (LogBudget a t pc x) :=
  inferInstanceAs (Decidable (_ → _))

end

/-! ## The invariant -/

section
variable {D : Type}

/-- The blocks after changes. -/
def replay (home : ℕ → D) (writes : List (LogWrite D)) : ℕ → D :=
  writes.foldl (fun m w => Function.update m w.block w.data) home

/-- The blocks after the committed calls. -/
def LogState.committed (home : ℕ → D) (x : LogState D) : ℕ → D :=
  replay home (x.writes.filter (·.op < x.sealed))

/-- Whether a call is going on, as a number. -/
def LogOp.busy : Option LogOp → ℕ
  | none => 0
  | some _ => 1

/-- The blocks the call may still log. -/
def LogOp.room : Option LogOp → ℕ
  | none => 0
  | some o => maxopblocks - o.blocks.card

@[simp]
theorem LogOp.busy_none : LogOp.busy none = 0 := rfl

@[simp]
theorem LogOp.busy_some (o : LogOp) : LogOp.busy (some o) = 1 := rfl

@[simp]
theorem LogOp.room_none : LogOp.room none = 0 := rfl

@[simp]
theorem LogOp.room_some (o : LogOp) : LogOp.room (some o) = maxopblocks - o.blocks.card := rfl

/-- The invariant of the log. -/
structure LogState.Ok (home : ℕ → D) (x : LogState D) : Prop where
  count : x.outstanding = (∑ t, LogOp.busy (x.ops t) : ℕ)
  nodup : x.lh.Nodup
  head : x.disk.head.Nodup
  committing : x.committing = x.committer.isSome
  quiet : x.committing = true → ∀ t, x.ops t = none
  idle : x.committing = false → x.disk.head = []
  empty : x.committing = false → (∀ t, x.ops t = none) → x.lh = []
  clean : x.committing = false → ∀ b ∉ x.lh, (∀ t, ∀ o ∈ x.ops t, o.dirty ≠ some b) →
    x.cache b = x.disk.home b
  view : x.disk.view = x.committed home
  cache : x.cache = replay home x.writes
  ids : ∀ t, ∀ o ∈ x.ops t, x.sealed ≤ o.id ∧ o.id < x.begun
  sealed : x.sealed ≤ x.begun
  old : ∀ w ∈ x.writes, w.op < x.begun
  blocks : ∀ t, ∀ o ∈ x.ops t, ∀ b ∈ o.blocks, b ∈ x.lh
  space : x.lh.length + ∑ t, LogOp.room (x.ops t) ≤ logblocks
  ended : ∀ i ∈ x.ended, i < x.begun
  settled : x.committing = false → (∀ t, x.ops t = none) → ∀ i ∈ x.ended, i < x.sealed

theorem LogState.ok_boot (logged home : ℕ → D) : (LogState.boot logged home).Ok home where
  count := by simp [LogState.boot, LogOp.busy]
  nodup := List.nodup_nil
  head := List.nodup_nil
  committing := rfl
  quiet := fun h => by cases h
  idle := fun _ => rfl
  empty := fun _ _ => rfl
  clean := fun _ _ _ _ => rfl
  view := LogDisk.view_of_head_nil rfl
  cache := rfl
  ids := fun _ _ h => by cases h
  sealed := Nat.le_refl 0
  old := List.forall_mem_nil _
  blocks := fun _ _ h => by cases h
  space := by simp [LogState.boot, LogOp.room]
  ended := List.forall_mem_nil _
  settled := fun _ _ => List.forall_mem_nil _

variable {home : ℕ → D} {x y : LogState D} {t u : Slot} {o : LogOp}

theorem sum_update (g : Option LogOp → ℕ) (ops : Slot → Option LogOp) (t : Slot)
    (o : Option LogOp) :
    ∑ u, g (Function.update ops t o u) + g (ops t) = ∑ u, g (ops u) + g o := by
  have h : ∀ u, g (Function.update ops t o u) = Function.update (fun u => g (ops u)) t (g o) u := by
    intro u
    by_cases hu : u = t
    · rw [hu, Function.update_self, Function.update_self]
    · rw [Function.update_of_ne hu, Function.update_of_ne hu]
  simp only [h]
  rw [Finset.sum_update_of_mem (Finset.mem_univ t)]
  have := Finset.add_sum_erase Finset.univ (fun u => g (ops u)) (Finset.mem_univ t)
  rw [Finset.erase_eq] at this
  omega

theorem LogOp.room_le (o : Option LogOp) : LogOp.room o ≤ maxopblocks * LogOp.busy o := by
  cases o with
  | none => exact Nat.le_refl 0
  | some o =>
    rw [LogOp.room, LogOp.busy]
    omega

theorem LogState.Ok.room_le (h : x.Ok home) :
    (∑ t, LogOp.room (x.ops t) : ℕ) ≤ maxopblocks * x.outstanding := by
  have hle : ∑ t, LogOp.room (x.ops t) ≤ maxopblocks * ∑ t, LogOp.busy (x.ops t) := by
    rw [Finset.mul_sum]
    exact Finset.sum_le_sum fun t _ => LogOp.room_le _
  rw [h.count]
  exact_mod_cast hle

theorem mem_update {ops : Slot → Option LogOp} {v : Option LogOp} {o : LogOp}
    (h : o ∈ Function.update ops t v u) : (u = t ∧ o ∈ v) ∨ (u ≠ t ∧ o ∈ ops u) := by
  by_cases hu : u = t
  · rw [hu, Function.update_self] at h
    exact .inl ⟨hu, h⟩
  · rw [Function.update_of_ne hu] at h
    exact .inr ⟨hu, h⟩

theorem not_all_none {ops : Slot → Option LogOp} : ¬∀ u, Function.update ops t (some o) u = none := by
  intro h
  have ht := h t
  rw [Function.update_self] at ht
  cases ht

theorem sum_busy_eq_zero (ops : Slot → Option LogOp) :
    ∑ t, LogOp.busy (ops t) = 0 ↔ ∀ t, ops t = none := by
  rw [Finset.sum_eq_zero_iff]
  constructor
  · intro h t
    have ht := h t (Finset.mem_univ t)
    rcases ho : ops t with _ | o
    · rfl
    · rw [ho] at ht
      cases ht
  · intro h t _
    rw [h t]
    rfl

/-- A call is going on. -/
def LogState.Active (x : LogState D) : Prop := ∃ t, x.ops t ≠ none

namespace LogState.Ok

theorem active_iff (h : x.Ok home) : x.Active ↔ 0 < x.outstanding := by
  have hpos : 0 < x.outstanding ↔ ∑ t, LogOp.busy (x.ops t) ≠ 0 := by
    rw [h.count]
    omega
  rw [hpos, ne_eq, sum_busy_eq_zero, not_forall]
  rfl

/-- The call of `t` is the last one. -/
theorem last_iff (h : x.Ok home) (ho : x.ops t = some o) :
    x.outstanding - 1 = 0 ↔ ∀ u, u ≠ t → x.ops u = none := by
  have hbusy := sum_update LogOp.busy x.ops t none
  rw [ho, LogOp.busy_some, LogOp.busy_none] at hbusy
  have hzero : x.outstanding - 1 = 0 ↔ ∑ u, LogOp.busy (Function.update x.ops t none u) = 0 := by
    rw [h.count]
    omega
  rw [hzero, sum_busy_eq_zero]
  constructor
  · intro hall u hu
    have := hall u
    rwa [Function.update_of_ne hu] at this
  · intro hall u
    by_cases hu : u = t
    · rw [hu, Function.update_self]
    · rw [Function.update_of_ne hu]
      exact hall u hu

theorem not_committing (h : x.Ok home) (ho : x.ops t = some o) : x.committing = false := by
  rcases hc : x.committing with _ | _
  · rfl
  · rw [h.quiet hc t] at ho
    cases ho

theorem committer_eq_none (h : x.Ok home) (hc : x.committing = false) : x.committer = none := by
  rw [h.committing] at hc
  exact Option.isNone_iff_eq_none.1 (by rw [← Option.not_isSome, hc]; rfl)

/-- All changes are of calls that have begun. -/
theorem filter_eq (h : x.Ok home) : x.writes.filter (·.op < x.begun) = x.writes := by
  rw [List.filter_eq_self]
  exact fun w hw => decide_eq_true (h.old w hw)

theorem beginOp (h : x.Ok home) (hc : x.committing = false)
    (hspace : ¬logblocks < x.lh.length + (x.outstanding + 1) * maxopblocks)
    (ht : x.ops t = none) :
    LogState.Ok home
      { x with
        outstanding := x.outstanding + 1
        ops := Function.update x.ops t (some ⟨x.begun, ∅, none⟩)
        begun := x.begun + 1 } := by
  have hbusy := sum_update LogOp.busy x.ops t (some ⟨x.begun, ∅, none⟩)
  have hroom := sum_update LogOp.room x.ops t (some ⟨x.begun, ∅, none⟩)
  rw [ht] at hbusy hroom
  simp only [LogOp.busy_none, LogOp.busy_some, LogOp.room_none, LogOp.room_some,
    Finset.card_empty] at hbusy hroom
  refine ⟨?_, h.nodup, h.head, h.committing, ?_, h.idle, fun _ hall => absurd hall not_all_none, ?_,
    h.view, h.cache, ?_, Nat.le_succ_of_le h.sealed, fun w hw => Nat.lt_succ_of_lt (h.old w hw), ?_,
    ?_, fun i hi => Nat.lt_succ_of_lt (h.ended i hi), fun _ hall => absurd hall not_all_none⟩
  · simp only [h.count]
    omega
  · intro hc'
    rw [show x.committing = true from hc'] at hc
    cases hc
  · intro _ b hb hd
    refine h.clean hc b hb fun u o ho => hd u o ?_
    have hu : u ≠ t := by
      rintro rfl
      rw [ht] at ho
      cases ho
    simp only [Function.update_of_ne hu]
    exact ho
  · intro u o ho
    rcases mem_update ho with ⟨-, ho⟩ | ⟨-, ho⟩
    · cases ho
      exact ⟨h.sealed, Nat.lt_succ_self _⟩
    · exact ⟨(h.ids u o ho).1, Nat.lt_succ_of_lt (h.ids u o ho).2⟩
  · intro u o ho b hb
    rcases mem_update ho with ⟨-, ho⟩ | ⟨-, ho⟩
    · cases ho
      cases hb
    · exact h.blocks u o ho b hb
  · have hle := h.room_le
    simp only [maxopblocks] at hroom hle hspace
    simp only
    omega

theorem logWrite (h : x.Ok home) {b : ℕ} (ho : x.ops t = some o) (hd : o.dirty = some b)
    (hbudget : o.blocks.card < maxopblocks) :
    LogState.Ok home
      { x with
        lh := if b ∈ x.lh then x.lh else x.lh ++ [b]
        ops := Function.update x.ops t
          (some { o with blocks := insert b o.blocks, dirty := none }) } := by
  have hc := h.not_committing ho
  have hbusy := sum_update LogOp.busy x.ops t
    (some { o with blocks := insert b o.blocks, dirty := none })
  have hroom := sum_update LogOp.room x.ops t
    (some { o with blocks := insert b o.blocks, dirty := none })
  rw [ho] at hbusy hroom
  simp only [LogOp.busy_some, LogOp.room_some] at hbusy hroom
  have hmem : ∀ b', b' ∈ x.lh ∨ b' = b → b' ∈ if b ∈ x.lh then x.lh else x.lh ++ [b] := by
    intro b' hb'
    split
    case isTrue hb =>
      rcases hb' with hb' | rfl
      · exact hb'
      · exact hb
    case isFalse =>
      rcases hb' with hb' | rfl
      · exact List.mem_append_left _ hb'
      · exact List.mem_append_right _ (List.mem_singleton_self _)
  refine ⟨?_, ?_, h.head, h.committing, ?_, h.idle, fun _ hall => absurd hall not_all_none, ?_,
    h.view, h.cache, ?_, h.sealed, h.old, ?_, ?_, h.ended, fun _ hall => absurd hall not_all_none⟩
  · rw [h.count]
    exact_mod_cast (Nat.add_right_cancel hbusy).symm
  · show (if b ∈ x.lh then x.lh else x.lh ++ [b]).Nodup
    split
    case isTrue => exact h.nodup
    case isFalse hb =>
      rw [← List.concat_eq_append]
      exact h.nodup.concat hb
  · intro hc'
    rw [show x.committing = true from hc'] at hc
    cases hc
  · intro _ b' hb' hdirty
    have hlh : b' ∉ x.lh := fun hin => hb' (hmem b' (.inl hin))
    have hne : b' ≠ b := fun heq => hb' (hmem b' (.inr heq))
    refine h.clean hc b' hlh ?_
    intro u o' ho'
    by_cases hu : u = t
    · rw [hu, ho] at ho'
      cases ho'
      rw [hd]
      exact fun heq => hne (Option.some.inj heq).symm
    · refine hdirty u o' ?_
      simp only [Function.update_of_ne hu]
      exact ho'
  · intro u o' ho'
    rcases mem_update ho' with ⟨-, ho'⟩ | ⟨-, ho'⟩
    · cases ho'
      exact h.ids t o ho
    · exact h.ids u o' ho'
  · intro u o' ho' b' hb'
    refine hmem b' ?_
    rcases mem_update ho' with ⟨-, ho'⟩ | ⟨-, ho'⟩
    · cases ho'
      rcases Finset.mem_insert.1 hb' with rfl | hb'
      · exact .inr rfl
      · exact .inl (h.blocks t o ho b' hb')
    · exact .inl (h.blocks u o' ho' b' hb')
  · have hspace := h.space
    show (if b ∈ x.lh then x.lh else x.lh ++ [b]).length +
      ∑ u, LogOp.room (Function.update x.ops t
        (some { o with blocks := insert b o.blocks, dirty := none }) u) ≤ logblocks
    split
    case isTrue =>
      have hle : o.blocks.card ≤ (insert b o.blocks).card :=
        Finset.card_le_card (Finset.subset_insert _ _)
      omega
    case isFalse hb =>
      -- the block is a new one for the call too, which uses up one of its blocks
      have hnew : b ∉ o.blocks := fun hin => hb (h.blocks t o ho b hin)
      rw [Finset.card_insert_of_notMem hnew] at hroom
      rw [List.length_append, List.length_singleton]
      omega

theorem change (h : x.Ok home) {b : ℕ} {v : D} (ho : x.ops t = some o)
    (hd : o.dirty = none ∨ o.dirty = some b) : (x.change t b v).Ok home := by
  have hc := h.not_committing ho
  have hbusy := sum_update LogOp.busy x.ops t (some { o with dirty := some b })
  have hroom := sum_update LogOp.room x.ops t (some { o with dirty := some b })
  rw [ho] at hbusy hroom
  simp only [LogOp.busy_some, LogOp.room_some] at hbusy hroom
  have hx : x.change t b v =
      { x with
        cache := Function.update x.cache b v
        ops := Function.update x.ops t (some { o with dirty := some b })
        writes := x.writes ++ [⟨o.id, b, v⟩] } := by
    simp [LogState.change, ho]
  rw [hx]
  refine ⟨?_, h.nodup, h.head, h.committing, ?_, h.idle, fun _ hall => absurd hall not_all_none, ?_,
    ?_, ?_, ?_, h.sealed, ?_, ?_, ?_, h.ended, fun _ hall => absurd hall not_all_none⟩
  · rw [h.count]
    exact_mod_cast (Nat.add_right_cancel hbusy).symm
  · intro hc'
    rw [show x.committing = true from hc'] at hc
    cases hc
  · intro _ b' hb' hdirty
    have hne : b' ≠ b := by
      rintro rfl
      refine hdirty t { o with dirty := some b' } ?_ rfl
      simp
    simp only [Function.update_of_ne hne]
    refine h.clean hc b' hb' ?_
    intro u o' ho'
    by_cases hu : u = t
    · rw [hu, ho] at ho'
      cases ho'
      rcases hd with hd | hd
      · rw [hd]
        exact fun heq => by cases heq
      · rw [hd]
        exact fun heq => hne (Option.some.inj heq).symm
    · refine hdirty u o' ?_
      simp only [Function.update_of_ne hu]
      exact ho'
  · -- the call is not committed
    have hid := (h.ids t o ho).1
    have hnot : ([⟨o.id, b, v⟩] : List (LogWrite D)).filter (·.op < x.sealed) = [] := by
      simpa using hid
    simp only [LogState.committed, List.filter_append, hnot, List.append_nil]
    exact h.view
  · simp only [replay, List.foldl_append, List.foldl_cons, List.foldl_nil]
    rw [h.cache]
    rfl
  · intro u o' ho'
    rcases mem_update ho' with ⟨-, ho'⟩ | ⟨-, ho'⟩
    · cases ho'
      exact h.ids t o ho
    · exact h.ids u o' ho'
  · intro w hw
    rcases List.mem_append.1 hw with hw | hw
    · exact h.old w hw
    · rw [List.mem_singleton.1 hw]
      exact (h.ids t o ho).2
  · intro u o' ho' b' hb'
    rcases mem_update ho' with ⟨-, ho'⟩ | ⟨-, ho'⟩
    · cases ho'
      exact h.blocks t o ho b' hb'
    · exact h.blocks u o' ho' b' hb'
  · have hspace := h.space
    simp only
    omega

/-- The call of `t` ends, and `t` goes on to commit or not. -/
theorem leave (h : x.Ok home) {k : Option Slot} (ho : x.ops t = some o) (hd : o.dirty = none)
    (hlast : k.isSome = true → ∀ u, u ≠ t → x.ops u = none)
    (hmore : k.isSome = false → ∃ u, u ≠ t ∧ x.ops u ≠ none) :
    LogState.Ok home { x.leave t with committing := k.isSome, committer := k } := by
  have hc := h.not_committing ho
  have hbusy := sum_update LogOp.busy x.ops t none
  have hroom := sum_update LogOp.room x.ops t none
  rw [ho] at hbusy hroom
  simp only [LogOp.busy_some, LogOp.room_some, LogOp.busy_none, LogOp.room_none] at hbusy hroom
  have hold : ∀ {u o'}, o' ∈ Function.update x.ops t none u → o' ∈ x.ops u := by
    intro u o' ho'
    rcases mem_update ho' with ⟨-, ho'⟩ | ⟨-, ho'⟩
    · cases ho'
    · exact ho'
  have hsome : k.isSome = false → ¬∀ u, Function.update x.ops t none u = none := by
    intro hk hall
    obtain ⟨u, hu, hne⟩ := hmore hk
    have := hall u
    rw [Function.update_of_ne hu] at this
    exact hne this
  refine ⟨?_, h.nodup, h.head, rfl, ?_, fun _ => h.idle hc, fun hk hall => absurd hall (hsome hk), ?_,
    h.view, h.cache, fun u o' ho' => h.ids u o' (hold ho'), h.sealed, h.old,
    fun u o' ho' => h.blocks u o' (hold ho'), ?_, ?_, fun hk hall => absurd hall (hsome hk)⟩
  · simp only [LogState.leave, h.count]
    omega
  · intro hk u
    by_cases hu : u = t
    · simp [LogState.leave, hu]
    · simp only [LogState.leave, Function.update_of_ne hu]
      exact hlast hk u hu
  · intro _ b hb hdirty
    refine h.clean hc b hb ?_
    intro u o' ho'
    by_cases hu : u = t
    · rw [hu, ho] at ho'
      cases ho'
      rw [hd]
      exact fun heq => by cases heq
    · refine hdirty u o' ?_
      simp only [LogState.leave, Function.update_of_ne hu]
      exact ho'
  · have hspace := h.space
    simp only [LogState.leave]
    omega
  · intro i hi
    simp only [LogState.leave, ho, Option.map_some, Option.toList_some] at hi
    rcases List.mem_append.1 hi with hi | hi
    · exact h.ended i hi
    · rw [List.mem_singleton.1 hi]
      exact (h.ids t o ho).2

/-- A step of `commit`. -/
theorem commit (h : x.Ok home) (hc : x.committing = true) {lh : List ℕ} {cache : ℕ → D}
    {disk : LogDisk ℕ D} {n : ℕ} (hlh : lh = x.lh ∨ lh = []) (hhead : disk.head.Nodup)
    (hcache : cache = x.cache) (hn : n ≤ x.begun)
    (hview : disk.view = replay home (x.writes.filter (·.op < n))) :
    LogState.Ok home { x with lh := lh, cache := cache, disk := disk, sealed := n } := by
  have hno : ∀ {u o}, o ∉ x.ops u := by
    intro u o ho
    rw [h.quiet hc u] at ho
    cases ho
  have hgo : x.committing ≠ false := by
    rw [hc]
    exact fun h => by cases h
  refine ⟨h.count, ?_, hhead, h.committing, h.quiet, fun h => absurd h hgo, fun h => absurd h hgo,
    fun h => absurd h hgo, hview, ?_, fun _ _ ho => absurd ho hno, hn, h.old,
    fun _ _ ho => absurd ho hno, ?_, h.ended, fun h => absurd h hgo⟩
  · rcases hlh with rfl | rfl
    · exact h.nodup
    · exact List.nodup_nil
  · rw [hcache]
    exact h.cache
  · have hspace := h.space
    rcases hlh with rfl | rfl
    · exact hspace
    · simp only [List.length_nil]
      omega

/-- The commit is over. -/
theorem commitDone (h : x.Ok home) (hlh : x.lh = [])
    (hhead : x.disk.head = []) (hcache : x.cache = x.disk.home) (hs : x.sealed = x.begun) :
    (commitDone x).Ok home := by
  refine ⟨h.count, h.nodup, h.head, rfl, fun h => (by cases h), fun _ => hhead, fun _ _ => hlh,
    fun _ b _ _ => congrFun hcache b, h.view, h.cache, h.ids, h.sealed, h.old, h.blocks, h.space,
    h.ended, ?_⟩
  intro _ _ i hi
  show i < x.sealed
  rw [hs]
  exact h.ended i hi

end LogState.Ok

/-! ## What each process knows -/

/-- The block a call has changed and not logged, in a call. -/
def LogPc.opDirty : LogPc → Option (Option ℕ)
  | .began | .op | .logged | .endOp => some none
  | .dirty b | .logWrite b => some (some b)
  | _ => none

/-- The process is the one that commits. -/
def LogPc.commits : LogPc → Bool
  | .sealing | .commit | .writeLog _ | .writeHead | .install _ | .clear | .eraseHead | .finish
  | .done => true
  | _ => false

/-- There is something that will lead to a commit. -/
def LogState.Busy (x : LogState D) : Prop := x.committing = true ∨ x.Active

/-- The blocks outside the header are on the disk as in the cache. -/
def LogState.Clean (x : LogState D) : Prop := ∀ b ∉ x.lh, x.disk.home b = x.cache b

/-- The first `tail` blocks of the header are in the log. -/
def LogState.Logged (tail : ℕ) (x : LogState D) : Prop :=
  ∀ i < tail, ∀ b, x.lh[i]? = some b → x.disk.logged i = x.cache b

/-- The transaction is on the disk, and all its blocks are in their places. -/
structure LogState.Placed (x : LogState D) : Prop where
  home : x.cache = x.disk.home
  logged : ∀ b ∈ x.disk.head, x.disk.home b = x.disk.logged (x.disk.head.idxOf b)
  sealed : x.sealed = x.begun

/-- What a process knows of the log and the disk at its place. -/
def LogPc.Phase (x : LogState D) : LogPc → Prop
  | .sealing | .commit => x.disk.head = [] ∧ x.Clean
  | .writeLog tail => x.disk.head = [] ∧ x.Clean ∧ x.Logged tail
  | .writeHead => x.disk.head = [] ∧ x.Clean ∧ x.Logged x.lh.length
  | .install tail =>
    x.disk.head = x.lh ∧ x.Clean ∧ x.Logged x.lh.length ∧ x.disk.Installed tail ∧
      x.sealed = x.begun
  | .clear => x.Placed
  | .eraseHead => x.lh = [] ∧ x.Placed
  | .finish | .done => x.lh = [] ∧ x.disk.head = [] ∧ x.Placed
  | .syncWait n k =>
    k ≤ x.ended.length ∧ n ≤ x.ncommit + 1 ∧
      (n ≤ x.ncommit → ∀ i ∈ x.ended.take k, i < x.sealed) ∧ (x.ncommit < n → x.Busy)
  | .syncRet k => k ≤ x.ended.length ∧ ∀ i ∈ x.ended.take k, i < x.sealed
  | .panic => False
  | _ => True

/-- What the process `t` knows at `pc`. -/
structure LogPc.At (t : Slot) (pc : LogPc) (x : LogState D) : Prop where
  op : (x.ops t).map LogOp.dirty = pc.opDirty
  committer : x.committer = some t ↔ pc.commits = true
  phase : pc.Phase x

/-- What the others see of a step of `t`. -/
structure LogState.Frame (t : Slot) (x y : LogState D) : Prop where
  ops : ∀ u, u ≠ t → y.ops u = x.ops u
  committer : ∀ u, u ≠ t → (y.committer = some u ↔ x.committer = some u)
  /-- nothing, while one of them commits -/
  same : ∀ u, u ≠ t → x.committer = some u → y = x
  ended : x.ended <+: y.ended
  sealed : x.sealed ≤ y.sealed
  ncommit : y.ncommit = x.ncommit ∧ (x.Busy → y.Busy) ∨
    y.ncommit = x.ncommit + 1 ∧ ∀ i ∈ x.ended, i < y.sealed

theorem LogState.Frame.refl (t : Slot) (x : LogState D) : x.Frame t x :=
  ⟨fun _ _ => rfl, fun _ _ => Iff.rfl, fun _ _ _ => rfl, List.prefix_rfl, Nat.le_refl _,
    .inl ⟨rfl, id⟩⟩

theorem LogState.Frame.take_ended (hf : x.Frame t y) {k : ℕ} (hk : k ≤ x.ended.length) :
    y.ended.take k = x.ended.take k := by
  obtain ⟨more, hmore⟩ := hf.ended
  rw [← hmore, List.take_append_of_le_length hk]

/-- **What a process knows is not disturbed by the others.** -/
theorem LogState.Frame.at {pc : LogPc} (hf : x.Frame t y) (hu : u ≠ t) (h : pc.At u x) :
    pc.At u y := by
  by_cases hcu : x.committer = some u
  · rw [hf.same u hu hcu]
    exact h
  · refine ⟨?_, ?_, ?_⟩
    · rw [hf.ops u hu]
      exact h.op
    · rw [hf.committer u hu]
      exact h.committer
    · have hno : pc.commits ≠ true := fun hc => hcu (h.committer.2 hc)
      have hphase := h.phase
      cases pc with
      | sealing | commit | writeLog | writeHead | install | clear | eraseHead | finish | done =>
        exact absurd rfl hno
      | syncWait n k =>
        obtain ⟨hk, hn, hdone, hbusy⟩ := hphase
        have htake := hf.take_ended hk
        refine ⟨hk.trans hf.ended.length_le, ?_, ?_, ?_⟩
        · rcases hf.ncommit with ⟨he, -⟩ | ⟨he, -⟩ <;> omega
        · intro hle i hi
          rw [htake] at hi
          rcases hf.ncommit with ⟨he, -⟩ | ⟨-, hall⟩
          · exact (hdone (he ▸ hle) i hi).trans_le hf.sealed
          · exact hall i (List.mem_of_mem_take hi)
        · intro hlt
          rcases hf.ncommit with ⟨he, hb⟩ | ⟨he, -⟩
          · exact hb (hbusy (he ▸ hlt))
          · omega
      | syncRet k =>
        obtain ⟨hk, hdone⟩ := hphase
        refine ⟨hk.trans hf.ended.length_le, fun i hi => ?_⟩
        rw [hf.take_ended hk] at hi
        exact (hdone i hi).trans_le hf.sealed
      | panic => exact hphase.elim
      | _ => exact trivial

/-- A step of `t` from `x` to `y`, after which it is at `pc`. -/
structure LogState.Goes (home : ℕ → D) (t : Slot) (x y : LogState D) (pc : LogPc) : Prop where
  ok : y.Ok home
  own : pc.At t y
  frame : x.Frame t y

variable {pc pc' : LogPc}

theorem LogPc.At.ops_eq_some (h : pc.At t x) {d : Option ℕ} (hd : pc.opDirty = some d) :
    ∃ o, x.ops t = some o ∧ o.dirty = d := by
  have hop := h.op
  rw [hd] at hop
  exact Option.map_eq_some_iff.1 hop

theorem LogPc.At.ops_eq_none (h : pc.At t x) (hd : pc.opDirty = none) : x.ops t = none := by
  have hop := h.op
  rw [hd] at hop
  exact Option.map_eq_none_iff.1 hop

theorem LogPc.opDirty_of_commits (h : pc.commits = true) : pc.opDirty = none := by
  cases pc with
  | sealing | commit | writeLog | writeHead | install | clear | eraseHead | finish | done => rfl
  | _ => cases h

/-- Nothing but where `t` is changes. -/
theorem LogPc.At.goto (h : pc.At t x) (hop : pc'.opDirty = pc.opDirty)
    (hcom : pc'.commits = pc.commits) (hphase : pc'.Phase x) : pc'.At t x := by
  refine ⟨?_, ?_, hphase⟩
  · rw [hop]
    exact h.op
  · rw [hcom]
    exact h.committer

namespace LogState.Ok

theorem goto (h : x.Ok home) (hat : pc.At t x) (hop : pc'.opDirty = pc.opDirty)
    (hcom : pc'.commits = pc.commits) (hphase : pc'.Phase x) : Goes home t x x pc' :=
  ⟨h, hat.goto hop hcom hphase, .refl t x⟩

theorem goes_beginOp (h : x.Ok home) (hat : LogPc.beginOp.At t x)
    (hs : Xv6.beginOp t x = .update y pc') : Goes home t x y pc' := by
  rw [Xv6.beginOp] at hs
  split at hs
  case isTrue => cases hs
  case isFalse hc =>
    split at hs
    case isTrue => cases hs
    case isFalse hspace =>
      cases hs
      have hc := Bool.eq_false_iff.2 hc
      have hnone := h.committer_eq_none hc
      refine ⟨h.beginOp hc hspace (hat.ops_eq_none rfl), ⟨?_, ?_, trivial⟩, ?_⟩
      · simp [LogPc.opDirty]
      · exact hat.committer
      · refine ⟨fun u hu => Function.update_of_ne hu _ _, fun _ _ => Iff.rfl, ?_, List.prefix_rfl,
          Nat.le_refl _, .inl ⟨rfl, fun _ => .inr ⟨t, ?_⟩⟩⟩
        · intro u _ hu
          rw [hnone] at hu
          cases hu
        · simp

theorem goes_logWrite (h : x.Ok home) {b : ℕ} (hat : (LogPc.logWrite b).At t x)
    (hbudget : ∀ o ∈ x.ops t, o.blocks.card < maxopblocks)
    (hs : Xv6.logWrite t b x = .update y pc') : Goes home t x y pc' := by
  obtain ⟨o, ho, hd⟩ := hat.ops_eq_some rfl
  have hroom := sum_update LogOp.room x.ops t none
  have hspace := h.space
  have hb := hbudget o ho
  rw [ho, LogOp.room_some, LogOp.room_none] at hroom
  have hactive : 0 < x.outstanding := h.active_iff.1 ⟨t, by rw [ho]; exact Option.some_ne_none o⟩
  rw [Xv6.logWrite, if_neg (by omega), if_neg (by omega), ho] at hs
  cases hs
  have hnone := h.committer_eq_none (h.not_committing ho)
  refine ⟨h.logWrite ho hd hb, ⟨?_, hat.committer, trivial⟩, ?_⟩
  · simp [LogPc.opDirty]
  · refine ⟨fun u hu => Function.update_of_ne hu _ _, fun _ _ => Iff.rfl, ?_, List.prefix_rfl,
      Nat.le_refl _, .inl ⟨rfl, fun _ => .inr ⟨t, ?_⟩⟩⟩
    · intro u _ hu
      rw [hnone] at hu
      cases hu
    · simp

theorem goes_change (h : x.Ok home) {b : ℕ} (v : D) {d : Option ℕ} (hat : pc.At t x)
    (hpc : pc.opDirty = some d) (hd : d = none ∨ d = some b) :
    Goes home t x (x.change t b v) (.dirty b) := by
  obtain ⟨o, ho, rfl⟩ := hat.ops_eq_some hpc
  have hnone := h.committer_eq_none (h.not_committing ho)
  refine ⟨h.change ho hd, ⟨?_, ?_, trivial⟩, ?_⟩
  · simp [LogState.change, ho, LogPc.opDirty]
  · simp [LogState.change, hnone, LogPc.commits]
  · refine ⟨fun u hu => Function.update_of_ne hu _ _, fun _ _ => Iff.rfl, ?_, List.prefix_rfl,
      Nat.le_refl _, .inl ⟨rfl, fun _ => .inr ⟨t, ?_⟩⟩⟩
    · intro u _ hu
      rw [hnone] at hu
      cases hu
    · simp [LogState.change, ho]

theorem goes_endOp (h : x.Ok home) (hat : LogPc.endOp.At t x)
    (hs : Xv6.endOp t x = .update y pc') : Goes home t x y pc' := by
  obtain ⟨o, ho, hd⟩ := hat.ops_eq_some rfl
  have hc := h.not_committing ho
  have hnone := h.committer_eq_none hc
  have hsame : ∀ u, u ≠ t → x.committer = some u → y = x := by
    intro u _ hu
    rw [hnone] at hu
    cases hu
  rw [Xv6.endOp, if_neg (by rw [hc]; exact Bool.false_ne_true)] at hs
  split at hs
  case isTrue hlast =>
    cases hs
    have hlast := (h.last_iff ho).1 hlast
    have hok := h.leave (k := some t) ho hd (fun _ => hlast) (fun hk => by cases hk)
    refine ⟨hok, ⟨?_, ?_, h.idle hc, ?_⟩, ?_⟩
    · simp [LogState.leave, LogPc.opDirty]
    · simp [LogPc.commits]
    · intro b hb
      refine (h.clean hc b hb ?_).symm
      intro u o' ho'
      by_cases hu : u = t
      · rw [hu, ho] at ho'
        cases ho'
        rw [hd]
        exact fun heq => by cases heq
      · rw [hlast u hu] at ho'
        cases ho'
    · refine ⟨fun u hu => Function.update_of_ne hu _ _, ?_, hsame, List.prefix_append _ _,
        Nat.le_refl _, .inl ⟨rfl, fun _ => .inl rfl⟩⟩
      intro u hu
      rw [hnone]
      exact iff_of_false (fun heq => hu (Option.some.inj heq).symm) (fun heq => by cases heq)
  case isFalse hlast =>
    cases hs
    have hmore : ∃ u, u ≠ t ∧ x.ops u ≠ none := by
      by_contra hno
      refine hlast ((h.last_iff ho).2 fun u hu => ?_)
      by_contra hne
      exact hno ⟨u, hu, hne⟩
    have hok := h.leave (k := none) ho hd (fun hk => by cases hk) (fun _ => hmore)
    rw [show { x.leave t with committing := (none : Option Slot).isSome, committer := none } =
      x.leave t by simp [LogState.leave, hc, hnone]] at hok
    refine ⟨hok, ⟨?_, ?_, trivial⟩, ?_⟩
    · simp [LogState.leave, LogPc.opDirty]
    · simp [LogState.leave, hnone, LogPc.commits]
    · refine ⟨fun u hu => Function.update_of_ne hu _ _, fun _ _ => Iff.rfl, hsame,
        List.prefix_append _ _, Nat.le_refl _, .inl ⟨rfl, fun _ => .inr ?_⟩⟩
      obtain ⟨u, hu, hne⟩ := hmore
      refine ⟨u, ?_⟩
      simp only [LogState.leave, Function.update_of_ne hu]
      exact hne

theorem committing_of_at (h : x.Ok home) (hat : pc.At t x) (hpc : pc.commits = true) :
    x.committing = true := by
  rw [h.committing, hat.committer.2 hpc]
  rfl

/-- A step of `commit`, which the others do not see. -/
theorem goes_commit (h : x.Ok home) (hat : pc.At t x) (hpc : pc.commits = true)
    (hpc' : pc'.commits = true) {lh : List ℕ} {cache : ℕ → D} {disk : LogDisk ℕ D} {n : ℕ}
    (hlh : lh = x.lh ∨ lh = []) (hhead : disk.head.Nodup) (hcache : cache = x.cache)
    (hn : n = x.sealed ∨ n = x.begun)
    (hview : disk.view = replay home (x.writes.filter (·.op < n)))
    (hphase : pc'.Phase { x with lh := lh, cache := cache, disk := disk, sealed := n }) :
    Goes home t x { x with lh := lh, cache := cache, disk := disk, sealed := n } pc' := by
  have hsealed := h.sealed
  have hcom := hat.committer.2 hpc
  refine ⟨h.commit (h.committing_of_at hat hpc) hlh hhead hcache (by omega) hview,
    ⟨?_, ?_, hphase⟩, ?_⟩
  · rw [LogPc.opDirty_of_commits hpc', ← LogPc.opDirty_of_commits hpc]
    exact hat.op
  · exact iff_of_true hcom hpc'
  · refine ⟨fun _ _ => rfl, fun _ _ => Iff.rfl, ?_, List.prefix_rfl, ?_, .inl ⟨rfl, id⟩⟩
    · intro u hu hcu
      exact absurd (Option.some.inj (hcu.symm.trans hcom)) hu
    · show x.sealed ≤ n
      omega

/-- All changes are committed once the disk shows the cache. -/
theorem view_begun (h : x.Ok home) {disk : LogDisk ℕ D} (hd : disk.view = x.cache) :
    disk.view = replay home (x.writes.filter (·.op < x.begun)) := by
  rw [hd, h.filter_eq]
  exact h.cache

theorem goes_logCommit (h : x.Ok home) (hat : pc.At t x)
    (hs : Xv6.logCommit x pc = some (y, pc')) : Goes home t x y pc' := by
  have hphase := hat.phase
  cases pc with
  | commit =>
    obtain ⟨hhead, hclean⟩ := hphase
    rw [Xv6.logCommit] at hs
    split at hs
    case isTrue hlh =>
      cases hs
      have hhome : x.cache = x.disk.home := by
        ext b
        refine (hclean b ?_).symm
        rw [hlh]
        exact List.not_mem_nil
      refine h.goes_commit hat rfl rfl (.inl rfl) h.head rfl (.inr rfl) ?_ ?_
      · refine h.view_begun ?_
        rw [LogDisk.view_of_head_nil hhead, hhome]
      · refine ⟨hlh, hhead, hhome, fun b hb => ?_, rfl⟩
        rw [show x.disk.head = [] from hhead] at hb
        cases hb
    case isFalse =>
      cases hs
      exact h.goto hat rfl rfl ⟨hhead, hclean, fun i hi => absurd hi (Nat.not_lt_zero i)⟩
  | writeLog tail =>
    obtain ⟨hhead, hclean, hlogged⟩ := hphase
    rw [Xv6.logCommit] at hs
    split at hs
    case h_1 b hb =>
      cases hs
      refine h.goes_commit hat rfl rfl (.inl rfl) h.head rfl (.inl rfl) ?_ ⟨hhead, hclean, ?_⟩
      · rw [LogDisk.view_log hhead]
        exact h.view
      · intro i hi b' hb'
        rcases Nat.lt_succ_iff_lt_or_eq.1 hi with hlt | rfl
        · simp only [Function.update_of_ne hlt.ne]
          exact hlogged i hlt b' hb'
        · obtain rfl : b = b' := Option.some.inj (hb.symm.trans hb')
          simp
    case h_2 hnone =>
      cases hs
      refine h.goto hat rfl rfl ⟨hhead, hclean, fun i hi => hlogged i ?_⟩
      have := List.getElem?_eq_none_iff.1 hnone
      omega
  | writeHead =>
    obtain ⟨hhead, hclean, hlogged⟩ := hphase
    cases hs
    refine h.goes_commit hat rfl rfl (.inl rfl) h.nodup rfl (.inr rfl) ?_
      ⟨rfl, hclean, hlogged, LogDisk.installed_zero _, rfl⟩
    refine h.view_begun (LogDisk.view_commit ?_ hclean)
    intro i b hb
    exact hlogged i (List.getElem?_eq_some_iff.1 hb).1 b hb
  | install tail =>
    obtain ⟨hhead, hclean, hlogged, hinst, hsealed⟩ := hphase
    rw [Xv6.logCommit] at hs
    split at hs
    case h_1 b hb =>
      cases hs
      have hcopy : x.disk.logged tail = x.cache b :=
        hlogged tail (List.getElem?_eq_some_iff.1 hb).1 b hb
      -- the buffer holds what is copied into it
      have hcache : Function.update x.cache b (x.disk.logged tail) = x.cache := by
        rw [hcopy, Function.update_eq_self]
      have hmem : b ∈ x.lh := List.mem_of_getElem? hb
      refine h.goes_commit hat rfl rfl (.inl rfl) h.head hcache (.inl rfl) ?_
        ⟨hhead, ?_, ?_, ?_, hsealed⟩
      · rw [LogDisk.view_install (hhead ▸ hmem)]
        exact h.view
      · intro b' hb'
        have hne : b' ≠ b := fun heq => hb' (heq ▸ hmem)
        simp only [LogDisk.install, Function.update_of_ne hne]
        exact hclean b' hb'
      · simp only [hcache]
        exact hlogged
      · exact hinst.install h.head (hhead ▸ hb)
    case h_2 hnone =>
      cases hs
      have hall := hinst.all (hhead ▸ hnone)
      refine h.goto hat rfl rfl ⟨?_, hall, hsealed⟩
      ext b
      by_cases hb : b ∈ x.lh
      · have hlt := List.idxOf_lt_length_iff.2 hb
        rw [hall b (hhead ▸ hb), hhead]
        refine (hlogged _ hlt b ?_).symm
        rw [List.getElem?_eq_getElem hlt, List.getElem_idxOf]
      · exact (hclean b hb).symm
  | clear =>
    cases hs
    exact h.goes_commit hat rfl rfl (.inr rfl) h.head rfl (.inl rfl) h.view
      ⟨rfl, hphase.home, hphase.logged, hphase.sealed⟩
  | eraseHead =>
    obtain ⟨hlh, hplaced⟩ := hphase
    cases hs
    refine h.goes_commit hat rfl rfl (.inl rfl) h.nodup rfl (.inl rfl) ?_
      ⟨hlh, hlh, hplaced.home, fun b hb => ?_, hplaced.sealed⟩
    · rw [hlh, LogDisk.view_erase hplaced.logged]
      exact h.view
    · rw [show x.lh = [] from hlh] at hb
      cases hb
  | _ => cases hs

theorem goes_done (h : x.Ok home) (hat : LogPc.done.At t x) :
    Goes home t x (Xv6.commitDone x) .wake := by
  obtain ⟨hlh, hhead, hplaced⟩ := hat.phase
  have hcom := hat.committer.2 rfl
  refine ⟨h.commitDone hlh hhead hplaced.home hplaced.sealed, ⟨hat.op, ?_, trivial⟩, ?_⟩
  · exact iff_of_false (fun heq => by cases heq) (fun heq => by cases heq)
  · refine ⟨fun _ _ => rfl, ?_, ?_, List.prefix_rfl, Nat.le_refl _, .inr ⟨rfl, ?_⟩⟩
    · intro u hu
      rw [hcom]
      exact iff_of_false (fun heq => by cases heq) (fun heq => hu (Option.some.inj heq).symm)
    · intro u hu hcu
      exact absurd (Option.some.inj (hcu.symm.trans hcom)) hu
    · intro i hi
      show i < x.sealed
      rw [hplaced.sealed]
      exact h.ended i hi

theorem goes_sysSync (h : x.Ok home) (hat : LogPc.sync.At t x)
    (hs : Xv6.sysSync x = .update y pc') : Goes home t x y pc' := by
  rw [Xv6.sysSync] at hs
  split at hs
  case isTrue hbusy =>
    cases hs
    refine h.goto hat rfl rfl ⟨Nat.le_refl _, Nat.le_refl _, fun hle => absurd hle (by omega), ?_⟩
    intro _
    rcases hbusy with hc | ho
    · exact .inl hc
    · exact .inr (h.active_iff.2 ho)
  case isFalse hbusy =>
    cases hs
    rw [not_or] at hbusy
    refine h.goto hat rfl rfl ⟨Nat.le_refl _, ?_⟩
    intro i hi
    refine h.settled (Bool.eq_false_iff.2 hbusy.1) ?_ i (List.mem_of_mem_take hi)
    intro u
    by_contra hne
    exact hbusy.2 (h.active_iff.1 ⟨u, hne⟩)

end LogState.Ok

theorem LogState.Ok.goes_logCode {a : LogIn D} (h : x.Ok home) (hat : pc.At t x)
    (hok : LogBudget a t pc x) (hs : logCode t x pc = some (.update y pc')) :
    LogState.Goes home t x y pc' := by
  cases pc with
  | beginOp => exact h.goes_beginOp hat (Option.some.inj hs)
  | logWrite b => exact h.goes_logWrite hat (hok rfl) (Option.some.inj hs)
  | endOp => exact h.goes_endOp hat (Option.some.inj hs)
  | done =>
    cases hs
    exact h.goes_done hat
  | sync => exact h.goes_sysSync hat (Option.some.inj hs)
  | syncWait n k =>
    simp only [logCode] at hs
    split at hs
    case isTrue => cases hs
    case isFalse hn =>
      cases hs
      obtain ⟨hk, -, hdone, -⟩ := hat.phase
      exact h.goto hat rfl rfl ⟨hk, hdone (by omega)⟩
  | _ => cases hs

theorem logMonitor_code {a : LogIn D} {cmd : MonitorCmd (LogState D) LogPc Unit}
    (h : (logMonitor D).code a t pc x = some cmd) : logCode t x pc = some cmd := by
  simp only [logMonitor] at h
  split at h
  case h_1 => exact h
  case h_2 => cases h

theorem logCode_wakeup {c : Unit} (h : logCode t x pc = some (.wakeup c pc')) :
    pc = .wake ∧ pc' = .ret := by
  cases pc with
  | wake =>
    cases h
    exact ⟨rfl, rfl⟩
  | _ => grind [logCode, beginOp, logWrite, endOp, sysSync]

/-- Why a process waits. -/
def LogState.Blocked (x : LogState D) : LogPc → Prop
  | .beginOp => x.committing = true ∨ logblocks < x.lh.length + (x.outstanding + 1) * maxopblocks
  | .syncWait n _ => x.ncommit < n
  | _ => False

theorem logCode_wait {c : Unit} (h : logCode t x pc = some (.wait c pc')) :
    pc' = pc ∧ pc ≠ .wake ∧ x.Blocked pc := by
  cases pc with
  | beginOp | syncWait => grind [logCode, beginOp, LogState.Blocked]
  | _ => grind [logCode, logWrite, endOp, sysSync]

theorem logCode_release (h : logCode t x pc = some (.release pc')) :
    pc ≠ .wake ∧ pc'.opDirty = pc.opDirty ∧ pc'.commits = pc.commits ∧
      (pc.Phase x → pc'.Phase x) := by
  cases pc with
  | began | logged | ret | sealing | syncRet =>
    cases h
    exact ⟨fun h => (by cases h), rfl, rfl, fun h => (by first | exact h | trivial)⟩
  | _ => grind [logCode, beginOp, logWrite, endOp, sysSync]

theorem LogState.Ok.goes_outside {a : LogIn D} {r : LogState D × LogPc} (h : x.Ok home)
    (hat : pc.At t x) (hr : (logMonitor D).outside a t pc x = some r) :
    LogState.Goes home t x r.1 r.2 := by
  simp only [logMonitor] at hr
  split at hr
  case h_1 b v =>
    cases hr
    exact h.goes_change v hat rfl (.inl rfl)
  case h_2 b v b' =>
    split at hr
    case isTrue hb =>
      cases hr
      exact h.goes_change v hat rfl (.inr (congrArg some hb.symm))
    case isFalse => cases hr
  case h_3 => exact h.goes_logCommit hat hr
  case h_4 => cases hr

/-- **The code of the log keeps the invariant, and every process what it knows.** -/
theorem logMonitor_knows (home : ℕ → D) :
    Knows (logMonitor D) LogBudget (LogState.Ok home) (fun t pc x => pc.At t x)
      fun _ _ _ => True where
  outside := by
    intro a t pc x r hx hat hr
    have hgoes := hx.goes_outside hat hr
    exact ⟨hgoes.ok, hgoes.own, fun u l hu => hgoes.frame.at hu, fun _ _ _ _ _ => trivial⟩
  enter := by
    intro a t pc pc' x hx hat hs
    refine ⟨?_, trivial⟩
    simp only [logMonitor] at hs
    split at hs
    case h_5 =>
      cases hs
      exact hat.goto rfl rfl hat.phase
    case h_6 => cases hs
    all_goals
      cases hs
      exact hat.goto rfl rfl trivial
  update := by
    intro a t pc pc' x y hx hat _ hok hs
    have hgoes := hx.goes_logCode hat hok (logMonitor_code hs)
    exact ⟨hgoes.ok, hgoes.own, trivial, fun u l hu => hgoes.frame.at hu⟩
  wakeup := by
    intro a t pc c pc' x hx hat _ _ hs
    obtain ⟨rfl, rfl⟩ := logCode_wakeup (logMonitor_code hs)
    exact ⟨hat.goto rfl rfl trivial, trivial⟩
  wait := by
    intro a t pc c pc' x hx hat _ _ hs
    obtain ⟨rfl, -⟩ := logCode_wait (logMonitor_code hs)
    exact ⟨hat, fun _ _ _ => trivial⟩
  release := by
    intro a t pc pc' x hx hat _ _ hs
    obtain ⟨-, hop, hcom, hphase⟩ := logCode_release (logMonitor_code hs)
    exact hat.goto hop hcom (hphase hat.phase)

theorem LogPc.user_at (logged home : ℕ → D) (t : Slot) : LogPc.user.At t (.boot logged home) :=
  ⟨rfl, iff_of_false (fun h => by cases h) (fun h => by cases h), trivial⟩

theorem Logs.inv {logged home : ℕ → D} {s : Logs D}
    (h : Reach (logMonitor D).step (Monitor.Ok LogBudget) (Logs.init logged home) s) :
    Knows.Inv (LogState.Ok home) (fun t pc x => pc.At t x) (fun _ _ _ => True) s :=
  (logMonitor_knows home).inv (LogState.ok_boot logged home) (LogPc.user_at logged home) h

/-- What is committed stays so. -/
theorem Logs.sealed_le {logged home : ℕ → D} {s s' : Logs D}
    (h : Reach (logMonitor D).step (Monitor.Ok LogBudget) (Logs.init logged home) s)
    (h' : Reach (logMonitor D).step (Monitor.Ok LogBudget) s s') :
    s.shared.sealed ≤ s'.shared.sealed := by
  have hinv := Logs.inv h
  have hknows := (logMonitor_knows home).and (P := fun x => s.shared.sealed ≤ x.sealed)
    (fun hx hat hr hle => hle.trans (hx.goes_outside hat hr).frame.sealed)
    (fun hx hat hok hs hle => hle.trans (hx.goes_logCode hat hok (logMonitor_code hs)).frame.sealed)
  exact (hknows.inv_trans h ⟨⟨hinv.always, Nat.le_refl _⟩, hinv.own, hinv.current,
    fun _ _ _ _ _ _ => trivial⟩ h').always.2

/-! ## Recovery -/

/-- The loop of `install_trans`. -/
def installTrans : List ℕ → ℕ → LogDisk ℕ D → LogDisk ℕ D
  | [], _, d => d
  | b :: lh, tail, d => installTrans lh (tail + 1) (d.install b tail)

/-- `recover_from_log`. -/
def recoverFromLog (d : LogDisk ℕ D) : LogDisk ℕ D :=
  { installTrans d.head 0 d with head := [] }

theorem run_installTrans (lh : List ℕ) : ∀ (tail : ℕ) (d : LogDisk ℕ D) (head : List ℕ),
    head.drop tail = lh →
      Lib.run Recovery.step (List.replicate (lh.length + 1) .write) ⟨d, head, tail, false⟩ =
        some ⟨{ installTrans lh tail d with head := [] }, head, tail + lh.length, true⟩ := by
  induction lh with
  | nil =>
    intro tail d head hdrop
    have hnone : head[tail]? = none := by
      rw [← List.head?_drop, hdrop]
      rfl
    simp [Lib.run, Recovery.step, hnone, installTrans]
  | cons b lh ih =>
    intro tail d head hdrop
    have hsome : head[tail]? = some b := by
      rw [← List.head?_drop, hdrop]
      rfl
    have hrest : head.drop (tail + 1) = lh := by
      rw [← List.tail_drop, hdrop]
      rfl
    have hrun := ih (tail + 1) (d.install b tail) head hrest
    rw [List.length_cons, List.replicate_succ, Lib.run]
    simp only [Recovery.step, hsome, Bool.false_eq_true, if_false]
    refine hrun.trans ?_
    rw [installTrans, Nat.add_right_comm, Nat.add_assoc]

/-- `recover_from_log` is a recovery without a crash. -/
theorem run_recoverFromLog (d : LogDisk ℕ D) :
    Lib.run Recovery.step (List.replicate (d.head.length + 1) .write) (Recovery.start d) =
      some ⟨recoverFromLog d, d.head, d.head.length, true⟩ := by
  have h := run_installTrans d.head 0 d d.head rfl
  rwa [Nat.zero_add] at h

theorem recoverFromLog_eq {d : LogDisk ℕ D} (hn : d.head.Nodup) :
    (recoverFromLog d).head = [] ∧ (recoverFromLog d).home = d.view :=
  (Recovery.view_eq hn (Reachable.of_run _ (run_recoverFromLog d))).2.2 rfl

end

/-! ## The results -/

section
variable {D : Type} {logged home : ℕ → D} {s : Logs D} {t : Slot}

/-- **No panic, and the header has room**, as long as every call stays within
    `MAXOPBLOCKS`. -/
theorem log_never_panics
    (h : Reach (logMonitor D).step (Monitor.Ok LogBudget) (Logs.init logged home) s) :
    (∀ t, (s.place t).loc ≠ .panic) ∧ s.shared.lh.length ≤ logblocks := by
  have hinv := Logs.inv h
  refine ⟨?_, ?_⟩
  · intro t ht
    have hat := hinv.own t
    rw [ht] at hat
    exact hat.phase
  · have hspace := hinv.always.space
    omega

/-- A process changes the blocks 5 and 9, and commits until the header is on the disk
    and the first block in its place; a second one has tried to begin a call. -/
def commitHalfway : List (MonitorAct Slot (LogIn ℕ)) :=
  [.enter 0 .beginOp, .code 0 .run, .code 0 .run,
    .outside 0 (.change 5 7), .enter 0 .logWrite, .code 0 .run, .code 0 .run,
    .outside 0 (.change 9 8), .enter 0 .logWrite, .code 0 .run, .code 0 .run,
    .enter 0 .endOp, .code 0 .run, .code 0 .run, .enter 1 .beginOp, .code 1 .run, .release 1,
    .sleep 1] ++ List.replicate 6 (.outside 0 .run)

theorem log_never_panics_commitHalfway :
    ∃ s, Reach (logMonitor ℕ).step (Monitor.Ok LogBudget) (Logs.init (fun _ => 0) fun _ => 0) s ∧
      s.place 0 = .outside (.install 1) ∧ s.shared.lh = [5, 9] ∧
      (∀ t, (s.place t).loc ≠ .panic) ∧ s.shared.lh.length ≤ logblocks := by
  have hfacts : (Lib.run (guarded (logMonitor ℕ).step (Monitor.Ok LogBudget)) commitHalfway
      (Logs.init (fun _ => 0) fun _ => 0)).map (fun s => (s.place 0, s.shared.lh)) =
        some (.outside (.install 1), [5, 9]) := by decide +kernel
  obtain ⟨s, hs, hfacts⟩ := Option.map_eq_some_iff.1 hfacts
  have hreach := Reach.of_run commitHalfway hs
  exact ⟨s, hreach, congrArg Prod.fst hfacts, congrArg Prod.snd hfacts, log_never_panics hreach⟩

/-- **Crashes**: whenever the machine stops, and however often it stops again while it
    recovers, `recover_from_log` leaves the disk with an empty log and with the changes of
    the committed calls, all of them and no others, and no call that is going on is one of
    these.  From there the next boot starts. -/
theorem log_crash_atomic
    (h : Reach (logMonitor D).step (Monitor.Ok LogBudget) (Logs.init logged home) s)
    {r : Recovery ℕ D} (hr : Reachable Recovery.step (Recovery.start s.shared.disk) r) :
    (∃ logged', recoverFromLog r.disk =
        (LogState.boot logged' (s.shared.committed home)).disk) ∧
      ∀ t, ∀ o ∈ s.shared.ops t, s.shared.sealed ≤ o.id := by
  have hok := (Logs.inv h).always
  obtain ⟨hview, hnodup, -⟩ := Recovery.view_eq hok.head hr
  obtain ⟨hhead, hhome⟩ := recoverFromLog_eq hnodup
  refine ⟨⟨(recoverFromLog r.disk).logged, ?_⟩, fun t o ho => (hok.ids t o ho).1⟩
  rw [hview, hok.view] at hhome
  show recoverFromLog r.disk = ⟨[], (recoverFromLog r.disk).logged, s.shared.committed home⟩
  rw [← hhead, ← hhome]

/-- The machine stops in the middle of a commit, and again after the recovery has copied
    a block. -/
theorem log_crash_atomic_commitHalfway :
    ∃ (s : Logs ℕ) (r : Recovery ℕ ℕ),
      Reach (logMonitor ℕ).step (Monitor.Ok LogBudget) (Logs.init (fun _ => 0) fun _ => 0) s ∧
      Reachable Recovery.step (Recovery.start s.shared.disk) r ∧
      (s.shared.disk.home 9, s.shared.committed (fun _ => 0) 9) = (0, 8) ∧
      ∃ logged', recoverFromLog r.disk =
        (LogState.boot logged' (s.shared.committed fun _ => 0)).disk := by
  have hfacts : (Lib.run (guarded (logMonitor ℕ).step (Monitor.Ok LogBudget)) commitHalfway
      (Logs.init (fun _ => 0) fun _ => 0)).bind (fun s =>
        (Lib.run Recovery.step [.write, .crash] (Recovery.start s.shared.disk)).map fun _ =>
          (s.shared.disk.home 9, s.shared.committed (fun _ => 0) 9)) = some (0, 8) := by
    decide +kernel
  obtain ⟨s, hs, hfacts⟩ := Option.bind_eq_some_iff.1 hfacts
  obtain ⟨r, hr, hfacts⟩ := Option.map_eq_some_iff.1 hfacts
  have hreach := Reach.of_run commitHalfway hs
  have hrec := Reachable.of_run _ hr
  exact ⟨s, r, hreach, hrec, hfacts, (log_crash_atomic hreach hrec).1⟩

/-- **`sys_sync` is durable**: when it returns, every call that had ended when it was
    called is committed, and stays so. -/
theorem sys_sync_durable
    (h : Reach (logMonitor D).step (Monitor.Ok LogBudget) (Logs.init logged home) s) {k : ℕ}
    (hp : s.place t = .inside (.syncRet k)) :
    k ≤ s.shared.ended.length ∧ (∀ i ∈ s.shared.ended.take k, i < s.shared.sealed) ∧
      ∀ s', Reach (logMonitor D).step (Monitor.Ok LogBudget) s s' →
        s.shared.sealed ≤ s'.shared.sealed := by
  have hat := (Logs.inv h).own t
  rw [hp] at hat
  exact ⟨hat.phase.1, hat.phase.2, fun s' h' => Logs.sealed_le h h'⟩

/-- The calls of processes 0 and 1 overlap; when 0's has ended, process 2 calls
    `sys_sync`, which waits for the commit by process 1. -/
def syncWaits : List (MonitorAct Slot (LogIn ℕ)) :=
  [.enter 0 .beginOp, .code 0 .run, .code 0 .run, .enter 1 .beginOp, .code 1 .run, .code 1 .run,
    .outside 0 (.change 5 7), .enter 0 .logWrite, .code 0 .run, .code 0 .run,
    .enter 0 .endOp, .code 0 .run, .code 0 .run] ++ List.replicate 65 (.wake 0) ++
  [.code 0 .run, .enter 2 .sync, .code 2 .run, .code 2 .run, .release 2, .sleep 2]

theorem sys_sync_durable_waits :
    ∃ s, Reach (logMonitor ℕ).step (Monitor.Ok LogBudget) (Logs.init (fun _ => 0) fun _ => 0) s ∧
      s.place 2 = .inside (.syncRet 1) ∧ s.shared.ended = [0, 1] ∧
      1 ≤ s.shared.ended.length ∧ (∀ i ∈ s.shared.ended.take 1, i < s.shared.sealed) ∧
      ∀ s', Reach (logMonitor ℕ).step (Monitor.Ok LogBudget) s s' →
        s.shared.sealed ≤ s'.shared.sealed := by
  have hfacts : (Lib.run (guarded (logMonitor ℕ).step (Monitor.Ok LogBudget))
      (syncWaits ++ [.enter 1 .endOp, .code 1 .run, .code 1 .run] ++
        List.replicate 8 (.outside 1 .run) ++ [.enter 1 .run, .code 1 .run, .code 1 .run] ++
        List.replicate 65 (.wake 1) ++ [.code 1 .run, .reacquire 2, .code 2 .run])
      (Logs.init (fun _ => 0) fun _ => 0)).map (fun s => (s.place 2, s.shared.ended)) =
        some (.inside (.syncRet 1), [0, 1]) := by decide +kernel
  obtain ⟨s, hs, hfacts⟩ := Option.map_eq_some_iff.1 hfacts
  have hreach := Reach.of_run _ hs
  have hplace := congrArg Prod.fst hfacts
  exact ⟨s, hreach, hplace, congrArg Prod.snd hfacts, sys_sync_durable hreach hplace⟩

/-! ## Who sleeps -/

variable {x y : LogState D} {pc pc' l : LogPc}

theorem logCommit_fields (h : logCommit x pc = some (y, pc')) :
    pc.commits = true ∧ y.committing = x.committing ∧ y.ncommit = x.ncommit := by
  cases pc with
  | commit | writeLog | writeHead | install | clear | eraseHead => grind [logCommit, LogPc.commits]
  | _ => cases h

/-- A step outside unblocks nobody. -/
theorem blocked_logCommit (hc : x.committing = true) (h : logCommit x pc = some (y, pc'))
    (hb : x.Blocked l) : y.Blocked l := by
  obtain ⟨-, hcom, hn⟩ := logCommit_fields h
  cases l with
  | beginOp => exact .inl (hcom.trans hc)
  | syncWait n k =>
    show y.ncommit < n
    rw [hn]
    exact hb
  | _ => exact hb

/-- A step inside unblocks others only before the wakeup. -/
theorem blocked_logCode (h : logCode t x pc = some (.update y pc')) (hb : x.Blocked l) :
    y.Blocked l ∨ pc' = .wake := by
  cases pc with
  | beginOp =>
    simp only [logCode, beginOp] at h
    split at h
    case isTrue => cases h
    case isFalse hc =>
      split at h
      case isTrue => cases h
      case isFalse hspace =>
        cases h
        refine .inl ?_
        cases l with
        | beginOp =>
          rcases hb with hb | hb
          · exact absurd hb hc
          · exact absurd hb hspace
        | _ => exact hb
  | logWrite b =>
    simp only [logCode, logWrite] at h
    split at h
    case isTrue =>
      cases h
      exact .inl hb
    case isFalse =>
      split at h
      case isTrue =>
        cases h
        exact .inl hb
      case isFalse =>
        cases h
        refine .inl ?_
        cases l with
        | beginOp =>
          refine hb.imp_right fun hspace => ?_
          have hlen : x.lh.length ≤ (if b ∈ x.lh then x.lh else x.lh ++ [b]).length := by
            split
            · exact Nat.le_refl _
            · simp
          show (logblocks : ℤ) < (if b ∈ x.lh then x.lh else x.lh ++ [b]).length +
            (x.outstanding + 1) * maxopblocks
          omega
        | _ => exact hb
  | endOp =>
    simp only [logCode, endOp] at h
    split at h
    case isTrue hc =>
      cases h
      refine .inl ?_
      cases l with
      | beginOp => exact .inl hc
      | _ => exact hb
    case isFalse =>
      split at h
      case isTrue =>
        cases h
        refine .inl ?_
        cases l with
        | beginOp => exact .inl rfl
        | _ => exact hb
      case isFalse =>
        cases h
        exact .inr rfl
  | done =>
    cases h
    exact .inr rfl
  | sync =>
    simp only [logCode, sysSync] at h
    split at h <;> cases h <;> exact .inl hb
  | syncWait =>
    simp only [logCode] at h
    split at h
    · cases h
    · cases h
      exact .inl hb
  | _ => cases h

/-- Who waits, and who has to wake it. -/
def logDiscipline (home : ℕ → D) :
    Discipline (logMonitor D)
      (Knows.Inv (LogState.Ok home) (fun t pc x => pc.At t x) fun _ _ _ => True) LogBudget where
  blocked x _ pc _ := x.Blocked pc
  owes _ _ pc _ := pc = .wake
  outside := by
    intro s a t pc r hI hp hr
    refine ⟨?_, fun _ _ _ => id⟩
    intro u l _ hb
    simp only [logMonitor] at hr
    split at hr
    case h_1 =>
      cases hr
      cases l <;> exact hb
    case h_2 =>
      split at hr
      case isTrue =>
        cases hr
        cases l <;> exact hb
      case isFalse => cases hr
    case h_3 =>
      have hat := hI.own_of_loc (l := pc) (t := t) (by rw [hp]; rfl)
      have hc := hI.always.committing_of_at hat (logCommit_fields hr).1
      exact blocked_logCommit hc hr hb
    case h_4 => cases hr
  update := by
    intro s a t pc y pc' hI hp hok hs
    have hs := logMonitor_code hs
    refine ⟨fun u l _ _ _ hb => blocked_logCode hs hb, ?_⟩
    rintro _ rfl
    cases hs
  wakeup := by
    intro s a t pc c pc' _ _ _ _ c' hc
    exact absurd rfl hc
  wait := by
    intro s a t pc c pc' _ _ _ hs
    obtain ⟨rfl, hne, hb⟩ := logCode_wait (logMonitor_code hs)
    exact ⟨hb, fun _ => hne⟩
  release := by
    intro s a t pc pc' _ _ _ hs _
    exact (logCode_release (logMonitor_code hs)).1

/-- Nobody waits for room in a log that nobody uses. -/
theorem LogState.Ok.busy_of_blocked {home : ℕ → D} (h : x.Ok home) (hb : x.Blocked .beginOp) :
    x.Busy := by
  by_contra hbusy
  rw [LogState.Busy, not_or] at hbusy
  have hc := Bool.eq_false_iff.2 hbusy.1
  have hnone : ∀ t, x.ops t = none := by
    intro t
    by_contra hne
    exact hbusy.2 ⟨t, hne⟩
  have hcount := h.count
  rw [(sum_busy_eq_zero x.ops).2 hnone] at hcount
  rcases hb with hb | hb
  · exact hbusy.1 hb
  · rw [h.empty hc hnone, hcount] at hb
    revert hb
    decide

/-- **No lost wakeup**: while the lock is free, who sleeps in `begin_op` would find a
    commit or too little room, who sleeps in `sys_sync` that its commit is not over; and in
    both cases a commit or a call is going on that will wake it. -/
theorem log_no_lost_wakeup
    (h : Reach (logMonitor D).step (Monitor.Ok LogBudget) (Logs.init logged home) s)
    (hn : s.lock = none) {c : Unit} (hp : s.place t = .asleep c l) :
    s.shared.Blocked l ∧ s.shared.Busy := by
  have hinv := Logs.inv h
  have hblocked : s.shared.Blocked l :=
    ((logDiscipline home).waits (fun _ => Logs.inv) h).blocked_of_asleep hn hp
  refine ⟨hblocked, ?_⟩
  cases l with
  | beginOp => exact hinv.always.busy_of_blocked hblocked
  | syncWait n k =>
    have hat := hinv.own t
    rw [hp] at hat
    exact hat.phase.2.2.2 hblocked
  | _ => exact hblocked.elim

theorem log_no_lost_wakeup_syncWaits :
    ∃ s, Reach (logMonitor ℕ).step (Monitor.Ok LogBudget) (Logs.init (fun _ => 0) fun _ => 0) s ∧
      s.place 2 = .asleep () (.syncWait 1 1) ∧ s.shared.Blocked (.syncWait 1 1) ∧
      s.shared.Busy := by
  have hfacts : (Lib.run (guarded (logMonitor ℕ).step (Monitor.Ok LogBudget)) syncWaits
      (Logs.init (fun _ => 0) fun _ => 0)).map (fun s => (s.lock, s.place 2)) =
        some (none, .asleep () (.syncWait 1 1)) := by decide +kernel
  obtain ⟨s, hs, hfacts⟩ := Option.map_eq_some_iff.1 hfacts
  have hreach := Reach.of_run _ hs
  have hplace := congrArg Prod.snd hfacts
  exact ⟨s, hreach, hplace, log_no_lost_wakeup hreach (congrArg Prod.fst hfacts) hplace⟩

end

end Xv6
