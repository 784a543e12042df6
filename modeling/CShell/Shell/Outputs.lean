/-
  C-Shell formalization — the output files of a foreground pipeline
  (`run_pipeline`, `open_output_files`, `start_output_copier` in `command.c`,
  `wait_foreground_group` in `terminal.c`).

  A stage with one output file writes to it directly.  With several it writes
  to a pipe, and a copier, a child of the shell outside the pipeline's group,
  copies from the pipe to each file in turn.  The shell, the stages and the
  copiers take their steps in any order.  All files have been opened and the
  copiers started before the first stage; each stage is named by its index,
  which stands for its pid.  No write fails, and a full pipe only makes the
  stage wait.

  Two names may lead to the same file.  What is opened with `>` is truncated
  and written from the beginning on, each open file at its own offset; what is
  opened with `>>` is written at the end.  Nobody else writes to the files.

  * `OutRun.Inv.step`: no byte is lost on the way: what a descriptor has not
    got of what its stage has written is in the pipe or in the copier's buffer;
  * `Stored.step`: bytes that have got to a file stay there, if the stages that
    share it append;
  * `exists_returned`: from anywhere in the wait the shell can return with no
    copier taking a step;
  * `complete_iff_single`: the files are complete whenever the shell has waited
    for all stages iff no stage that runs has two output files and no two of
    them share one that is not opened to append.
-/
import Mathlib.Data.List.Nodup
import Mathlib.Logic.Function.Basic
import CShell.Lib.Steps
import CShell.Shell.Copy
import CShell.Shell.JobControl

namespace CShell

open Lib

/-! ## The model -/

/-- A `struct output_file`: the file its name leads to, whether it is opened
    to append, and whether `open` succeeds. -/
structure OutFile where
  file : ℕ
  append : Bool
  opens : Bool
  deriving DecidableEq, Repr

/-- A stage: whether its `fork` succeeds, whether `setup_input` does, its output
    files, whether `start_output_copier` succeeds if it is called, and whether
    `resolve_command` does. -/
structure OutStage where
  forkOk : Bool
  inputOk : Bool
  outputs : List OutFile
  copierOk : Bool
  found : Bool
  deriving DecidableEq, Repr

/-- `setup_failed` when the stages are forked. -/
def OutStage.setupFailed (st : OutStage) : Bool :=
  !st.inputOk || !st.outputs.all OutFile.opens || (1 < st.outputs.length && !st.copierOk)

/-- The stage's process reaches `execv`. -/
def OutStage.runs (st : OutStage) : Bool := st.forkOk && !st.setupFailed && st.found

/-- The stage has a copier. -/
def OutStage.copied (st : OutStage) : Bool := 1 < st.outputs.length && !st.setupFailed

/-- `open_output_files`, up to the first file that cannot be opened: a file that is not opened to
    append is truncated. -/
def openOutputFiles : List OutFile → (ℕ → Str) → ℕ → Str
  | [], files => files
  | out :: outs, files =>
    if out.opens then
      openOutputFiles outs (if out.append then files else Function.update files out.file [])
    else files

/-- The files when all stages have opened theirs. -/
def openAll (stages : List OutStage) (files : ℕ → Str) : ℕ → Str :=
  stages.foldl (fun files st => openOutputFiles st.outputs files) files

/-- What a `write` at an offset leaves of a file. -/
def writeAt (offset : ℕ) (bytes content : Str) : Str :=
  content.take offset ++ List.replicate (offset - content.length) 0 ++ bytes ++
    content.drop (offset + bytes.length)

/-- A `write` to an open file to which `sent` has been written so far: at the end if it is opened to
    append, and else at the offset, which is the number of these bytes. -/
def OutFile.write (out : OutFile) (sent bytes : Str) (files : ℕ → Str) : ℕ → Str :=
  Function.update files out.file
    (if out.append then files out.file ++ bytes
    else writeAt sent.length bytes (files out.file))

/-- Where a copier is: at `read`, at `write` with the rest of its buffer from
    `written` on still to go to `file`, or terminated. -/
inductive Copier where
  | reading
  | writing (buffer : Str) (file written : ℕ)
  | exited
  deriving DecidableEq, Repr

/-- What a stage has written to its standard output, and where it is: in the
    pipe to its copier, and what has been written to each of its open files. -/
structure Output where
  written : Str
  pipe : Str
  sent : List Str
  copier : Copier
  deriving DecidableEq, Repr

/-- Where the shell is in `run_pipeline`. -/
inductive OutPlace where
  /-- about to fork this stage -/
  | launching (i : ℕ)
  | waiting (w : Wait)
  /-- what `wait_foreground_group` returned, if it was called -/
  | returned (r : Option WaitResult)
  deriving DecidableEq, Repr

/-- The pipeline, from the first `fork` on: what the stages have written, the files, the children
    of the shell in the pipeline's group, and the shell. -/
structure OutRun where
  outputs : List Output
  files : ℕ → Str
  children : List Child
  shell : OutPlace

/-- The steps of the shell, the stages and the copiers. -/
inductive OutAct where
  /-- the shell forks a stage, or goes on to wait -/
  | launch
  /-- a stage writes to its standard output -/
  | write (i : ℕ) (bytes : Str)
  /-- a stage terminates, stops or continues -/
  | change (i : ℕ) (st : Status)
  /-- the copier of a stage reads or writes this many bytes -/
  | copy (i n : ℕ)
  /-- the copier of a stage reads the end of the file -/
  | copyEnd (i : ℕ)
  /-- `waitpid` in the foreground wait has a report -/
  | wait (i : ℕ) (st : Status)
  /-- it has no child to wait for -/
  | waitNone
  deriving DecidableEq, Repr

/-- `children[]` of `run_pipeline`. -/
def childPids (stages : List OutStage) : List (Option ℕ) :=
  stages.mapIdx fun i st => if st.forkOk then some i else none

/-- The group of the stages, if the first one could be forked. -/
def leader (stages : List OutStage) : Option ℕ := (childPids stages).head?.join

/-- Before the first `fork`. -/
def OutRun.init (stages : List OutStage) (files : ℕ → Str) : OutRun :=
  ⟨stages.map fun st => ⟨[], [], List.replicate st.outputs.length [], .reading⟩,
    openAll stages files, [], .launching 0⟩

/-- The process of stage `i` has not terminated. -/
def OutRun.Alive (s : OutRun) (i : ℕ) : Prop :=
  ∃ c ∈ s.children, c.pid = i ∧ ¬c.report.any Status.terminated

instance (s : OutRun) (i : ℕ) : Decidable (s.Alive i) :=
  inferInstanceAs (Decidable (∃ c ∈ s.children, _))

/-- Bytes are written to open file `j` of a stage. -/
def OutStage.deliver (st : OutStage) (o : Output) (j : ℕ) (bytes : Str) (files : ℕ → Str) : ℕ → Str :=
  match st.outputs[j]?, o.sent[j]? with
  | some out, some sent => out.write sent bytes files
  | _, _ => files

/-- A `write` of the stage. -/
def Output.write (st : OutStage) (bytes : Str) (o : Output) : Output :=
  let o := { o with written := o.written ++ bytes }
  match st.outputs with
  | [] => o
  | [_] => { o with sent := o.sent.map (· ++ bytes) }
  | _ => { o with pipe := o.pipe ++ bytes }

/-- The files after a `write` of the stage. -/
def Output.writtenTo (st : OutStage) (bytes : Str) (o : Output) (files : ℕ → Str) : ℕ → Str :=
  if st.outputs.length = 1 then st.deliver o 0 bytes files else files

/-- One `read` or `write` of the copier, of `n` bytes. -/
def Output.copy (n : ℕ) (o : Output) : Option Output :=
  match o.copier with
  | .reading =>
    if 0 < n ∧ n ≤ copySize ∧ n ≤ o.pipe.length then
      some { o with pipe := o.pipe.drop n, copier := .writing (o.pipe.take n) 0 0 }
    else none
  | .writing buffer file written =>
    if 0 < n ∧ written + n ≤ buffer.length then
      some { o with
        sent := o.sent.modify file (· ++ (buffer.drop written).take n)
        copier :=
          if written + n < buffer.length then .writing buffer file (written + n)
          else if file + 1 < o.sent.length then .writing buffer (file + 1) 0
          else .reading }
    else none
  | .exited => none

/-- The files after a step of the copier. -/
def Output.copiedTo (st : OutStage) (n : ℕ) (o : Output) (files : ℕ → Str) : ℕ → Str :=
  match o.copier with
  | .writing buffer file written => st.deliver o file ((buffer.drop written).take n) files
  | .reading | .exited => files

/-- The shell has forked all stages. -/
def OutPlace.launched : OutPlace → Bool
  | launching _ => false
  | waiting _ | returned _ => true

/-- No process has the write end of the pipe to the copier of stage `i` any
    more: the shell closes it before it waits, and the copiers started later
    keep it. -/
def OutRun.Hangup (stages : List OutStage) (s : OutRun) (i : ℕ) : Prop :=
  s.shell.launched ∧ ¬s.Alive i ∧
    ∀ p ∈ (stages.zip s.outputs).drop (i + 1), p.1.copied → p.2.copier = .exited

instance (stages : List OutStage) (s : OutRun) (i : ℕ) : Decidable (s.Hangup stages i) :=
  inferInstanceAs (Decidable (_ ∧ _))

/-- The shell at `fork`, and after the last one. -/
def OutRun.launch (stages : List OutStage) (i : ℕ) (s : OutRun) : OutRun :=
  match stages[i]? with
  | some st => { s with
      children := if st.forkOk then s.children ++ [⟨i, leader stages, none⟩] else s.children
      shell := .launching (i + 1) }
  | none => { s with
      shell := match leader stages with
        | some pgid => .waiting (.start pgid (childPids stages))
        | none => .returned none }

/-- The foreground wait goes on or ends. -/
def OutPlace.waited : Wait × Option WaitResult → OutPlace
  | (w, none) => .waiting w
  | (_, some r) => .returned (some r)

/-- A step of the pipeline. -/
def OutRun.step (stages : List OutStage) (s : OutRun) : OutAct → Option OutRun
  | .launch =>
    match s.shell with
    | .launching i => some (s.launch stages i)
    | _ => none
  | .write i bytes =>
    match stages[i]?, s.outputs[i]? with
    | some st, some o =>
      if st.runs ∧ s.Alive i then
        some { s with
          outputs := s.outputs.set i (o.write st bytes)
          files := o.writtenTo st bytes s.files }
      else none
    | _, _ => none
  | .change i st => some { s with children := s.children.map (Child.change i st) }
  | .copy i n =>
    match stages[i]?, s.outputs[i]? with
    | some st, some o =>
      if st.copied then
        (o.copy n).map fun o' => { s with
          outputs := s.outputs.set i o'
          files := o.copiedTo st n s.files }
      else none
    | _, _ => none
  | .copyEnd i =>
    match stages[i]?, s.outputs[i]? with
    | some st, some o =>
      if st.copied ∧ o.copier = .reading ∧ o.pipe = [] ∧ s.Hangup stages i then
        some { s with outputs := s.outputs.set i { o with copier := .exited } }
      else none
    | _, _ => none
  | .wait i st =>
    match s.shell with
    | .waiting w =>
      if Reports s.children i st (· = some w.pgid) ∧ st ≠ .continued then
        some { s with
          children := collectReport i st s.children
          shell := .waited (w.got i st) }
      else none
    | _ => none
  | .waitNone =>
    match s.shell with
    | .waiting w =>
      if ∀ c ∈ s.children, c.pgid ≠ some w.pgid then
        some { s with shell := .returned (some w.result) }
      else none
    | _ => none

/-- What a step of the pipeline does. -/
inductive OutSteps (stages : List OutStage) (s : OutRun) : OutAct → OutRun → Prop where
  | launch {i : ℕ} : s.shell = .launching i → OutSteps stages s .launch (s.launch stages i)
  | write {i : ℕ} {bytes : Str} {st : OutStage} {o : Output} : stages[i]? = some st →
      s.outputs[i]? = some o → st.runs → s.Alive i →
      OutSteps stages s (.write i bytes) { s with
        outputs := s.outputs.set i (o.write st bytes)
        files := o.writtenTo st bytes s.files }
  | change (i : ℕ) (st : Status) :
      OutSteps stages s (.change i st) { s with children := s.children.map (Child.change i st) }
  | copy {i n : ℕ} {st : OutStage} {o o' : Output} : stages[i]? = some st →
      s.outputs[i]? = some o → st.copied → o.copy n = some o' →
      OutSteps stages s (.copy i n) { s with
        outputs := s.outputs.set i o'
        files := o.copiedTo st n s.files }
  | copyEnd {i : ℕ} {st : OutStage} {o : Output} : stages[i]? = some st →
      s.outputs[i]? = some o → st.copied → o.copier = .reading → o.pipe = [] → s.Hangup stages i →
      OutSteps stages s (.copyEnd i) { s with
        outputs := s.outputs.set i { o with copier := .exited } }
  | wait {i : ℕ} {st : Status} {w : Wait} : s.shell = .waiting w →
      Reports s.children i st (· = some w.pgid) → st ≠ .continued →
      OutSteps stages s (.wait i st) { s with
        children := collectReport i st s.children
        shell := .waited (w.got i st) }
  | waitNone {w : Wait} : s.shell = .waiting w → (∀ c ∈ s.children, c.pgid ≠ some w.pgid) →
      OutSteps stages s .waitNone { s with shell := .returned (some w.result) }

/-- `OutSteps` lists all steps. -/
theorem outSteps_of_step {stages : List OutStage} {s s' : OutRun} {a : OutAct}
    (h : s.step stages a = some s') : OutSteps stages s a s' := by
  cases a with
  | launch =>
    rw [OutRun.step] at h
    split at h
    · cases h
      exact .launch ‹_›
    · cases h
  | write i bytes =>
    rw [OutRun.step] at h
    split at h
    · split_ifs at h with hw
      cases h
      exact .write ‹_› ‹_› hw.1 hw.2
    · cases h
  | change i st =>
    cases h
    exact .change i st
  | copy i n =>
    rw [OutRun.step] at h
    split at h
    · split_ifs at h with hcop
      obtain ⟨o', ho', rfl⟩ := Option.map_eq_some_iff.1 h
      exact .copy ‹_› ‹_› hcop ho'
    · cases h
  | copyEnd i =>
    rw [OutRun.step] at h
    split at h
    · split_ifs at h with hend
      cases h
      obtain ⟨hcop, hread, hpipe, hhang⟩ := hend
      exact .copyEnd ‹_› ‹_› hcop hread hpipe hhang
    · cases h
  | wait i st =>
    rw [OutRun.step] at h
    split at h
    · split_ifs at h with hr
      cases h
      exact .wait ‹_› hr.1 hr.2
    · cases h
  | waitNone =>
    rw [OutRun.step] at h
    split at h
    · split_ifs at h with hnone
      cases h
      exact .waitNone ‹_› hnone
    · cases h

/-- Every file of a stage has, behind what it had when all files were opened, all bytes that the
    stage has written, and nothing else if it was opened with `>`; and no stage is left that could
    write more. -/
def OutRun.Complete (stages : List OutStage) (files : ℕ → Str) (s : OutRun) : Prop :=
  s.children = [] ∧ ∀ (i : ℕ) (st : OutStage) (o : Output), stages[i]? = some st →
    s.outputs[i]? = some o → ∀ out ∈ st.outputs,
      o.written.Sublist ((s.files out.file).drop (openAll stages files out.file).length) ∧
        (st.runs → out.append = false → s.files out.file = o.written)

/-! ## Nothing is lost on the way -/

/-- What the copier has read and not yet written to open file `j`. -/
def Output.held (o : Output) (j : ℕ) : Str :=
  match o.copier with
  | .writing buffer file written =>
    if j < file then [] else if j = file then buffer.drop written else buffer
  | .reading | .exited => []

/-- What holds of a stage's output: an open file lacks what the copier holds and what is in the
    pipe, without a copier there is nothing in between, and a stage that does not run writes
    nothing. -/
structure Output.Inv (st : OutStage) (o : Output) : Prop where
  length : o.sent.length = st.outputs.length
  whole : ∀ j f, o.sent[j]? = some f → f ++ (o.held j ++ o.pipe) = o.written
  direct : st.copied = false → o.pipe = [] ∧ o.copier = .reading
  ended : o.copier = .exited → o.pipe = []
  silent : st.runs = false → o.written = [] ∧ ∀ b f w, o.copier ≠ .writing b f w

section
variable {st : OutStage} {o o' : Output} {bytes : Str} {n : ℕ}

theorem Output.Inv.init (st : OutStage) :
    Output.Inv st ⟨[], [], List.replicate st.outputs.length [], .reading⟩ := by
  refine ⟨List.length_replicate, fun j f hf => ?_, fun _ => ⟨rfl, rfl⟩, nofun, fun _ => ⟨rfl, nofun⟩⟩
  obtain rfl := List.eq_of_mem_replicate (List.mem_of_getElem? hf)
  rfl

theorem OutStage.setup_of_runs (h : st.runs) : st.setupFailed = false := by
  simp only [OutStage.runs, Bool.and_eq_true, Bool.not_eq_true'] at h
  exact h.1.2

theorem OutStage.copied_iff (h : st.runs) : st.copied ↔ 1 < st.outputs.length := by
  simp [OutStage.copied, OutStage.setup_of_runs h]

theorem Output.written_write (o : Output) : (o.write st bytes).written = o.written ++ bytes := by
  rw [Output.write]
  split <;> rfl

theorem Output.copier_write (o : Output) : (o.write st bytes).copier = o.copier := by
  rw [Output.write]
  split <;> rfl

theorem Output.Inv.write (h : Output.Inv st o) (hruns : st.runs) (hc : o.copier ≠ .exited) :
    Output.Inv st (o.write st bytes) := by
  have hno {p : Prop} : st.runs = false → p := fun hr => absurd hruns (by simp [hr])
  rw [Output.write]
  split
  · rename_i hn
    have hnil : o.sent = [] := List.eq_nil_of_length_eq_zero (h.length.trans (by rw [hn]; rfl))
    exact ⟨h.length, fun j f hf => by simp [hnil] at hf, h.direct, h.ended, hno⟩
  · rename_i out hn
    obtain ⟨hpipe, hread⟩ := h.direct (by simp [OutStage.copied, hn])
    refine ⟨by simpa using h.length, fun j f hf => ?_, h.direct, h.ended, hno⟩
    obtain ⟨f₀, hf₀, rfl⟩ := Option.map_eq_some_iff.1 (List.getElem?_map ▸ hf)
    have hwhole := h.whole j f₀ hf₀
    simp only [Output.held, hread, hpipe, List.append_nil] at hwhole ⊢
    rw [hwhole]
  · rename_i hn₀ hn₁
    have hcop : st.copied = true := by
      rw [OutStage.copied_iff hruns]
      rcases hout : st.outputs with _ | ⟨a, _ | ⟨b, outs⟩⟩
      · exact absurd hout hn₀
      · exact absurd hout (hn₁ a)
      · simp
    refine ⟨h.length, fun j f hf => ?_, fun hn => ?_, fun he => absurd he hc, hno⟩
    · rw [← h.whole j f hf]
      simp [Output.held]
    · rw [hcop] at hn
      cases hn

/-- The only file of a stage has got all the stage has written. -/
theorem Output.Inv.sent_single (h : Output.Inv st o) {out : OutFile} (hone : st.outputs = [out]) :
    o.sent[0]? = some o.written := by
  have hlen : 0 < o.sent.length := by
    rw [h.length, hone]
    exact Nat.one_pos
  obtain ⟨hpipe, hread⟩ := h.direct (by simp [OutStage.copied, hone])
  have hwhole := h.whole 0 _ (List.getElem?_eq_getElem hlen)
  simp only [Output.held, hread, hpipe, List.append_nil] at hwhole
  rw [List.getElem?_eq_getElem hlen, hwhole]

/-- The stage writes to its only file behind what it has written. -/
theorem Output.Inv.writtenTo_single (h : Output.Inv st o) {out : OutFile}
    (hone : st.outputs = [out]) (files : ℕ → Str) :
    o.writtenTo st bytes files = out.write o.written bytes files := by
  rw [Output.writtenTo, if_pos (by rw [hone]; rfl), OutStage.deliver, hone, h.sent_single hone]
  rfl

/-- A stage that does not run has nothing in its pipe. -/
theorem Output.Inv.pipe_of_silent (h : Output.Inv st o) (hr : st.runs = false) : o.pipe = [] := by
  by_cases hcop : st.copied = true
  · have hlen : 0 < o.sent.length := by
      simp only [OutStage.copied, Bool.and_eq_true, decide_eq_true_eq] at hcop
      rw [h.length]
      omega
    have hwhole := h.whole 0 _ (List.getElem?_eq_getElem hlen)
    rw [(h.silent hr).1] at hwhole
    exact (List.append_eq_nil_iff.1 (List.append_eq_nil_iff.1 hwhole).2).2
  · exact (h.direct (by simpa using hcop)).1

/-- The copier reads. -/
theorem Output.Inv.read (h : Output.Inv st o) (hst : st.copied) (hc : o.copier = .reading)
    (hn : 0 < n) (hle : n ≤ o.pipe.length) :
    Output.Inv st { o with pipe := o.pipe.drop n, copier := .writing (o.pipe.take n) 0 0 } := by
  refine ⟨h.length, fun j f hf => ?_, fun hno => absurd hst (by simp [hno]), nofun, fun hr => ?_⟩
  · have hheld : Output.held { o with pipe := o.pipe.drop n, copier := .writing (o.pipe.take n) 0 0 } j =
        o.pipe.take n := by
      simp [Output.held]
    rw [hheld]
    have hwhole := h.whole j f hf
    simp only [Output.held, hc, List.nil_append] at hwhole
    rw [List.take_append_drop, hwhole]
  · rw [h.pipe_of_silent hr, List.length_nil] at hle
    omega

/-- The copier writes a part of its buffer, or the rest of it. -/
theorem Output.Inv.writeFile {buffer : Str} {file written : ℕ} (h : Output.Inv st o)
    (hst : st.copied) (hc : o.copier = .writing buffer file written) (n : ℕ) :
    Output.Inv st { o with
      sent := o.sent.modify file (· ++ (buffer.drop written).take n)
      copier :=
        if written + n < buffer.length then .writing buffer file (written + n)
        else if file + 1 < o.sent.length then .writing buffer (file + 1) 0
        else .reading } := by
  refine ⟨by simpa using h.length, fun j f hf => ?_, fun hno => absurd hst (by simp [hno]), ?_,
    fun hr => absurd hc ((h.silent hr).2 buffer file written)⟩
  · have hlt : j < o.sent.length := by
      simpa using (List.getElem?_eq_some_iff.1 hf).1
    have hwhole := h.whole j o.sent[j] (List.getElem?_eq_getElem hlt)
    simp only [Output.held, hc] at hwhole
    rw [List.getElem?_modify, List.getElem?_eq_getElem hlt] at hf
    obtain rfl := Option.some.inj hf
    rw [← hwhole]
    rcases Nat.lt_trichotomy j file with hj | rfl | hj
    · simp only [Nat.ne_of_gt hj, if_false, hj, if_true, Output.held]
      split_ifs <;> simp [hj, Nat.lt_succ_of_lt hj]
    · have hsplit : (buffer.drop written).take n ++ buffer.drop (written + n) =
          buffer.drop written := by rw [← List.drop_drop, List.take_append_drop]
      generalize (buffer.drop written).take n = part at hsplit
      simp only [if_true, Nat.lt_irrefl, if_false, Output.held]
      rw [← hsplit]
      split_ifs with h₁ h₂
      · simp
      · simp [List.drop_eq_nil_of_le (Nat.le_of_not_lt h₁)]
      · simp [List.drop_eq_nil_of_le (Nat.le_of_not_lt h₁)]
    · have h₁ : ¬j < file := by omega
      have h₂ : j ≠ file := by omega
      simp only [Nat.ne_of_lt hj, if_false, h₁, h₂, Output.held]
      split_ifs with h₃ h₄
      · simp [h₁, h₂]
      · have h₅ : ¬j < file + 1 := by omega
        simp [h₅]
      · omega
  · intro he
    split_ifs at he

theorem Output.Inv.copy (h : Output.Inv st o) (hst : st.copied) (ho : o.copy n = some o') :
    Output.Inv st o' := by
  rw [Output.copy] at ho
  split at ho
  · rename_i hc
    split at ho
    · rename_i hn
      cases ho
      exact h.read hst hc hn.1 hn.2.2
    · cases ho
  · rename_i hc
    split at ho
    · cases ho
      exact h.writeFile hst hc n
    · cases ho
  · cases ho

/-- The copier reads the end of the pipe and exits. -/
theorem Output.Inv.exit (h : Output.Inv st o) (hst : st.copied) (hc : o.copier = .reading)
    (hpipe : o.pipe = []) : Output.Inv st { o with copier := .exited } := by
  refine ⟨h.length, fun j f hf => ?_, fun hno => absurd hst (by simp [hno]), fun _ => hpipe,
    fun hr => ⟨(h.silent hr).1, nofun⟩⟩
  have hwhole := h.whole j f hf
  simp only [Output.held, hc] at hwhole ⊢
  exact hwhole

theorem Output.copy_ne_exited (ho : o.copy n = some o') : o'.copier ≠ .exited := by
  rw [Output.copy] at ho
  split at ho
  · split at ho <;> cases ho
    exact nofun
  · split at ho <;> cases ho
    intro he
    split_ifs at he
  · cases ho

end

/-! ## The shell and the stages -/

/-- What holds at each place of the shell. -/
def OutPlace.Fits (stages : List OutStage) (cs : List Child) : OutPlace → Prop
  | .launching i => ∀ c ∈ cs, c.pid < i ∧ c.pgid = leader stages ∧ some c.pid ∈ childPids stages
  | .waiting w => ∀ c ∈ cs, c.pgid = some w.pgid ∧ (some c.pid, false) ∈ w.pids
  | .returned r => r = some .finished ∨ r = some .signaled → cs = []

/-- The invariant of every run: a copier ends only after its stage. -/
structure OutRun.Inv (stages : List OutStage) (s : OutRun) : Prop where
  length : s.outputs.length = stages.length
  output : ∀ i st o, stages[i]? = some st → s.outputs[i]? = some o →
    Output.Inv st o ∧ (o.copier = .exited → s.shell.launched ∧ ¬s.Alive i)
  nodup : (s.children.map Child.pid).Nodup
  place : s.shell.Fits stages s.children

section
variable {stages : List OutStage} {files : ℕ → Str} {s s' : OutRun} {st : OutStage} {o o' : Output}
  {i n : ℕ}

theorem OutRun.Inv.init (stages : List OutStage) (files : ℕ → Str) :
    (OutRun.init stages files).Inv stages := by
  refine ⟨List.length_map _, fun i st o hst ho => ?_, .nil, nofun⟩
  rw [OutRun.init, List.getElem?_map, hst] at ho
  obtain rfl := Option.some.inj ho
  exact ⟨.init st, nofun⟩

/-- One stage's output changes. -/
theorem OutRun.Inv.setOutput (h : s.Inv stages) (hst : stages[i]? = some st)
    (ho' : Output.Inv st o') (he : o'.copier = .exited → s.shell.launched ∧ ¬s.Alive i)
    (files : ℕ → Str) : OutRun.Inv stages { s with outputs := s.outputs.set i o', files } := by
  refine ⟨by simpa using h.length, fun j st' o hst' hj => ?_, h.nodup, h.place⟩
  rcases getElem?_set_cases hj with ⟨rfl, rfl⟩ | ⟨-, hj⟩
  · obtain rfl := Option.some.inj (hst.symm.trans hst')
    exact ⟨ho', he⟩
  · exact h.output j st' o hst' hj

/-- The children change; a stage that has terminated stays so. -/
theorem OutRun.Inv.setChildren {cs : List Child} {p : OutPlace} (h : s.Inv stages)
    (hnodup : (cs.map Child.pid).Nodup) (hp : p.Fits stages cs)
    (hl : s.shell.launched → p.launched ∧
      ∀ i, (⟨s.outputs, s.files, cs, p⟩ : OutRun).Alive i → s.Alive i) :
    OutRun.Inv stages ⟨s.outputs, s.files, cs, p⟩ := by
  refine ⟨h.length, fun i st o hst ho => ⟨(h.output i st o hst ho).1, fun he => ?_⟩, hnodup, hp⟩
  obtain ⟨hlaunched, hdead⟩ := (h.output i st o hst ho).2 he
  exact ⟨(hl hlaunched).1, fun ha => hdead ((hl hlaunched).2 i ha)⟩

theorem OutRun.Inv.launch (h : s.Inv stages) (hs : s.shell = .launching i) :
    (s.launch stages i).Inv stages := by
  have hfits := h.place
  rw [hs] at hfits
  have hnot : ¬s.shell.launched := by rw [hs]; nofun
  rw [OutRun.launch]
  split
  · rename_i st hst
    refine h.setChildren ?_ ?_ fun hl => absurd hl hnot
    · split_ifs with hf
      · rw [List.map_append, List.map_singleton, List.nodup_append]
        refine ⟨h.nodup, by simp, fun a ha b hb => ?_⟩
        obtain ⟨c, hc, rfl⟩ := List.mem_map.1 ha
        obtain rfl := List.mem_singleton.1 hb
        exact Nat.ne_of_lt (hfits c hc).1
      · exact h.nodup
    · have hold : ∀ c ∈ s.children, c.pid < i + 1 ∧ c.pgid = leader stages ∧
          some c.pid ∈ childPids stages := fun c hc =>
        ⟨Nat.lt_succ_of_lt (hfits c hc).1, (hfits c hc).2⟩
      split_ifs with hf
      · refine List.forall_mem_append.2 ⟨hold, List.forall_mem_singleton.2 ⟨Nat.lt_succ_self i, rfl, ?_⟩⟩
        refine List.mem_of_getElem? (i := i) ?_
        simp [childPids, hst, hf]
      · exact hold
  · refine h.setChildren h.nodup ?_ fun hl => absurd hl hnot
    split
    · rename_i pgid hg
      intro c hc
      obtain ⟨-, hpgid, hmem⟩ := hfits c hc
      exact ⟨hpgid.trans hg, List.mem_map.2 ⟨_, hmem, rfl⟩⟩
    · nofun

theorem Child.change_pid (pid : ℕ) (st : Status) (c : Child) : (c.change pid st).pid = c.pid := by
  rw [Child.change]
  split <;> rfl

theorem Child.change_pgid (pid : ℕ) (st : Status) (c : Child) : (c.change pid st).pgid = c.pgid := by
  rw [Child.change]
  split <;> rfl

theorem Child.change_terminated {pid : ℕ} {st : Status} {c : Child}
    (h : ¬(c.change pid st).report.any Status.terminated) : ¬c.report.any Status.terminated := by
  intro hc
  rw [Child.change, if_neg fun hp => hp.2 hc] at h
  exact h hc

/-- What the place asks of the children is about their pids and groups. -/
theorem OutPlace.Fits.mono {p : OutPlace} {cs cs' : List Child} (h : p.Fits stages cs)
    (hsub : ∀ c' ∈ cs', ∃ c ∈ cs, c'.pid = c.pid ∧ c'.pgid = c.pgid) : p.Fits stages cs' := by
  match p with
  | .launching i =>
    intro c' hc'
    obtain ⟨c, hc, hpid, hpgid⟩ := hsub c' hc'
    rw [hpid, hpgid]
    exact h c hc
  | .waiting w =>
    intro c' hc'
    obtain ⟨c, hc, hpid, hpgid⟩ := hsub c' hc'
    rw [hpid, hpgid]
    exact h c hc
  | .returned r =>
    intro hr
    refine List.eq_nil_iff_forall_not_mem.2 fun c' hc' => ?_
    obtain ⟨c, hc, -⟩ := hsub c' hc'
    rw [h hr] at hc
    cases hc

theorem OutRun.Inv.change (h : s.Inv stages) (i : ℕ) (st : Status) :
    OutRun.Inv stages { s with children := s.children.map (Child.change i st) } := by
  refine h.setChildren ?_ (h.place.mono fun c' hc' => ?_) fun hl => ⟨hl, fun j hj => ?_⟩
  · have hpids : (s.children.map (Child.change i st)).map Child.pid = s.children.map Child.pid := by
      rw [List.map_map]
      exact List.map_congr_left fun c _ => Child.change_pid i st c
    rw [hpids]
    exact h.nodup
  · obtain ⟨c, hc, rfl⟩ := List.mem_map.1 hc'
    exact ⟨c, hc, Child.change_pid i st c, Child.change_pgid i st c⟩
  · obtain ⟨c', hc', hpid, hterm⟩ := hj
    obtain ⟨c, hc, rfl⟩ := List.mem_map.1 hc'
    exact ⟨c, hc, (Child.change_pid i st c).symm.trans hpid, Child.change_terminated hterm⟩

/-! ## The wait -/

/-- The entry of the reported stage is finished, the others stay. -/
theorem Wait.mem_finish {w : Wait} {pid q : ℕ} (h : (some q, false) ∈ w.pids) (hq : q ≠ pid) :
    (some q, false) ∈ (w.finish pid).pids := by
  rw [Wait.finish]
  split
  · rename_i pids u hu
    obtain ⟨pre, x, y, post, hw, rfl, hx⟩ := exists_of_updateFirst hu
    rw [hw] at h
    have hne : (some q, false) ≠ x := by
      rintro rfl
      simp [hq] at hx
    simp only [List.mem_append, List.mem_cons, hne, false_or] at h ⊢
    exact h.imp_right .inr
  · exact h

theorem Wait.mem_got {w : Wait} {pid q : ℕ} {st : Status} (h : (some q, false) ∈ w.pids)
    (hq : q ≠ pid) : (some q, false) ∈ (w.got pid st).1.pids := by
  rw [Wait.got]
  split
  · exact h
  · dsimp only
    split
    · exact Wait.mem_finish h hq
    · exact h

/-- Without a stop the loop goes on until all entries are finished. -/
theorem Wait.got_snd (w : Wait) (pid : ℕ) {st : Status} (hst : st ≠ .stopped) :
    (w.got pid st).2 =
      if (w.got pid st).1.pids.all Prod.snd then some (w.got pid st).1.result else none := by
  rw [Wait.got, if_neg hst]

/-- The children after a report that ends a stage. -/
theorem mem_collectReport {cs : List Child} {pid : ℕ} {st : Status} {c : Child}
    (ht : st.terminated) : c ∈ collectReport pid st cs ↔ c ∈ cs ∧ c.pid ≠ pid := by
  simp [collectReport, ht]

theorem OutPlace.waited_launched (r : Wait × Option WaitResult) : (waited r).launched := by
  rcases r with ⟨w, _ | r⟩ <;> rfl

/-- A stage has terminated. -/
theorem OutRun.Inv.waitEnd {w : Wait} {st : Status} (h : s.Inv stages) (hs : s.shell = .waiting w)
    (ht : st.terminated) (i : ℕ) :
    OutRun.Inv stages { s with
      children := collectReport i st s.children
      shell := .waited (w.got i st) } := by
  have hfits := h.place
  rw [hs] at hfits
  have hst : st ≠ .stopped := by
    rintro rfl
    cases ht
  have hleft : ∀ c ∈ collectReport i st s.children,
      c.pgid = some (w.got i st).1.pgid ∧ (some c.pid, false) ∈ (w.got i st).1.pids := by
    intro c hc
    obtain ⟨hmem, hne⟩ := (mem_collectReport ht).1 hc
    rw [Wait.got_pgid]
    exact ⟨(hfits c hmem).1, Wait.mem_got (hfits c hmem).2 hne⟩
  refine h.setChildren ?_ ?_ fun _ => ⟨OutPlace.waited_launched _, fun j hj => ?_⟩
  · rw [collectReport, if_pos ht]
    exact h.nodup.sublist (List.filter_sublist.map _)
  · rcases hg : w.got i st with ⟨w', _ | r⟩
    · rw [hg] at hleft
      exact hleft
    · -- all entries are finished, so no child is left
      intro _
      refine List.eq_nil_iff_forall_not_mem.2 fun c hc => ?_
      have hsnd := w.got_snd i hst
      rw [hg] at hsnd hleft
      split_ifs at hsnd with hall
      exact absurd (List.all_eq_true.1 hall _ (hleft c hc).2) nofun
  · obtain ⟨c, hc, hpid, halive⟩ := hj
    exact ⟨c, ((mem_collectReport ht).1 hc).1, hpid, halive⟩

/-- A stage has stopped; the shell does not wait any longer. -/
theorem OutRun.Inv.waitStop {w : Wait} (h : s.Inv stages)
    (hr : Reports s.children i .stopped (· = some w.pgid)) :
    OutRun.Inv stages { s with
      children := collectReport i .stopped s.children
      shell := .waited (w.got i .stopped) } := by
  obtain ⟨c₀, hc₀, hpid₀, hrep₀, -⟩ := hr
  refine h.setChildren ?_ nofun fun _ => ⟨rfl, fun j hj => ?_⟩
  · have hpids : (collectReport i .stopped s.children).map Child.pid = s.children.map Child.pid := by
      rw [collectReport, if_neg nofun, List.map_map]
      refine List.map_congr_left fun c _ => ?_
      rw [Function.comp_apply]
      split <;> rfl
    rw [hpids]
    exact h.nodup
  · obtain ⟨c', hc', hpid, halive⟩ := hj
    rw [collectReport, if_neg nofun] at hc'
    obtain ⟨c, hc, rfl⟩ := List.mem_map.1 hc'
    by_cases hci : c.pid = i
    · -- it is the child that has stopped
      obtain rfl := List.inj_on_of_nodup_map h.nodup hc hc₀ (hci.trans hpid₀.symm)
      rw [if_pos hci] at hpid
      exact ⟨c, hc, hpid, by simp [hrep₀, Status.terminated]⟩
    · rw [if_neg hci] at hpid halive
      exact ⟨c, hc, hpid, halive⟩

theorem OutRun.Inv.waitNone {w : Wait} (h : s.Inv stages) (hs : s.shell = .waiting w)
    (hnone : ∀ c ∈ s.children, c.pgid ≠ some w.pgid) :
    OutRun.Inv stages { s with shell := .returned (some w.result) } := by
  have hfits := h.place
  rw [hs] at hfits
  refine h.setChildren h.nodup (fun _ => ?_) fun _ => ⟨rfl, fun _ hj => hj⟩
  exact List.eq_nil_iff_forall_not_mem.2 fun c hc => hnone c hc (hfits c hc).1

/-- **No step loses a byte.** -/
theorem OutRun.Inv.step {a : OutAct} (h : s.Inv stages) (hs : s.step stages a = some s') :
    s'.Inv stages := by
  cases outSteps_of_step hs with
  | launch hi => exact h.launch hi
  | @write i bytes st o hst ho hruns halive =>
    obtain ⟨hinv, hended⟩ := h.output i st o hst ho
    have hc : o.copier ≠ .exited := fun he => (hended he).2 halive
    exact h.setOutput hst (hinv.write hruns hc) (fun he => absurd (o.copier_write ▸ he) hc) _
  | change i st => exact h.change i st
  | @copy i n st o o' hst ho hcop ho' =>
    exact h.setOutput hst ((h.output i st o hst ho).1.copy hcop ho')
      (fun he => absurd he (Output.copy_ne_exited ho')) _
  | @copyEnd i st o hst ho hcop hread hpipe hhang =>
    exact h.setOutput hst ((h.output i st o hst ho).1.exit hcop hread hpipe)
      (fun _ => ⟨hhang.1, hhang.2.1⟩) s.files
  | @wait i st w hw hr hcont =>
    cases st with
    | exited => exact h.waitEnd hw rfl i
    | signaled => exact h.waitEnd hw rfl i
    | stopped => exact h.waitStop hr
    | continued => exact absurd rfl hcont
  | waitNone hw hnone => exact h.waitNone hw hnone

theorem OutRun.Inv.reachable (h : Reachable (OutRun.step stages) (.init stages files) s) :
    s.Inv stages :=
  h.invariant (.init stages files) fun _ _ _ hi _ hs => hi.step hs

/-- **Once its copier has exited, a stage has got all it has written to its open files.** -/
theorem sent_of_exited (h : Reachable (OutRun.step stages) (.init stages files) s)
    (hst : stages[i]? = some st) (ho : s.outputs[i]? = some o) (he : o.copier = .exited) :
    ¬s.Alive i ∧ ∀ f ∈ o.sent, f = o.written := by
  obtain ⟨hinv, hended⟩ := (OutRun.Inv.reachable h).output i st o hst ho
  refine ⟨(hended he).2, fun f hf => ?_⟩
  obtain ⟨j, hj⟩ := List.getElem?_of_mem hf
  have hwhole := hinv.whole j f hj
  rw [Output.held, he, hinv.ended he] at hwhole
  simpa using hwhole

/-! ## The shell does not wait for the copiers -/

theorem Child.exists_report_change (c : Child) :
    ∃ st, st.terminated ∧ (c.change c.pid .exited).report = some st := by
  by_cases ht : c.report.any Status.terminated
  · obtain ⟨st, hst, hterm⟩ := (Option.any_eq_true ..).1 ht
    exact ⟨st, hterm, by rw [Child.change, if_neg fun hp => hp.2 ht, hst]⟩
  · exact ⟨.exited, rfl, by rw [Child.change, if_pos ⟨rfl, ht⟩]⟩

theorem Wait.result_cases (w : Wait) : w.result = .finished ∨ w.result = .signaled := by
  rw [Wait.result]
  split
  · exact .inr rfl
  · exact .inl rfl

/-- One stage is terminated and reaped. -/
theorem exists_reaped {s₀ : OutRun} {w : Wait} {c : Child}
    (hr : Reachable (OutRun.step stages) s₀ s) (hs : s.shell = .waiting w) (hc : c ∈ s.children)
    (hg : ∀ c ∈ s.children, c.pgid = some w.pgid) :
    ∃ s' st, Reachable (OutRun.step stages) s₀ s' ∧
      (s'.outputs = s.outputs ∧ s'.files = s.files) ∧ st.terminated ∧
      s'.shell = .waited (w.got c.pid st) ∧ s'.children.length < s.children.length ∧
      ∀ c ∈ s'.children, c.pgid = some w.pgid := by
  obtain ⟨st, hterm, hrep⟩ := c.exists_report_change
  set cs := s.children.map (Child.change c.pid .exited) with hcs
  have hmem : c.change c.pid .exited ∈ cs := List.mem_map_of_mem hc
  have hpgid : ∀ c' ∈ cs, c'.pgid = some w.pgid := by
    intro c' hc'
    obtain ⟨c, hc, rfl⟩ := List.mem_map.1 hc'
    exact (Child.change_pgid ..).trans (hg c hc)
  have hpid := Child.change_pid c.pid .exited c
  have hreports : Reports cs c.pid st (· = some w.pgid) :=
    ⟨_, hmem, hpid, hrep, decide_eq_true (hpgid _ hmem)⟩
  have hcont : st ≠ .continued := by
    rintro rfl
    cases hterm
  have hwait : OutRun.step stages { s with children := cs } (.wait c.pid st) = some { s with
      children := collectReport c.pid st cs, shell := .waited (w.got c.pid st) } := by
    simp only [OutRun.step, hs]
    rw [if_pos ⟨hreports, hcont⟩]
  refine ⟨_, st, .next (.next hr trivial (rfl : s.step stages (.change c.pid .exited) = _)) trivial
    hwait, ⟨rfl, rfl⟩, hterm, rfl, ?_, fun c' hc' => hpgid c' ((mem_collectReport hterm).1 hc').1⟩
  -- the child itself is removed
  have hlen : cs.length = s.children.length := by rw [hcs, List.length_map]
  rw [← hlen, collectReport, if_pos hterm]
  exact List.length_filter_lt_length_iff_exists.2 ⟨_, hmem, by simp [hpid]⟩

/-- **The wait can always end with no step of a copier**: the stages are
    terminated and reaped one after the other. -/
theorem exists_returned {s₀ : OutRun} {w : Wait} (hr : Reachable (OutRun.step stages) s₀ s)
    (hs : s.shell = .waiting w) (hg : ∀ c ∈ s.children, c.pgid = some w.pgid) :
    ∃ s' r, Reachable (OutRun.step stages) s₀ s' ∧
      (s'.outputs = s.outputs ∧ s'.files = s.files) ∧
      s'.shell = .returned (some r) ∧ (r = .finished ∨ r = .signaled) := by
  induction hn : s.children.length using Nat.strongRecOn generalizing s w with
  | ind n ih =>
    rcases hcs : s.children with _ | ⟨c, cs⟩
    · have hstep : s.step stages .waitNone = some { s with shell := .returned (some w.result) } := by
        simp only [OutRun.step, hs]
        rw [if_pos (by simp [hcs])]
      exact ⟨_, _, .next hr trivial hstep, ⟨rfl, rfl⟩, rfl, w.result_cases⟩
    · obtain ⟨s₁, st, hr₁, hout, hterm, hs₁, hlt, hg₁⟩ :=
        exists_reaped hr hs (hcs ▸ List.mem_cons_self) hg
      have hst : st ≠ .stopped := by
        rintro rfl
        cases hterm
      have hsnd := w.got_snd c.pid hst
      have hpgid := w.got_pgid c.pid st
      rcases hgot : w.got c.pid st with ⟨w', _ | r⟩
      · rw [hgot] at hs₁ hpgid
        rw [← hpgid] at hg₁
        obtain ⟨s', r, hr', hout', hres⟩ := ih _ (hn ▸ hlt) hr₁ hs₁ hg₁ rfl
        exact ⟨s', r, hr', ⟨hout'.1.trans hout.1, hout'.2.trans hout.2⟩, hres⟩
      · rw [hgot] at hsnd hs₁
        split_ifs at hsnd
        exact ⟨s₁, r, hr₁, hout, hs₁, Option.some.inj hsnd ▸ w'.result_cases⟩

/-- The shell forks the stages that are left and goes on to wait. -/
theorem exists_waiting {s₀ : OutRun} {g : ℕ} (hg : leader stages = some g) (todo : ℕ)
    (hr : Reachable (OutRun.step stages) s₀ s) (hs : s.shell = .launching i)
    (hi : i + todo = stages.length) :
    ∃ s' w, Reachable (OutRun.step stages) s₀ s' ∧
      (s'.outputs = s.outputs ∧ s'.files = s.files) ∧ s'.shell = .waiting w ∧ s.children ⊆ s'.children ∧
      ∀ j st, i ≤ j → stages[j]? = some st → st.forkOk → ⟨j, some g, none⟩ ∈ s'.children := by
  induction todo generalizing s i with
  | zero =>
    have hnone : stages[i]? = none := List.getElem?_eq_none (by omega)
    have hstep : s.step stages .launch = some { s with
        shell := .waiting (.start g (childPids stages)) } := by
      simp only [OutRun.step, hs, OutRun.launch, hnone, hg]
    refine ⟨_, _, .next hr trivial hstep, ⟨rfl, rfl⟩, rfl, List.Subset.refl _, fun j st hj hst => ?_⟩
    obtain ⟨hlt, -⟩ := List.getElem?_eq_some_iff.1 hst
    omega
  | succ todo ih =>
    have hlt : i < stages.length := by omega
    have hstep : s.step stages .launch = some { s with
        children := if stages[i].forkOk then s.children ++ [⟨i, some g, none⟩] else s.children
        shell := .launching (i + 1) } := by
      simp only [OutRun.step, hs, OutRun.launch, List.getElem?_eq_getElem hlt, hg]
    obtain ⟨s', w, hr', hout, hs', hsub, hall⟩ := ih (.next hr trivial hstep) rfl (by omega)
    refine ⟨s', w, hr', hout, hs', fun c hc => hsub ?_, fun j st hj hst hf => ?_⟩
    · dsimp only
      split_ifs
      · exact List.mem_append_left _ hc
      · exact hc
    · rcases Nat.eq_or_lt_of_le hj with rfl | hlt
      · obtain rfl := Option.some.inj ((List.getElem?_eq_getElem hlt).symm.trans hst)
        apply hsub
        rw [if_pos hf]
        exact List.mem_append_right _ (.head _)
      · exact hall j st hlt hst hf

/-- Only the shell's own steps move the shell. -/
theorem OutRun.step_shell {a : OutAct} (h : s.step stages a = some s') :
    s'.shell = s.shell ∨ (∃ i, s.shell = .launching i ∧ s' = s.launch stages i) ∨
      ∃ w, s.shell = .waiting w := by
  cases outSteps_of_step h with
  | launch hi => exact .inr (.inl ⟨_, hi, rfl⟩)
  | wait hw => exact .inr (.inr ⟨_, hw⟩)
  | waitNone hw => exact .inr (.inr ⟨_, hw⟩)
  | write | change | copy | copyEnd => exact .inl rfl

/-- Without its first stage the pipeline is not waited for. -/
theorem returned_none (hg : leader stages = none)
    (h : Reachable (OutRun.step stages) (.init stages files) s) :
    (∃ i, s.shell = .launching i) ∨ s.shell = .returned none := by
  induction h with
  | start => exact .inl ⟨0, rfl⟩
  | @next s s' _ _ _ hstep ih =>
    obtain hkeep | ⟨i, -, rfl⟩ | ⟨w, hw⟩ := OutRun.step_shell hstep
    · rwa [hkeep]
    · rw [OutRun.launch]
      split
      · exact .inl ⟨_, rfl⟩
      · rw [hg]
        exact .inr rfl
    · rw [hw] at ih
      obtain ⟨i, hi⟩ | hi := ih <;> cases hi

/-! ## What gets to a file stays there -/

theorem openOutputFiles_nil {file : ℕ} : ∀ (outs : List OutFile) {files : ℕ → Str},
    files file = [] → openOutputFiles outs files file = []
  | [], _, h => h
  | out :: outs, files, h => by
    rw [openOutputFiles]
    split_ifs
    · exact openOutputFiles_nil outs h
    · refine openOutputFiles_nil outs ?_
      by_cases hf : file = out.file
      · rw [hf, Function.update_self]
      · rw [Function.update_of_ne hf, h]
    · exact h

theorem openOutputFiles_truncated {out : OutFile} (happ : out.append = false) :
    ∀ {outs : List OutFile} (files : ℕ → Str), out ∈ outs → outs.all OutFile.opens →
      openOutputFiles outs files out.file = []
  | out' :: outs, files, hmem, hall => by
    simp only [List.all_cons, Bool.and_eq_true] at hall
    rw [openOutputFiles, if_pos hall.1]
    rcases List.mem_cons.1 hmem with rfl | hmem
    · rw [if_neg (by simp [happ])]
      exact openOutputFiles_nil outs (Function.update_self ..)
    · exact openOutputFiles_truncated happ _ hmem hall.2

/-- A file that a stage has opened with `>` is empty when the stages start. -/
theorem openAll_truncated {out : OutFile} (hmem : st ∈ stages) (hout : out ∈ st.outputs)
    (happ : out.append = false) (hset : st.setupFailed = false) (files : ℕ → Str) :
    openAll stages files out.file = [] := by
  have hall : st.outputs.all OutFile.opens := by
    simp only [OutStage.setupFailed, Bool.or_eq_false_iff, Bool.not_eq_false'] at hset
    exact hset.1.2
  have hkeep : ∀ (rest : List OutStage) (files : ℕ → Str), files out.file = [] →
      openAll rest files out.file = [] := by
    intro rest
    induction rest with
    | nil => exact fun _ h => h
    | cons st' rest ih => exact fun files h => ih _ (openOutputFiles_nil st'.outputs h)
  obtain ⟨pre, post, rfl⟩ := List.append_of_mem hmem
  rw [openAll, List.foldl_append, List.foldl_cons]
  exact hkeep post _ (openOutputFiles_truncated happ _ hout hall)

/-- At the end of the file a `write` adds its bytes. -/
theorem writeAt_length (bytes content : Str) : writeAt content.length bytes content = content ++ bytes := by
  simp [writeAt]

/-- No stage that runs has two output files, and two of them share one only to append. -/
structure Separate (stages : List OutStage) : Prop where
  single : ∀ st ∈ stages, st.runs → st.outputs.length ≤ 1
  shared : stages.Pairwise fun a b => a.runs → b.runs →
    ∀ x ∈ a.outputs, ∀ y ∈ b.outputs, x.file = y.file → x.append ∧ y.append

theorem Separate.append (h : Separate stages) {j : ℕ} {a b : OutStage} (ha : stages[i]? = some a)
    (hb : stages[j]? = some b) (hne : i ≠ j) (hra : a.runs) (hrb : b.runs) {x y : OutFile}
    (hx : x ∈ a.outputs) (hy : y ∈ b.outputs) (hxy : x.file = y.file) : x.append ∧ y.append := by
  obtain ⟨hi, rfl⟩ := List.getElem?_eq_some_iff.1 ha
  obtain ⟨hj, rfl⟩ := List.getElem?_eq_some_iff.1 hb
  have hpair := List.pairwise_iff_getElem.1 h.shared
  rcases Nat.lt_or_gt_of_ne hne with hlt | hlt
  · exact hpair i j hi hj hlt hra hrb x hx y hy hxy
  · exact (hpair j i hj hi hlt hrb hra y hy x hx hxy.symm).symm

/-- A file a stage writes to directly has its bytes: behind what the file had, in order but perhaps
    among the bytes of others, or as its only bytes. -/
def Stored (stages : List OutStage) (opened : ℕ → Str) (s : OutRun) : Prop :=
  ∀ (i : ℕ) (st : OutStage) (o : Output), stages[i]? = some st → s.outputs[i]? = some o → st.runs →
    ∀ out ∈ st.outputs,
      if out.append then ∃ more, s.files out.file = opened out.file ++ more ∧ o.written.Sublist more
      else s.files out.file = o.written

theorem Stored.init (files : ℕ → Str) :
    Stored stages (openAll stages files) (.init stages files) := by
  intro i st o hst ho hruns out hout
  rw [OutRun.init, List.getElem?_map, hst] at ho
  obtain rfl := Option.some.inj ho
  split
  · exact ⟨[], (List.append_nil _).symm, .slnil⟩
  · rename_i happ
    exact openAll_truncated (List.mem_of_getElem? hst) hout (by simpa using happ)
      (OutStage.setup_of_runs hruns) files

theorem Separate.outputs_cases (h : Separate stages) (hst : st ∈ stages) (hruns : st.runs) :
    st.outputs = [] ∨ ∃ out, st.outputs = [out] := by
  rcases Nat.le_one_iff_eq_zero_or_eq_one.1 (h.single st hst hruns) with h0 | h1
  · exact .inl (List.eq_nil_of_length_eq_zero h0)
  · exact .inr (List.length_eq_one_iff.1 h1)

/-- A stage that runs writes to its file. -/
theorem Stored.write {opened : ℕ → Str} {bytes : Str} (h : Stored stages opened s)
    (hsep : Separate stages) (hinv : s.Inv stages) (hst : stages[i]? = some st)
    (ho : s.outputs[i]? = some o) (hruns : st.runs) :
    Stored stages opened { s with
      outputs := s.outputs.set i (o.write st bytes)
      files := o.writtenTo st bytes s.files } := by
  intro j st' o' hst' ho' hruns' out hout
  rcases hsep.outputs_cases (List.mem_of_getElem? hst) hruns with hnone | ⟨out₀, hone⟩
  · -- it has no file
    have hfiles : o.writtenTo st bytes s.files = s.files := by
      rw [Output.writtenTo, if_neg (by rw [hnone]; exact Nat.zero_ne_one)]
    rcases getElem?_set_cases ho' with ⟨rfl, rfl⟩ | ⟨-, hj⟩
    · obtain rfl := Option.some.inj (hst.symm.trans hst')
      rw [hnone] at hout
      cases hout
    · simp only [hfiles]
      exact h j st' o' hst' hj hruns' out hout
  · simp only [(hinv.output i st o hst ho).1.writtenTo_single hone, OutFile.write]
    rcases getElem?_set_cases ho' with ⟨rfl, rfl⟩ | ⟨hij, hj⟩
    · -- its own file
      obtain rfl := Option.some.inj (hst.symm.trans hst')
      obtain rfl : out = out₀ := List.mem_singleton.1 (hone ▸ hout)
      have hold := h j st o hst ho hruns out hout
      simp only [Function.update_self, Output.written_write]
      by_cases happ : out.append = true
      · rw [if_pos happ] at hold
        rw [if_pos happ, if_pos happ]
        obtain ⟨more, hmore, hsub⟩ := hold
        exact ⟨more ++ bytes, by rw [hmore, List.append_assoc], hsub.append_right bytes⟩
      · rw [if_neg happ] at hold
        rw [if_neg happ, if_neg happ, hold, writeAt_length]
    · have hold := h j st' o' hst' hj hruns' out hout
      by_cases hfile : out.file = out₀.file
      · -- a file of another stage: both append
        obtain ⟨happ₀, happ⟩ := hsep.append hst hst' (Ne.symm hij) hruns hruns'
          (hone ▸ List.mem_singleton_self out₀) hout hfile.symm
        rw [if_pos happ] at hold ⊢
        obtain ⟨more, hmore, hsub⟩ := hold
        refine ⟨more ++ bytes, ?_, hsub.trans (List.sublist_append_left more bytes)⟩
        rw [← hfile, Function.update_self, if_pos happ₀, hmore, List.append_assoc]
      · rw [Function.update_of_ne hfile]
        exact hold

/-- A stage that does not run leaves its copier nothing to copy. -/
theorem Output.Inv.copy_of_silent (h : Output.Inv st o) (hr : st.runs = false) :
    o.copy n = none := by
  rw [Output.copy]
  split
  · rw [h.pipe_of_silent hr, if_neg (by rw [List.length_nil]; omega)]
  · exact absurd ‹_› ((h.silent hr).2 _ _ _)
  · rfl

theorem Stored.copyEnd {opened : ℕ → Str} (h : Stored stages opened s)
    (ho : s.outputs[i]? = some o) :
    Stored stages opened { s with outputs := s.outputs.set i { o with copier := .exited } } := by
  intro j st' o' hst' ho' hruns out hout
  rcases getElem?_set_cases ho' with ⟨rfl, rfl⟩ | ⟨-, hj⟩
  · exact h j st' o hst' ho hruns out hout
  · exact h j st' o' hst' hj hruns out hout

/-- Only a `write` of a stage changes the files: a copier has nothing to copy. -/
theorem Stored.step {opened : ℕ → Str} {a : OutAct} (h : Stored stages opened s)
    (hsep : Separate stages) (hinv : s.Inv stages) (hs : s.step stages a = some s') :
    Stored stages opened s' := by
  cases outSteps_of_step hs with
  | launch hi =>
    rw [OutRun.launch]
    split <;> exact h
  | write hst ho hruns halive => exact h.write hsep hinv hst ho hruns
  | change i st => exact h
  | @copy i n st o o' hst ho hcop ho' =>
    have hsilent : st.runs = false := by
      by_contra hr
      have hle := hsep.single st (List.mem_of_getElem? hst) (by simpa using hr)
      simp only [OutStage.copied, Bool.and_eq_true, decide_eq_true_eq] at hcop
      omega
    rw [(hinv.output i st o hst ho).1.copy_of_silent hsilent] at ho'
    cases ho'
  | copyEnd hst ho => exact h.copyEnd ho
  | wait hw => exact h
  | waitNone hw => exact h

theorem Stored.reachable (hsep : Separate stages)
    (h : Reachable (OutRun.step stages) (.init stages files) s) :
    Stored stages (openAll stages files) s :=
  (h.invariant (P := fun s => s.Inv stages ∧ Stored stages (openAll stages files) s)
    ⟨.init stages files, .init files⟩
    fun _ _ _ hi _ hs => ⟨hi.1.step hs, hi.2.step hsep hi.1 hs⟩).2

/-- What a stage has written is in its files. -/
theorem Stored.complete (h : Stored stages (openAll stages files) s) (hinv : s.Inv stages)
    (hst : stages[i]? = some st) (ho : s.outputs[i]? = some o) {out : OutFile}
    (hout : out ∈ st.outputs) :
    o.written.Sublist ((s.files out.file).drop (openAll stages files out.file).length) ∧
      (st.runs → out.append = false → s.files out.file = o.written) := by
  constructor
  · by_cases hr : st.runs
    · have hstored := h i st o hst ho hr out hout
      split at hstored
      · obtain ⟨more, hmore, hsub⟩ := hstored
        rw [hmore, List.drop_left]
        exact hsub
      · rename_i happ
        rw [openAll_truncated (List.mem_of_getElem? hst) hout (by simpa using happ)
          (OutStage.setup_of_runs hr), hstored]
        exact List.Sublist.refl _
    · rw [((hinv.output i st o hst ho).1.silent (by simpa using hr)).1]
      exact List.nil_sublist _
  · intro hr happ
    have hstored := h i st o hst ho hr out hout
    rwa [if_neg (by simp [happ])] at hstored

/-! ## Runs in which a byte is missing -/

/-- The shell has forked all stages and waits. -/
theorem exists_started {g : ℕ} (hg : leader stages = some g) (files : ℕ → Str) :
    ∃ s w, Reachable (OutRun.step stages) (.init stages files) s ∧
      s.outputs = (OutRun.init stages files).outputs ∧ s.files = openAll stages files ∧
      s.shell = .waiting w ∧ ∀ i (st : OutStage), stages[i]? = some st → st.runs → s.Alive i := by
  obtain ⟨s, w, hr, ⟨hout, hfiles⟩, hs, -, hall⟩ :=
    exists_waiting hg stages.length .start (rfl : (OutRun.init stages files).shell = _) (Nat.zero_add _)
  refine ⟨s, w, hr, hout, hfiles, hs, fun i st hst hruns => ?_⟩
  have hf : st.forkOk := by
    simp only [OutStage.runs, Bool.and_eq_true] at hruns
    exact hruns.1.1
  exact ⟨_, hall i st (Nat.zero_le _) hst hf, rfl, nofun⟩

/-- From a state in which a byte is missing the shell can return without it. -/
theorem exists_incomplete {w : Wait} {out : OutFile}
    (hr : Reachable (OutRun.step stages) (.init stages files) s) (hs : s.shell = .waiting w)
    (hst : stages[i]? = some st) (ho : s.outputs[i]? = some o) (hout : out ∈ st.outputs)
    (hlack : ¬o.written.Sublist ((s.files out.file).drop (openAll stages files out.file).length)) :
    ∃ s' r, Reachable (OutRun.step stages) (.init stages files) s' ∧ s'.shell = .returned (some r) ∧
      (r = .finished ∨ r = .signaled) ∧ ¬s'.Complete stages files := by
  have hfits := (OutRun.Inv.reachable hr).place
  rw [hs] at hfits
  obtain ⟨s', r, hr', ⟨houts, hfiles⟩, hs', hres⟩ := exists_returned hr hs fun c hc => (hfits c hc).1
  refine ⟨s', r, hr', hs', hres, fun hcomp => hlack ?_⟩
  have := (hcomp.2 i st o hst (houts ▸ ho) out hout).1
  rwa [hfiles] at this

theorem OutRun.step_write (bytes : Str) (hst : stages[i]? = some st) (ho : s.outputs[i]? = some o)
    (hruns : st.runs) (halive : s.Alive i) :
    s.step stages (.write i bytes) = some { s with
      outputs := s.outputs.set i (o.write st bytes)
      files := o.writtenTo st bytes s.files } := by
  simp only [OutRun.step, hst, ho]
  rw [if_pos ⟨hruns, halive⟩]

/-- A stage with two output files writes a byte, and the shell returns before
    its copier has read it. -/
theorem exists_uncopied {g : ℕ} (hg : leader stages = some g) (hst : stages[i]? = some st)
    (hruns : st.runs) (hcount : 1 < st.outputs.length) (files : ℕ → Str) :
    ∃ s r, Reachable (OutRun.step stages) (.init stages files) s ∧ s.shell = .returned (some r) ∧
      (r = .finished ∨ r = .signaled) ∧ ¬s.Complete stages files := by
  obtain ⟨s, w, hr, houts, hfiles, hs, halive⟩ := exists_started hg files
  set o : Output := ⟨[], [], List.replicate st.outputs.length [], .reading⟩
  have ho : s.outputs[i]? = some o := by
    rw [houts, OutRun.init, List.getElem?_map, hst]
    rfl
  have hwrite := OutRun.step_write [0] hst ho hruns (halive i st hst hruns)
  obtain ⟨out, hout⟩ := List.exists_mem_of_length_pos (by omega : 0 < st.outputs.length)
  refine exists_incomplete (.next hr trivial hwrite) hs hst
    (List.getElem?_set_self (List.getElem?_eq_some_iff.1 ho).1) hout ?_
  -- nothing has got to the files
  have hwritten : (o.write st [0]).written = [0] := o.written_write
  simp only [Output.writtenTo, if_neg (Nat.ne_of_gt hcount), hfiles, hwritten, List.drop_length]
  exact nofun

/-- Two stages share a file, and the one that does not append writes over the byte of the other. -/
theorem exists_overwritten {g j : ℕ} {st' : OutStage} {x y : OutFile} (hg : leader stages = some g)
    (hi : stages[i]? = some st) (hj : stages[j]? = some st') (hne : i ≠ j) (hri : st.runs)
    (hrj : st'.runs) (hx : st.outputs = [x]) (hy : st'.outputs = [y]) (hxy : x.file = y.file)
    (happ : y.append = false) (files : ℕ → Str) :
    ∃ s r, Reachable (OutRun.step stages) (.init stages files) s ∧ s.shell = .returned (some r) ∧
      (r = .finished ∨ r = .signaled) ∧ ¬s.Complete stages files := by
  obtain ⟨s, w, hr, houts, hfiles, hs, halive⟩ := exists_started hg files
  set o : Output := ⟨[], [], [[]], .reading⟩
  have hnil : openAll stages files y.file = [] :=
    openAll_truncated (List.mem_of_getElem? hj) (by rw [hy]; exact List.mem_singleton_self y) happ
      (OutStage.setup_of_runs hrj) files
  have hoi : s.outputs[i]? = some o := by
    rw [houts, OutRun.init, List.getElem?_map, hi, Option.map_some, hx]
    rfl
  have hoj : s.outputs[j]? = some o := by
    rw [houts, OutRun.init, List.getElem?_map, hj, Option.map_some, hy]
    rfl
  have hinv := OutRun.Inv.reachable hr
  -- the first byte of the file is that of stage `i`, then that of stage `j`
  have hfirst : o.writtenTo st [1] s.files = Function.update s.files y.file [1] := by
    rw [(hinv.output i st o hi hoi).1.writtenTo_single hx, OutFile.write, hxy, hfiles, hnil]
    split <;> rfl
  have hsecond : o.writtenTo st' [2] (o.writtenTo st [1] s.files) y.file = [2] := by
    rw [(hinv.output j st' o hj hoj).1.writtenTo_single hy, hfirst, OutFile.write,
      Function.update_self, Function.update_self, happ, if_neg (by decide)]
    rfl
  have hwrite := OutRun.step_write [1] hi hoi hri (halive i st hi hri)
  have hoj' : (s.outputs.set i (o.write st [1]))[j]? = some o := by
    rw [List.getElem?_set_ne hne, hoj]
  have hwrite' := OutRun.step_write (s := { s with
    outputs := s.outputs.set i (o.write st [1])
    files := o.writtenTo st [1] s.files }) [2] hj hoj' hrj (halive j st' hj hrj)
  have hget : ((s.outputs.set i (o.write st [1])).set j (o.write st' [2]))[i]? =
      some (o.write st [1]) := by
    rw [List.getElem?_set_ne (Ne.symm hne)]
    exact List.getElem?_set_self (List.getElem?_eq_some_iff.1 hoi).1
  refine exists_incomplete (.next (.next hr trivial hwrite) trivial hwrite') hs hi hget
    (by rw [hx]; exact List.mem_singleton_self x) ?_
  have hwritten : (o.write st [1]).written = [1] := o.written_write
  dsimp only
  rw [hwritten, hxy, hnil, hsecond]
  decide

/-- **The files are complete whenever the shell has waited for all stages iff
    no stage that runs has two output files and two of them share one only to
    append** (or the first stage could not be forked, and the shell does not
    wait). -/
theorem complete_iff_single (stages : List OutStage) (files : ℕ → Str) :
    (∀ s r, Reachable (OutRun.step stages) (.init stages files) s → s.shell = .returned (some r) →
        (r = .finished ∨ r = .signaled) → s.Complete stages files) ↔
      leader stages = none ∨ Separate stages := by
  constructor
  · intro h
    by_contra hno
    obtain ⟨hleader, hsep⟩ := not_or.1 hno
    obtain ⟨g, hg⟩ := Option.ne_none_iff_exists'.1 hleader
    have hsingle : ∀ st ∈ stages, st.runs → st.outputs.length ≤ 1 := by
      intro st hmem hruns
      by_contra hcount
      obtain ⟨i, hi⟩ := List.getElem?_of_mem hmem
      obtain ⟨s, r, hr, hs, hres, hnot⟩ :=
        exists_uncopied hg hi hruns (Nat.lt_of_not_le hcount) files
      exact hnot (h s r hr hs hres)
    refine hsep ⟨hsingle, List.pairwise_iff_getElem.2 fun i j hi hj hlt hri hrj x hx y hy hxy => ?_⟩
    have honly : ∀ {st : OutStage} {out : OutFile}, st ∈ stages → st.runs → out ∈ st.outputs →
        st.outputs = [out] := by
      intro st out hmem hruns hout
      obtain ⟨out', hone⟩ := List.length_eq_one_iff.1
        (Nat.le_antisymm (hsingle st hmem hruns) (List.length_pos_of_mem hout))
      rw [hone] at hout ⊢
      rw [List.mem_singleton.1 hout]
    have hxs := honly (List.getElem_mem hi) hri hx
    have hys := honly (List.getElem_mem hj) hrj hy
    have hgi := List.getElem?_eq_getElem hi
    have hgj := List.getElem?_eq_getElem hj
    constructor
    · by_contra happ
      obtain ⟨s, r, hr, hs, hres, hnot⟩ := exists_overwritten hg hgj hgi (Nat.ne_of_gt hlt) hrj hri
        hys hxs hxy.symm (by simpa using happ) files
      exact hnot (h s r hr hs hres)
    · by_contra happ
      obtain ⟨s, r, hr, hs, hres, hnot⟩ := exists_overwritten hg hgi hgj (Nat.ne_of_lt hlt) hri hrj
        hxs hys hxy (by simpa using happ) files
      exact hnot (h s r hr hs hres)
  · rintro (hg | hsep) s r hr hs hres
    · rcases returned_none hg hr with ⟨i, hi⟩ | hnone
      · rw [hs] at hi
        cases hi
      · rw [hs] at hnone
        cases hnone
    · have hinv := OutRun.Inv.reachable hr
      refine ⟨?_, fun i st o hst ho out hout => (Stored.reachable hsep hr).complete hinv hst ho hout⟩
      have hfits := hinv.place
      rw [hs] at hfits
      exact hfits (hres.imp (congrArg some) (congrArg some))

/-- `echo > a > b`. -/
def twoOutputs : List OutStage := [⟨true, true, [⟨0, false, true⟩, ⟨1, false, true⟩], true, true⟩]

/-- `echo > f | echo > f`. -/
def sharedOutput : List OutStage :=
  [⟨true, true, [⟨0, false, true⟩], true, true⟩, ⟨true, true, [⟨0, false, true⟩], true, true⟩]

/-- In `echo > a > b` the shell returns while the byte is in the pipe, and in `echo > f | echo > f`
    the second stage has written over the byte of the first. -/
theorem returned_before_copied :
    (∃ s, Reachable (OutRun.step twoOutputs) (.init twoOutputs fun _ => []) s ∧
      s.shell = .returned (some .finished) ∧ s.outputs = [⟨[104], [104], [[], []], .reading⟩] ∧
      s.files 0 = [] ∧ s.files 1 = []) ∧
    ∃ s, Reachable (OutRun.step sharedOutput) (.init sharedOutput fun _ => []) s ∧
      s.shell = .returned (some .finished) ∧ s.outputs.map Output.written = [[97], [98]] ∧
      s.files 0 = [98] := by
  constructor
  · refine ⟨_, Reachable.of_run [.launch, .launch, .write 0 [104], .change 0 .exited,
      .wait 0 .exited] rfl, ?_, ?_, ?_, ?_⟩ <;> decide
  · refine ⟨_, Reachable.of_run [.launch, .launch, .launch, .write 0 [97], .write 1 [98],
      .change 0 .exited, .wait 0 .exited, .change 1 .exited, .wait 1 .exited] rfl, ?_, ?_, ?_⟩ <;> decide

end

end CShell
