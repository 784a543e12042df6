/-
  C-Shell formalization — the loops that copy bytes (`start_output_copier`, its
  copies in `run_pipeline_background` and `run_background`, and the writer of
  `setup_input`).

  `read` gives the bytes of a stream in chunks, and `write` takes as many of the
  bytes it is given as it likes, or fails, which ends the process.

  * `writeAll_ends`: the loop around `write` sends the buffer from `written` on,
    or a part of it from there;
  * `outputCopier_ends`, `setupInputWriter_ends`: so each descriptor gets the
    whole stream, or a prefix of it if a `write` has failed;
  * `copy_loops`: this holds for all four loops.
-/
import CShell.Shell.Token
import CShell.Lib.Exits
import Mathlib.Data.List.FinRange
import Mathlib.Data.List.Forall2
import Mathlib.Logic.Function.Basic

namespace CShell

open Lib

/-! ## The loops -/

/-- The size of `buffer`. -/
def copySize : ℕ := 4096

/-- How often `write` has been called, and what each descriptor has got. -/
structure Copy (n : ℕ) where
  calls : ℕ
  outs : Fin n → Str

/-- Before the first `read`. -/
def Copy.init (n : ℕ) : Copy n := ⟨0, fun _ => []⟩

/-- A `write` that takes these bytes. -/
def Copy.send {n : ℕ} (c : Copy n) (fd : Fin n) (bytes : Str) : Copy n :=
  ⟨c.calls + 1, Function.update c.outs fd (c.outs fd ++ bytes)⟩

section
variable {n : ℕ} (write : ℕ → ℤ)

/-- `while(written<bytes)`: the `k`th call of `write` returns `write k`, or the
    number of bytes it is given if that is less.  If it is not positive,
    `_exit(1)`. -/
def writeAll (fd : Fin n) (buffer : Str) (written : ℕ) (c : Copy n) : Except (Copy n) (Copy n) :=
  if written < buffer.length then
    let result := min (write c.calls) ((buffer.length - written : ℕ) : ℤ)
    if result ≤ 0 then .error { c with calls := c.calls + 1 }
    else
      let bytes := (buffer.drop written).take result.toNat
      writeAll fd buffer (written + result.toNat) (c.send fd bytes)
  else .ok c
termination_by buffer.length - written

/-- `while((bytes=read(..))>0)`, with the bytes each call of `read` gives; after
    them it returns 0. -/
def readLoop (body : Copy n → Str → Except (Copy n) (Copy n)) :
    List Str → Copy n → Except (Copy n) (Copy n)
  | [], c => .ok c
  | buffer :: reads, c =>
    if 0 < buffer.length then do
      let c ← body c buffer
      readLoop body reads c
    else .ok c

/-- The loop over the output descriptors. -/
def writeEach (c : Copy n) (buffer : Str) : Except (Copy n) (Copy n) :=
  (List.finRange n).foldlM (fun c fd => writeAll write fd buffer 0 c) c

/-- The process that copies from a pipe to `n` descriptors. -/
def outputCopier (reads : List Str) : Except (Copy n) (Copy n) :=
  readLoop (writeEach write) reads (Copy.init n)

end

/-- The child of `start_output_copier`, with `stage->output_count` descriptors. -/
def startOutputCopier (outputCount : ℕ) (write : ℕ → ℤ) (reads : List Str) :
    Except (Copy outputCount) (Copy outputCount) := outputCopier write reads

/-- The one in `run_pipeline_background`, with `stages[i].output_count`. -/
def runPipelineBackgroundCopier (outputCount : ℕ) (write : ℕ → ℤ) (reads : List Str) :
    Except (Copy outputCount) (Copy outputCount) := outputCopier write reads

/-- The one in `run_background`, with `file_count`. -/
def runBackgroundCopier (fileCount : ℕ) (write : ℕ → ℤ) (reads : List Str) :
    Except (Copy fileCount) (Copy fileCount) := outputCopier write reads

/-- `pipefd[1]`, the only descriptor that the child of `setup_input` writes to. -/
def writeEnd : Fin 1 := Fin.last 0

/-- The child of `setup_input`: file by file into the pipe. -/
def setupInputWriter (write : ℕ → ℤ) (files : List (List Str)) : Except (Copy 1) (Copy 1) :=
  files.foldlM
    (fun c reads => readLoop (fun c buffer => writeAll write writeEnd buffer 0 c) reads c)
    (Copy.init 1)

/-! ## Writes -/

section
variable {n : ℕ} {write : ℕ → ℤ}

/-- No `write` has failed. -/
def Copy.Fine (write : ℕ → ℤ) (c : Copy n) : Prop := ∀ k < c.calls, 0 < write k

/-- A `write` has failed. -/
def Copy.Failed (write : ℕ → ℤ) (c : Copy n) : Prop := ∃ k < c.calls, write k ≤ 0

theorem Copy.Fine.send {c : Copy n} (h : c.Fine write) (hc : 0 < write c.calls) (fd : Fin n)
    (bytes : Str) : (c.send fd bytes).Fine write := by
  intro k hk
  rcases Nat.lt_or_eq_of_le (Nat.le_of_lt_succ hk) with hlt | rfl
  · exact h k hlt
  · exact hc

/-- What is sent after these bytes. -/
theorem Copy.update_send (c : Copy n) (fd : Fin n) (bytes more : Str) :
    Function.update (c.send fd bytes).outs fd ((c.send fd bytes).outs fd ++ more) =
      Function.update c.outs fd (c.outs fd ++ (bytes ++ more)) := by
  simp only [Copy.send, Function.update_self, Function.update_idem, List.append_assoc]

/-- **A buffer is sent from `written` on, or a part of it.** -/
theorem writeAll_ends (fd : Fin n) (buffer : Str) (written : ℕ) (c : Copy n) (hc : c.Fine write) :
    Ends
      (fun c' => c'.Fine write ∧
        c'.outs = Function.update c.outs fd (c.outs fd ++ buffer.drop written))
      (fun c' => c'.Failed write ∧ ∃ sent, sent <+: buffer.drop written ∧
        c'.outs = Function.update c.outs fd (c.outs fd ++ sent))
      (writeAll write fd buffer written c) := by
  fun_induction writeAll write fd buffer written c with
  | case1 written c hlt result hres =>
    refine ⟨⟨c.calls, Nat.lt_succ_self _, ?_⟩, [], List.nil_prefix, ?_⟩
    · omega
    · rw [List.append_nil, Function.update_eq_self]
  | case2 written c hlt result hres bytes ih =>
    have hpos : 0 < write c.calls := by omega
    have hsplit : bytes ++ buffer.drop (written + result.toNat) = buffer.drop written := by
      rw [← List.drop_drop, List.take_append_drop]
    refine (ih (hc.send hpos fd bytes)).mono ?_ ?_
    · rintro c' ⟨hfine, houts⟩
      refine ⟨hfine, ?_⟩
      rw [houts, Copy.update_send, hsplit]
    · rintro c' ⟨hfailed, sent, hsent, houts⟩
      refine ⟨hfailed, bytes ++ sent, ?_, ?_⟩
      · rw [← hsplit]
        exact (List.prefix_append_right_inj bytes).2 hsent
      · rw [houts, Copy.update_send]
  | case3 written c hle =>
    refine ⟨hc, ?_⟩
    rw [List.drop_eq_nil_of_le (Nat.le_of_not_lt hle), List.append_nil, Function.update_eq_self]

/-! ## Streams -/

/-- Each descriptor has got `s`. -/
def Copy.Got (write : ℕ → ℤ) (s : Str) (c : Copy n) : Prop := c.Fine write ∧ ∀ i, c.outs i = s

/-- The process has ended with a part of `stream` on each descriptor. -/
def Copy.Cut (write : ℕ → ℤ) (stream : Str) (c : Copy n) : Prop :=
  c.Failed write ∧ ∀ i, c.outs i <+: stream

theorem Copy.Cut.mono {s stream : Str} {c : Copy n} (h : c.Cut write s) (hs : s <+: stream) :
    c.Cut write stream := ⟨h.1, fun i => (h.2 i).trans hs⟩

/-- A buffer goes to each descriptor. -/
theorem writeEach_ends {s : Str} {c : Copy n} (hc : c.Got write s) (buffer : Str) :
    Ends (Copy.Got write (s ++ buffer)) (Copy.Cut write (s ++ buffer))
      (writeEach write c buffer) := by
  -- the descriptors that have been gone through have got it
  let I : List (Fin n) → Copy n → Prop := fun past c =>
    c.Fine write ∧ ∀ i, c.outs i = if i ∈ past then s ++ buffer else s
  have hloop : Ends (I (List.finRange n)) (Copy.Cut write (s ++ buffer))
      (writeEach write c buffer) := by
    refine Ends.foldlM ?_ ⟨hc.1, fun i => by simp [hc.2 i]⟩
    intro past fd rest c hl hI
    have hfd : fd ∉ past := by
      have hnodup := List.nodup_finRange n
      rw [hl, List.nodup_append] at hnodup
      intro hmem
      exact hnodup.2.2 fd hmem fd List.mem_cons_self rfl
    have hold : c.outs fd = s := by rw [hI.2, if_neg hfd]
    refine (writeAll_ends fd buffer 0 c hI.1).mono ?_ ?_
    · rintro c' ⟨hfine, houts⟩
      refine ⟨hfine, ?_⟩
      intro i
      by_cases hi : i = fd
      · subst hi
        simp [houts, hold]
      · rw [houts, Function.update_of_ne hi, hI.2]
        simp [hi]
    · rintro c' ⟨hfailed, sent, hsent, houts⟩
      refine ⟨hfailed, ?_⟩
      intro i
      by_cases hi : i = fd
      · subst hi
        rw [houts, Function.update_self, hold]
        exact (List.prefix_append_right_inj s).2 hsent
      · rw [houts, Function.update_of_ne hi, hI.2]
        split
        · exact List.prefix_rfl
        · exact List.prefix_append s buffer
  refine hloop.mono ?_ fun c' h => h
  rintro c' ⟨hfine, houts⟩
  exact ⟨hfine, fun i => by rw [houts, if_pos (List.mem_finRange i)]⟩

/-- One descriptor. -/
theorem writeAll_got {s : Str} {c : Copy 1} (hc : c.Got write s) (buffer : Str) :
    Ends (Copy.Got write (s ++ buffer)) (Copy.Cut write (s ++ buffer))
      (writeAll write writeEnd buffer 0 c) := by
  refine (writeAll_ends writeEnd buffer 0 c hc.1).mono ?_ ?_
  · rintro c' ⟨hfine, houts⟩
    refine ⟨hfine, ?_⟩
    intro i
    rw [houts, Subsingleton.elim i writeEnd, Function.update_self, hc.2, List.drop_zero]
  · rintro c' ⟨hfailed, sent, hsent, houts⟩
    refine ⟨hfailed, ?_⟩
    intro i
    rw [houts, Subsingleton.elim i writeEnd, Function.update_self, hc.2]
    exact (List.prefix_append_right_inj s).2 hsent

/-- The chunks in which a stream is read. -/
structure Chunks (stream : Str) (reads : List Str) : Prop where
  flatten : reads.flatten = stream
  pos : ∀ buffer ∈ reads, 0 < buffer.length
  fits : ∀ buffer ∈ reads, buffer.length ≤ copySize

/-- **However a stream is read**, its bytes go on as they come. -/
theorem readLoop_ends {body : Copy n → Str → Except (Copy n) (Copy n)}
    (hbody : ∀ s c buffer, Copy.Got write s c →
      Ends (Copy.Got write (s ++ buffer)) (Copy.Cut write (s ++ buffer)) (body c buffer))
    {stream s : Str} {reads : List Str} (hreads : Chunks stream reads) {c : Copy n}
    (hc : c.Got write s) :
    Ends (Copy.Got write (s ++ stream)) (Copy.Cut write (s ++ stream)) (readLoop body reads c) := by
  obtain ⟨rfl, hpos, -⟩ := hreads
  induction reads generalizing s c with
  | nil => simpa [readLoop, Ends] using hc
  | cons buffer reads ih =>
    rw [List.forall_mem_cons] at hpos
    rw [readLoop, if_pos hpos.1, List.flatten_cons, ← List.append_assoc]
    refine ((hbody s c buffer hc).mono (fun c' h => h) ?_).bind ?_
    · intro c' h
      exact h.mono (List.prefix_append _ _)
    · intro c' h
      exact ih h hpos.2

theorem Copy.got_init (n : ℕ) : (Copy.init n).Got write [] := by
  refine ⟨?_, fun _ => rfl⟩
  intro k hk
  exact absurd hk (Nat.not_lt_zero k)

theorem outputCopier_ends {stream : Str} {reads : List Str} (hreads : Chunks stream reads) :
    Ends (Copy.Got write stream) (Copy.Cut write stream)
      (outputCopier (n := n) write reads) :=
  readLoop_ends (fun _ _ buffer hc => writeEach_ends hc buffer) hreads (Copy.got_init n)

/-- The files follow one another. -/
theorem setupInputWriter_ends {contents : List Str} {files : List (List Str)}
    (hfiles : List.Forall₂ Chunks contents files) :
    Ends (Copy.Got write contents.flatten) (Copy.Cut write contents.flatten)
      (setupInputWriter write files) := by
  suffices h : ∀ (s : Str) (c : Copy 1), c.Got write s →
      Ends (Copy.Got write (s ++ contents.flatten)) (Copy.Cut write (s ++ contents.flatten))
        (files.foldlM (fun c reads =>
          readLoop (fun c buffer => writeAll write writeEnd buffer 0 c) reads c) c) from
    h [] (Copy.init 1) (Copy.got_init 1)
  induction hfiles with
  | nil =>
    intro s c hc
    rw [List.flatten_nil, List.append_nil]
    exact hc
  | cons hfile _ ih =>
    intro s c hc
    rw [List.foldlM_cons, List.flatten_cons, ← List.append_assoc]
    refine ((readLoop_ends (fun _ _ buffer hc => writeAll_got hc buffer) hfile hc).mono
      (fun c' h => h) ?_).bind ?_
    · intro c' h
      exact h.mono (List.prefix_append _ _)
    · intro c' h
      exact ih _ c' h

end

/-- **The four copy loops**: however `read` splits the stream and whatever `write` takes at a time,
    every descriptor gets the stream if no `write` fails, and otherwise a prefix of it; the input
    writer sends the files one after the other. -/
theorem copy_loops (write : ℕ → ℤ) :
    (∀ copier ∈ [startOutputCopier, runPipelineBackgroundCopier, runBackgroundCopier],
      ∀ (n : ℕ) (stream : Str) (reads : List Str), Chunks stream reads →
        match copier n write reads with
        | .ok c => (∀ k < c.calls, 0 < write k) ∧ ∀ i, c.outs i = stream
        | .error c => (∃ k < c.calls, write k ≤ 0) ∧ ∀ i, c.outs i <+: stream) ∧
      ∀ (contents : List Str) (files : List (List Str)), List.Forall₂ Chunks contents files →
        match setupInputWriter write files with
        | .ok c => (∀ k < c.calls, 0 < write k) ∧ c.outs writeEnd = contents.flatten
        | .error c => (∃ k < c.calls, write k ≤ 0) ∧ c.outs writeEnd <+: contents.flatten := by
  constructor
  · intro copier hcopier n stream reads hreads
    have hcopy : copier n write reads = outputCopier write reads := by
      simp only [List.mem_cons, List.not_mem_nil, or_false] at hcopier
      rcases hcopier with rfl | rfl | rfl
      · rfl
      · rfl
      · rfl
    have hends : Ends (Copy.Got write stream) (Copy.Cut write stream) (copier n write reads) := by
      rw [hcopy]
      exact outputCopier_ends hreads
    generalize copier n write reads = r at hends ⊢
    cases r with
    | ok c => exact hends
    | error c => exact hends
  · intro contents files hfiles
    have hends : Ends (Copy.Got write contents.flatten) (Copy.Cut write contents.flatten)
        (setupInputWriter write files) := setupInputWriter_ends hfiles
    generalize setupInputWriter write files = r at hends ⊢
    cases r with
    | ok c => exact ⟨hends.1, hends.2 writeEnd⟩
    | error c => exact ⟨hends.1, hends.2 writeEnd⟩

/-- Two descriptors, and `write` takes one byte at a time. -/
theorem copy_loops_two :
    Chunks (str "abc") [str "ab", str "c"] ∧
      match startOutputCopier 2 (fun _ => 1) [str "ab", str "c"] with
      | .ok c => ∀ i, c.outs i = str "abc"
      | .error _ => False := by
  have hreads : Chunks (str "abc") [str "ab", str "c"] := ⟨by decide, by decide, by decide⟩
  refine ⟨hreads, ?_⟩
  have hends := (copy_loops fun _ => 1).1 startOutputCopier List.mem_cons_self 2 _ _ hreads
  generalize startOutputCopier 2 (fun _ => 1) [str "ab", str "c"] = r at hends ⊢
  cases r with
  | ok c => exact hends.2
  | error c =>
    obtain ⟨⟨_, _, hle⟩, _⟩ := hends
    exact absurd hle (by decide)

end CShell
