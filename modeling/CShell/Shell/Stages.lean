/-
  C-Shell formalization — segments, stages and the builders on them.

  The builders are given a pointer into the list of tokens and find the end of
  their segment themselves; `parse_pipeline` then cuts the segment at the
  pipes.  Here these loops are related to the lists they stand for:

  * `redirectLoop_segment`: `parse_input_redirect` sees its segment only;
  * `parsePipeline_eq`: `parse_pipeline` builds the stages one by one;
  * `parseOutputRedirection_eq`: the compaction in place of
    `parse_output_redirection` is a partition (`splitOutputs`).
-/
import CShell.Shell.Builder
import Mathlib.Data.List.TakeWhile

namespace CShell

open Lib

/-! ## Segments -/

/-- The tokens up to the next `OP_SEMI` or `OP_AMP`. -/
def segment (current : List Token) : List Token := current.takeWhile fun t => !t.endsSegment

theorem segment_nil : segment [] = [] := rfl

theorem segment_cons_of_ends {t : Token} (h : t.endsSegment) (ts : List Token) :
    segment (t :: ts) = [] := by simp [segment, h]

theorem segment_cons {t : Token} (h : ¬t.endsSegment) (ts : List Token) :
    segment (t :: ts) = t :: segment ts := by simp [segment, h]

theorem isEnd_of_endsSegment {t : Token} (h : t.endsSegment) : isEnd t := by
  simp only [Token.endsSegment, Bool.or_eq_true, decide_eq_true_eq] at h
  rcases h with rfl | rfl <;> decide

theorem hasPipeline_iff : ∀ ts : List Token, hasPipeline ts ↔ .op .pipe ∈ segment ts
  | [] => by simp [hasPipeline, segment]
  | t :: ts => by
    by_cases ht : t.endsSegment
    · simp [hasPipeline, segment_cons_of_ends ht, ht]
    · rw [segment_cons ht, hasPipeline, if_neg ht, List.mem_cons, ← hasPipeline_iff ts]
      by_cases hp : t = .op .pipe
      · simp [hp]
      · simp [hp, Ne.symm hp]

theorem countStages_eq : ∀ (ts : List Token) (n : ℕ),
    countStages n ts = n + (segment ts).count (.op .pipe)
  | [], n => by simp [countStages, segment]
  | t :: ts, n => by
    by_cases ht : t.endsSegment
    · simp [countStages, segment_cons_of_ends ht, ht]
    · rw [segment_cons ht, countStages, if_neg ht, countStages_eq ts, List.count_cons]
      by_cases hp : t = .op .pipe
      · simp [hp]; omega
      · simp [hp]

section
variable {α : Type} (entry : Token → α) (text : α → Str)

theorem redirectLoop_segment : ∀ (ts : List Token) (argv files : List α),
    redirectLoop entry isEnd argv files (segment ts) = redirectLoop entry isEnd argv files ts
  | [], _, _ => rfl
  | t :: ts, argv, files => by
    by_cases ht : t.endsSegment
    · rw [segment_cons_of_ends ht, redirectLoop_stop (isEnd_of_endsSegment ht)]
    rw [segment_cons ht]
    by_cases hend : isEnd t
    · rw [redirectLoop_stop hend, redirectLoop_stop hend]
    by_cases hlt : t.value = str "<"
    · match ts with
      | [] => rfl
      | .word w :: ts =>
        rw [segment_cons (by simp [Token.endsSegment]), redirectLoop_file hend hlt, redirectLoop_file hend hlt]
        exact bind_congr fun files => redirectLoop_segment ts argv files
      | .op o :: ts =>
        have hseg : ∀ w us, segment (.op o :: ts) ≠ .word w :: us := by
          by_cases ho : (Token.op o).endsSegment
          · simp [segment_cons_of_ends ho]
          · simp [segment_cons ho]
        rw [redirectLoop_noFile hend hlt hseg, redirectLoop_noFile hend hlt (by simp)]
    · rw [redirectLoop_arg hend hlt, redirectLoop_arg hend hlt]
      exact bind_congr fun argv => redirectLoop_segment ts argv files

/-! ## The stages of a pipeline -/

/-- The stages of a segment: what stands between its pipes. -/
def stages (seg : List Token) : List (List Token) := seg.splitOnP (· = .op .pipe)

theorem length_stages : ∀ seg : List Token, (stages seg).length = 1 + seg.count (.op .pipe)
  | [] => rfl
  | t :: ts => by
    have ih := length_stages ts
    rw [stages] at ih ⊢
    rw [List.splitOnP_cons_eq_if_modifyHead, List.count_cons]
    by_cases hp : t = .op .pipe
    · simp [hp, ih]; omega
    · simp [hp, ih]

/-- Build the commands of all stages, until one fails. -/
def buildStages : List (List Token) → Except Fault (Option (List (Command α)))
  | [] => .ok (some [])
  | ts :: tss => do
    match ← parsePipelineStage entry text ts with
    | none => return none
    | some stage => mapOk (stage :: ·) (buildStages tss)

theorem stages_of_not_mem {ts : List Token} (h : .op .pipe ∉ ts) : stages ts = [ts] :=
  List.splitOnP_eq_singleton fun _ ht => decide_eq_false (ne_of_mem_of_not_mem ht h)

theorem stages_append_pipe {ts : List Token} (h : .op .pipe ∉ ts) (us : List Token) :
    stages (ts ++ .op .pipe :: us) = ts :: stages us :=
  List.splitOnP_append_cons_of_forall_mem (fun _ ht => decide_eq_false (ne_of_mem_of_not_mem ht h))
    _ (by simp) us

/-- A stage is a part of its segment, without a pipe. -/
theorem infix_of_mem_stages : ∀ {seg ts : List Token}, ts ∈ stages seg → ts <:+: seg ∧ .op .pipe ∉ ts
  | seg, ts, h => by
    by_cases hp : .op .pipe ∈ seg
    · obtain ⟨as, bs, hseg, has⟩ := List.eq_append_cons_of_mem hp
      rw [hseg, stages_append_pipe has, List.mem_cons] at h
      rcases h with rfl | h
      · exact ⟨hseg ▸ (List.prefix_append ts _).isInfix, has⟩
      · have hlen : bs.length < seg.length := by rw [hseg]; simp; omega
        obtain ⟨h1, h2⟩ := infix_of_mem_stages h
        exact ⟨hseg ▸ h1.trans ((List.suffix_cons _ bs).trans (List.suffix_append as _)).isInfix, h2⟩
    · rw [stages_of_not_mem hp, List.mem_singleton] at h
      exact ⟨h ▸ List.infix_rfl, h ▸ hp⟩
  termination_by seg => seg.length

theorem segment_isPrefix (ts : List Token) : segment ts <+: ts := List.takeWhile_prefix _

/-- The call of `parse_pipeline_stage` for the last stage. -/
theorem lastStage_eq {count : ℕ} {result : List (Command α)} (hc : result.length < count)
    (start : List Token) :
    (parsePipelineStage entry text start >>= fun r => match r with
      | none => pure none
      | some stage => push count result stage >>= fun stages => pure (some stages)) =
      mapOk (result ++ ·) (buildStages entry text [start]) := by
  rw [buildStages]
  rcases parsePipelineStage entry text start with e | _ | stage
  · rfl
  · rfl
  · simp [push_of_lt stage hc, buildStages]

theorem pipelineLoop_eq {count : ℕ} : ∀ (cursor start : List Token) (result : List (Command α)),
    .op .pipe ∉ start → result.length + (stages (start ++ segment cursor)).length ≤ count →
      pipelineLoop entry text count start result cursor =
        mapOk (result ++ ·) (buildStages entry text (stages (start ++ segment cursor)))
  | [], start, result, hp, hc => by
    rw [segment_nil, List.append_nil, stages_of_not_mem hp] at hc ⊢
    exact lastStage_eq entry text hc start
  | t :: cursor, start, result, hp, hc => by
    by_cases ht : t.endsSegment
    · rw [segment_cons_of_ends ht, List.append_nil, stages_of_not_mem hp] at hc ⊢
      rw [pipelineLoop, if_pos ht]
      exact lastStage_eq entry text hc start
    rw [segment_cons ht] at hc ⊢
    rw [pipelineLoop, if_neg ht]
    by_cases htp : t = .op .pipe
    · subst htp
      rw [stages_append_pipe hp, List.length_cons] at hc
      rw [if_pos rfl, stages_append_pipe hp, buildStages]
      rcases parsePipelineStage entry text start with e | _ | stage
      · rfl
      · rfl
      · have ih : pipelineLoop entry text count [] (result ++ [stage]) cursor = _ :=
          pipelineLoop_eq cursor [] (result ++ [stage]) (by simp) (by
            rw [List.nil_append, List.length_append, List.length_singleton]; omega)
        have hlt : result.length < count := by omega
        simp only [ok_bind, push_of_lt stage hlt]
        rw [ih, List.nil_append]
        rcases buildStages entry text (stages (segment cursor)) with e | _ | st <;> simp
    · have ih := @pipelineLoop_eq count cursor (start ++ [t]) result
      rw [List.append_assoc, List.singleton_append] at ih
      rw [if_neg htp]
      exact ih (by simp [hp, Ne.symm htp]) hc

/-- **`parse_pipeline` builds the stages of its segment**, and `stage_count`
    is their number. -/
theorem parsePipeline_eq (current : List Token) :
    parsePipeline entry text current =
      mapOk (·, (stages (segment current)).length) (buildStages entry text (stages (segment current))) := by
  have hc : countStages 1 current = (stages (segment current)).length := by
    rw [countStages_eq, length_stages]
  rw [parsePipeline, hc, pipelineLoop_eq entry text current [] [] (by simp) (by simp), List.nil_append]
  rcases buildStages entry text (stages (segment current)) with e | _ | st <;> rfl

/-! ## Output redirections -/

/-- The arguments and the output files among the entries of `argv`. -/
def splitOutputs : List α → Option (List α × List (OutputFile α))
  | [] => some ([], [])
  | [a] => if isOutput text a then none else some ([a], [])
  | a :: name :: rest =>
    if isOutput text a then
      (splitOutputs rest).map fun r => (r.1, ⟨name, text a = str ">>"⟩ :: r.2)
    else
      (splitOutputs (name :: rest)).map fun r => (a :: r.1, r.2)

variable {text} in
theorem splitOutputs_arg {a : α} (h : ¬isOutput text a) (rest : List α) :
    splitOutputs text (a :: rest) = (splitOutputs text rest).map fun r => (a :: r.1, r.2) := by
  cases rest with
  | nil => exact if_neg h
  | cons b rest => rw [splitOutputs, if_neg h]

/-- The write to the front of `argv`: it hits a slot already read, or the
    entry itself. -/
theorem set_kept (kept junk rest : List α) (a : α) :
    ∃ junk', junk'.length = junk.length ∧
      (kept ++ junk ++ a :: rest).set kept.length a = (kept ++ [a]) ++ junk' ++ rest := by
  cases junk with
  | nil => exact ⟨[], rfl, by simp⟩
  | cons b junk => exact ⟨junk ++ [a], by simp, by simp⟩

variable {text} in
/-- The loop, with the entries `kept` moved to the front, `junk` the slots
    between them and the entries `rest` still to be read. -/
theorem outputLoop_eq : ∀ (n : ℕ) (kept junk rest : List α) (files : List (OutputFile α)),
    rest.length = n → files.length + rest.length ≤ maxArgs →
      outputLoop text (kept ++ junk ++ rest) (kept.length + junk.length) kept.length files n =
        .ok ((splitOutputs text rest).map fun r => (kept ++ r.1, files ++ r.2))
  | 0, kept, junk, [], files, _, _ => by simp [outputLoop, splitOutputs]
  | n + 1, kept, junk, a :: rest, files, hn, hf => by
    have ha : (kept ++ junk ++ a :: rest)[kept.length + junk.length]? = some a := by
      rw [← List.length_append, List.getElem?_append_right (Nat.le_refl _)]; simp
    simp only [List.length_cons, Nat.add_right_cancel_iff] at hn hf
    rw [outputLoop.eq_def]
    simp only [ha]
    by_cases hout : isOutput text a
    · rw [if_pos hout]
      match n, rest, hn with
      | 0, [], _ => simp [splitOutputs, hout]
      | n + 1, name :: rest, hn =>
        have hname : (kept ++ junk ++ a :: name :: rest)[kept.length + junk.length + 1]? = some name := by
          rw [← List.length_append, List.getElem?_append_right (Nat.le_succ _)]; simp
        have hlt : files.length < maxArgs := by omega
        have ih := outputLoop_eq n kept (junk ++ [a, name]) rest
          (files ++ [⟨name, text a = str ">>"⟩]) (by simpa using hn)
          (by rw [List.length_cons] at hf; simp; omega)
        simp only [hname, push_of_lt _ hlt, ok_bind]
        simp only [List.append_assoc, List.cons_append, List.nil_append, List.length_append,
          List.length_cons, List.length_nil, ← Nat.add_assoc, Nat.zero_add] at ih ⊢
        rw [ih, splitOutputs, if_pos hout, Option.map_map]
        rfl
    · rw [if_neg hout, splitOutputs_arg hout]
      obtain ⟨junk', hlen, hset⟩ := set_kept kept junk rest a
      have ih := outputLoop_eq n (kept ++ [a]) junk' rest files hn (by omega)
      rw [hlen, List.length_append, List.length_singleton] at ih
      rw [hset, Nat.add_right_comm, ih, Option.map_map]
      simp [Function.comp_def]

/-- **The compaction is a partition**, for every `argv` with its terminator in
    bounds. -/
theorem parseOutputRedirection_eq {argv : List α} (h : argv.length < maxArgs) :
    parseOutputRedirection text argv = .ok (splitOutputs text argv) := by
  have := @outputLoop_eq _ text argv.length [] [] argv [] rfl (by simp; omega)
  simpa [parseOutputRedirection] using this

/-! ## Input redirections -/

/-- What the common loop collects from a list of tokens. -/
structure Inputs (α : Type) where
  argv : List α
  files : List α
  /-- no `<` without a file was met -/
  complete : Bool

/-- The first loop without its arrays: the tokens up to the end of the command, apart from `<` and the
    names behind it. -/
def splitInputs (stop : Token → Bool) : List Token → Inputs α
  | [] => ⟨[], [], true⟩
  | t :: ts =>
    if stop t then ⟨[], [], true⟩
    else if t.value = str "<" then
      match ts with
      | .word w :: ts =>
        let r := splitInputs stop ts
        ⟨r.argv, entry (.word w) :: r.files, r.complete⟩
      | _ => ⟨[], [], false⟩
    else
      let r := splitInputs stop ts
      ⟨entry t :: r.argv, r.files, r.complete⟩

section
variable {entry} {stop : Token → Bool} {t : Token}

theorem splitInputs_stop (h : stop t) (ts : List Token) : splitInputs entry stop (t :: ts) = ⟨[], [], true⟩ := by
  rw [splitInputs.eq_def]; exact if_pos h

theorem splitInputs_file (hstop : ¬stop t) (hlt : t.value = str "<") (w : Str) (ts : List Token) :
    splitInputs entry stop (t :: .word w :: ts) = ⟨(splitInputs entry stop ts).argv,
      entry (.word w) :: (splitInputs entry stop ts).files, (splitInputs entry stop ts).complete⟩ := by
  rw [splitInputs.eq_def]; exact (if_neg hstop).trans (if_pos hlt)

theorem splitInputs_noFile (hstop : ¬stop t) (hlt : t.value = str "<") {ts : List Token}
    (hts : ∀ w us, ts ≠ .word w :: us) : splitInputs entry stop (t :: ts) = ⟨[], [], false⟩ := by
  rw [splitInputs.eq_def]
  refine ((if_neg hstop).trans (if_pos hlt)).trans ?_
  match ts, hts with
  | [], _ => rfl
  | .op o :: us, _ => rfl
  | .word w :: us, h => exact absurd rfl (h w us)

theorem splitInputs_arg (hstop : ¬stop t) (hlt : t.value ≠ str "<") (ts : List Token) :
    splitInputs entry stop (t :: ts) = ⟨entry t :: (splitInputs entry stop ts).argv,
      (splitInputs entry stop ts).files, (splitInputs entry stop ts).complete⟩ := by
  rw [splitInputs.eq_def]; exact (if_neg hstop).trans (if_neg hlt)

end

/-- The arrays have room for what is collected, and for the terminator. -/
def Inputs.Fits (r : Inputs α) : Prop :=
  r.argv.length + r.complete.toNat ≤ maxArgs ∧ r.files.length ≤ maxArgs

instance (r : Inputs α) : Decidable r.Fits :=
  inferInstanceAs (Decidable (r.argv.length + r.complete.toNat ≤ maxArgs ∧ r.files.length ≤ maxArgs))

/-- What is in the arrays before the loop, and what it collects. -/
def Inputs.after (argv files : List α) (r : Inputs α) : Inputs α :=
  ⟨argv ++ r.argv, files ++ r.files, r.complete⟩

/-- The result of the loop: an array is overrun iff the entries do not fit. -/
def Inputs.result (r : Inputs α) : Except Fault (Option (List α × List α)) :=
  if r.Fits then .ok (if r.complete then some (r.argv, r.files) else none) else .error .overrun

theorem redirectLoop_end {stop : Token → Bool} (argv files : List α) (hf : files.length ≤ maxArgs) :
    redirectLoop entry stop argv files [] = (Inputs.after argv files ⟨[], [], true⟩).result := by
  simp only [redirectLoop_nil, Inputs.after, Inputs.result, List.append_nil, terminate, Inputs.Fits,
    Bool.toNat_true, hf, and_true, Nat.lt_iff_add_one_le]
  split <;> rfl

theorem redirectLoop_eq {stop : Token → Bool} : ∀ (ts : List Token) (argv files : List α),
    argv.length ≤ maxArgs → files.length ≤ maxArgs →
      redirectLoop entry stop argv files ts = ((splitInputs entry stop ts).after argv files).result
  | [], argv, files, _, hf => redirectLoop_end entry argv files hf
  | t :: ts, argv, files, ha, hf => by
    by_cases ht : stop t
    · rw [redirectLoop_stop ht, splitInputs_stop ht, redirectLoop_end entry argv files hf]
    by_cases hlt : t.value = str "<"
    · match ts with
      | .word w :: ts =>
        rw [redirectLoop_file ht hlt, splitInputs_file ht hlt]
        by_cases hroom : files.length < maxArgs
        · rw [push_of_lt _ hroom, ok_bind, redirectLoop_eq ts argv _ ha (by rwa [List.length_append])]
          simp [Inputs.after]
        · have hno : ¬files.length + ((splitInputs entry stop ts).files.length + 1) ≤ maxArgs := by omega
          rw [push, if_neg hroom, error_bind]
          simp [Inputs.after, Inputs.result, Inputs.Fits, hno]
      | [] =>
        rw [redirectLoop_noFile ht hlt (by simp), splitInputs_noFile ht hlt (by simp)]
        simp [Inputs.after, Inputs.result, Inputs.Fits, ha, hf]
      | .op o :: ts =>
        rw [redirectLoop_noFile ht hlt (by simp), splitInputs_noFile ht hlt (by simp)]
        simp [Inputs.after, Inputs.result, Inputs.Fits, ha, hf]
    · rw [redirectLoop_arg ht hlt, splitInputs_arg ht hlt]
      by_cases hroom : argv.length < maxArgs
      · rw [push_of_lt _ hroom, ok_bind, redirectLoop_eq ts _ files (by rwa [List.length_append]) hf]
        simp [Inputs.after]
      · have hno : ¬argv.length + ((splitInputs entry stop ts).argv.length + 1) +
            (splitInputs entry stop ts).complete.toNat ≤ maxArgs := by omega
        rw [push, if_neg hroom, error_bind]
        simp [Inputs.after, Inputs.result, Inputs.Fits, hno]

theorem redirectLoop_start (stop : Token → Bool) (ts : List Token) :
    redirectLoop entry stop [] [] ts = (splitInputs entry stop ts).result :=
  redirectLoop_eq entry ts [] [] (Nat.zero_le _) (Nat.zero_le _)

/-! ## The two builders -/

/-- The arguments are terminated in bounds. -/
theorem redirectLoop_length {stop : Token → Bool} : ∀ (ts : List Token) (argv files : List α),
    Returns (redirectLoop entry stop argv files ts) (fun r => r.1.length < maxArgs)
  | [], argv, files => returns_terminate fun h => returns_some h
  | t :: ts, argv, files => by
    by_cases ht : stop t
    · rw [redirectLoop_stop ht]
      exact returns_terminate fun h => returns_some h
    by_cases hlt : t.value = str "<"
    · match ts with
      | .word w :: ts =>
        rw [redirectLoop_file ht hlt]
        exact returns_push fun _ => redirectLoop_length ts argv _
      | [] => rw [redirectLoop_noFile ht hlt (by simp)]; exact returns_none _
      | .op o :: ts => rw [redirectLoop_noFile ht hlt (by simp)]; exact returns_none _
    · rw [redirectLoop_arg ht hlt]
      exact returns_push fun _ => redirectLoop_length ts _ files

/-- The command of the collected arguments and input files. -/
def finish (r : List α × List α) : Option (Command α) :=
  (splitOutputs text r.1).map fun s => ⟨s.1, r.2, s.2⟩

theorem buildSimple_eq (current : List Token) :
    buildSimple entry text current = bindOk (redirectLoop entry isEnd [] [] current) (finish text) := by
  rw [buildSimple, parseInputRedirect]
  have h := @redirectLoop_length _ entry isEnd current [] []
  rcases hr : redirectLoop entry isEnd [] [] current with e | _ | ⟨argv, files⟩
  · rfl
  · rfl
  · rw [hr] at h
    rw [ok_bind, bindOk_some, finish]
    simp only [parseOutputRedirection_eq text (h _ rfl), ok_bind]
    rcases splitOutputs text argv with _ | r <;> rfl

theorem splitOutputs_length : ∀ (argv : List α), ∀ r ∈ splitOutputs text argv, r.1.length ≤ argv.length
  | [], r, h => by cases h; simp
  | [a], r, h => by
    by_cases ha : isOutput text a
    · simp [splitOutputs, ha] at h
    · simp only [splitOutputs, ha, ↓reduceIte, Option.mem_def, Option.some.injEq] at h
      simp [← h]
  | a :: b :: argv, r, h => by
    by_cases ha : isOutput text a
    · rw [splitOutputs, if_pos ha, Option.mem_def, Option.map_eq_some_iff] at h
      obtain ⟨s, hs, rfl⟩ := h
      have := splitOutputs_length argv s hs
      simp only [List.length_cons]
      omega
    · rw [splitOutputs_arg ha, Option.mem_def, Option.map_eq_some_iff] at h
      obtain ⟨s, hs, rfl⟩ := h
      have := splitOutputs_length (b :: argv) s hs
      simpa using this

/-- A pipeline stage must have an argument. -/
def finishStage (r : List α × List α) : Option (Command α) :=
  (finish text r).filter fun c => c.argv.length > 0

theorem parsePipelineStage_eq (ts : List Token) :
    parsePipelineStage entry text ts =
      bindOk (redirectLoop entry (fun _ => false) [] [] ts) (finishStage text) := by
  rw [parsePipelineStage]
  have h := @redirectLoop_length _ entry (fun _ => false) ts [] []
  rcases hr : redirectLoop entry (fun _ => false) [] [] ts with e | _ | ⟨argv, files⟩
  · rfl
  · rfl
  · rw [hr] at h
    have hlen := h _ rfl
    rw [ok_bind, bindOk_some, finishStage, finish]
    simp only [parseOutputRedirection_eq text hlen, ok_bind]
    rcases hs : splitOutputs text argv with _ | r
    · rfl
    · have hr : r.1.length < maxArgs := Nat.lt_of_le_of_lt (splitOutputs_length text argv r hs) hlen
      simp only [terminate_of_lt hr, ok_bind, Option.map_some, Option.filter_some]
      by_cases h0 : r.1.length > 0
      · simp [h0]
      · simp [h0]

end

end CShell
