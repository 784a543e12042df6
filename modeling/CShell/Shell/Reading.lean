/-
  C-Shell formalization — the grammar's reading of a stage.

  The parser checks the grammar and keeps nothing of it.  The grammar's own
  reading goes by the types of the tokens: `stageOf` has the arguments, input
  files and output files of a stage.  The builders go by the texts, and read a
  stage in the same way if the texts they compare are not those of operators
  (`ReadAsWords`).

  * `stages_of_parsing`: every stage of an accepted line is a word followed by
    words and redirections;
  * `split_args`: what the two loops of the builders make of such a stage;
  * `kept_of_finish`: what they keep was not taken for an operator.
-/
import CShell.Shell.Segments
import CShell.Shell.Parser

namespace CShell

open Lib

/-! ## The grammar's reading of a stage -/

/-- What `f` takes from the words, given the operator directly before. -/
def collect {β : Type} (f : Option Op → Str → Option β) (prev : Option Op) : List Token → List β
  | [] => []
  | .op o :: ts => collect f (some o) ts
  | .word w :: ts => (f prev w).toList ++ collect f none ts

/-- The words not directly after a redirection operator. -/
def args : List Token → List Str :=
  collect (fun prev w => if prev ∈ [some .lt, some .gt, some .gtgt] then none else some w) none

/-- The words after `OP_LT`. -/
def inputs : List Token → List Str :=
  collect (fun prev w => if prev = some .lt then some w else none) none

/-- The words after `OP_GT` and `OP_GTGT`. -/
def outputs : List Token → List (OutputFile Str) :=
  collect (fun prev w => match prev with
    | some .gt => some ⟨w, false⟩
    | some .gtgt => some ⟨w, true⟩
    | _ => none) none

/-- The command of a stage. -/
def stageOf (ts : List Token) : Command Str := ⟨args ts, inputs ts, outputs ts⟩

/-! ## The stages of an accepted line -/

/-- Words and redirections. -/
inductive Args : List Token → Prop
  | nil : Args []
  | word {w ts} : Args ts → Args (.word w :: ts)
  | redirect {o w ts} : o = .lt ∨ o = .gt ∨ o = .gtgt → Args ts → Args (.op o :: .word w :: ts)

/-- A stage of the grammar. -/
def IsStage (ts : List Token) : Prop := ∃ w us, ts = .word w :: us ∧ Args us

theorem Args.append {ts us : List Token} (hts : Args ts) (hus : Args us) : Args (ts ++ us) := by
  induction hts with
  | nil => exact hus
  | word _ ih => exact .word ih
  | redirect ho _ ih => exact .redirect ho ih

theorem IsStage.append {ts us : List Token} (hts : IsStage ts) (hus : Args us) : IsStage (ts ++ us) := by
  obtain ⟨w, vs, rfl, hvs⟩ := hts
  exact ⟨w, vs ++ us, rfl, hvs.append hus⟩

/-- More tokens without a pipe belong to the last stage. -/
theorem mem_stages_append {us : List Token} (hus : .op .pipe ∉ us) : ∀ {ts st : List Token},
    st ∈ stages (ts ++ us) → st ∈ stages ts ∨ ∃ st' ∈ stages ts, st = st' ++ us
  | ts, st, h => by
    by_cases hp : .op .pipe ∈ ts
    · obtain ⟨as, bs, hts, has⟩ := List.eq_append_cons_of_mem hp
      rw [hts, List.append_assoc, List.cons_append, stages_append_pipe has, List.mem_cons] at h
      rw [hts, stages_append_pipe has]
      rcases h with rfl | h
      · exact Or.inl List.mem_cons_self
      · have hlen : bs.length < ts.length := by rw [hts]; simp; omega
        rcases mem_stages_append hus h with h | ⟨st', hst', rfl⟩
        · exact Or.inl (List.mem_cons_of_mem _ h)
        · exact Or.inr ⟨st', List.mem_cons_of_mem _ hst', rfl⟩
    · rw [stages_of_not_mem (by simp [hp, hus]), List.mem_singleton] at h
      rw [stages_of_not_mem hp]
      exact Or.inr ⟨ts, List.mem_singleton_self _, h⟩
  termination_by ts => ts.length

theorem stages_append_args {seg us : List Token} (hseg : ∀ st ∈ stages seg, IsStage st) (hus : Args us)
    (hp : .op .pipe ∉ us) : ∀ st ∈ stages (seg ++ us), IsStage st := by
  intro st hst
  rcases mem_stages_append hp hst with h | ⟨st', h, rfl⟩
  · exact hseg st h
  · exact (hseg st' h).append hus

/-- The stages of the segments of a line, of which `seg` has been read. -/
theorem stages_of_mem_tail : ∀ {ts seg : List Token}, ts ∈ Grammar.tail → (∀ st ∈ stages seg, IsStage st) →
    ∀ p ∈ segmentsFrom seg ts, ∀ st ∈ stages p.1, IsStage st
  | ts, seg, h, hseg => by
    rcases Grammar.mem_tail.1 h with rfl | rfl | h | ⟨o, us, rfl, hus⟩
    · intro p hp
      rw [segmentsFrom] at hp
      split at hp
      · simp at hp
      · rwa [List.mem_singleton.1 hp]
    · intro p hp
      rw [segmentsFrom, segmentsFrom, if_pos rfl, List.mem_singleton] at hp
      rwa [hp]
    · obtain ⟨w, us, rfl, hus⟩ := Grammar.mem_word_mul.1 h
      rw [segmentsFrom_cons (by simp [Token.endsSegment])]
      exact stages_of_mem_tail hus (stages_append_args hseg (.word .nil) (by simp))
    · obtain ⟨w, us, rfl, hus'⟩ := Grammar.mem_word_mul.1 hus
      have hw : ∀ st ∈ stages [.word w], IsStage st := by
        rw [stages_of_not_mem (by simp)]
        simpa using ⟨w, [], rfl, .nil⟩
      -- `seg` goes on with the operator, or a new segment begins with `w`
      have hmore : ∀ op, ¬(Token.op op).endsSegment → (∀ st ∈ stages (seg ++ [.op op, .word w]), IsStage st) →
          ∀ p ∈ segmentsFrom seg (.op op :: .word w :: us), ∀ st ∈ stages p.1, IsStage st := by
        intro op hop hst
        rw [segmentsFrom_cons hop, segmentsFrom_cons (by simp [Token.endsSegment]), List.append_assoc]
        exact stages_of_mem_tail hus' hst
      have hnew : ∀ b, ∀ p ∈ (seg, b) :: segmentsFrom [] (.word w :: us), ∀ st ∈ stages p.1, IsStage st := by
        intro b p hp
        rcases List.mem_cons.1 hp with rfl | hp
        · exact hseg
        · rw [segmentsFrom_cons (by simp [Token.endsSegment])] at hp
          exact stages_of_mem_tail hus' hw p hp
      cases o with
      | semi => exact hnew false
      | amp => exact hnew true
      | pipe =>
        refine hmore .pipe (by decide) fun st hst => ?_
        rw [stages, List.splitOnP_append_cons _ _ (by simp), List.mem_append] at hst
        exact hst.elim (hseg st) (hw st)
      | lt => exact hmore .lt (by decide) (stages_append_args hseg (.redirect (by simp) .nil) (by simp))
      | gt => exact hmore .gt (by decide) (stages_append_args hseg (.redirect (by simp) .nil) (by simp))
      | gtgt => exact hmore .gtgt (by decide) (stages_append_args hseg (.redirect (by simp) .nil) (by simp))
  termination_by ts => ts.length

/-- Every stage of an accepted line is one of the grammar. -/
theorem stages_of_parsing {tokens : List Token} (h : parsing tokens) :
    ∀ p ∈ segments tokens, ∀ st ∈ stages p.1, IsStage st := by
  rcases (parsing_iff tokens).1 h with rfl | h
  · intro p hp
    simp [segments, segmentsFrom] at hp
  · obtain ⟨w, us, rfl, hus⟩ := Grammar.mem_word_mul.1 h
    rw [segments, segmentsFrom_cons (by simp [Token.endsSegment])]
    refine stages_of_mem_tail hus ?_
    rw [List.nil_append, stages_of_not_mem (by simp)]
    simpa using ⟨w, [], rfl, .nil⟩

/-! ## Words taken for operators -/

/-- `parse_input_redirect` stops at some texts, `parse_pipeline_stage` at none. -/
def stopsAt (simple : Bool) (t : Token) : Bool := simple && isEnd t

theorem stopsAt_true : stopsAt true = isEnd := rfl

/-- The first loop passes over the text: it is no `<` and, in a simple command, no `;` or `&`. -/
def Passes (simple : Bool) (w : Str) : Prop :=
  w ≠ str "<" ∧ (simple = true → w ≠ str ";" ∧ w ≠ str "&")

instance (simple : Bool) (w : Str) : Decidable (Passes simple w) :=
  inferInstanceAs (Decidable (w ≠ str "<" ∧ (simple = true → w ≠ str ";" ∧ w ≠ str "&")))

/-- No word is taken for an operator.  The names of input files are compared with nothing, those of
    output files by the first loop only. -/
def ReadAsWords (simple : Bool) (ts : List Token) : Prop :=
  (∀ w ∈ args ts, Passes simple w ∧ ¬isOutput id w) ∧ ∀ o ∈ outputs ts, Passes simple o.name

instance (simple : Bool) (ts : List Token) : Decidable (ReadAsWords simple ts) :=
  inferInstanceAs (Decidable ((∀ w ∈ args ts, Passes simple w ∧ ¬isOutput id w) ∧
    ∀ o ∈ outputs ts, Passes simple o.name))

section
variable {simple : Bool} {w : Str} {ts : List Token}

theorem passes_iff (t : Token) : Passes simple t.value ↔ ¬stopsAt simple t ∧ t.value ≠ str "<" := by
  cases simple with
  | false => simp [Passes, stopsAt]
  | true => simp [Passes, stopsAt, isEnd, and_comm]

theorem not_stopsAt_redirect {o : Op} (ho : o = .lt ∨ o = .gt ∨ o = .gtgt) :
    ¬stopsAt simple (.op o) := by
  rcases ho with rfl | rfl | rfl <;> cases simple <;> decide

theorem ReadAsWords.word (h : ReadAsWords simple (.word w :: ts)) :
    (Passes simple w ∧ ¬isOutput id w) ∧ ReadAsWords simple ts :=
  ⟨h.1 w List.mem_cons_self, fun v hv => h.1 v (List.mem_cons_of_mem _ hv), h.2⟩

theorem ReadAsWords.output {o : Op} (ho : o = .gt ∨ o = .gtgt)
    (h : ReadAsWords simple (.op o :: .word w :: ts)) : Passes simple w ∧ ReadAsWords simple ts := by
  rcases ho with rfl | rfl
  · exact ⟨h.2 ⟨w, false⟩ List.mem_cons_self, h.1, fun o ho => h.2 o (List.mem_cons_of_mem _ ho)⟩
  · exact ⟨h.2 ⟨w, true⟩ List.mem_cons_self, h.1, fun o ho => h.2 o (List.mem_cons_of_mem _ ho)⟩

end

/-! ## The builders on a stage -/

/-- What the two loops of the builders make of the words and redirections of
    a stage.  Output redirections take two entries of `raw_argv`. -/
theorem split_args {simple : Bool} {ts : List Token} (hts : Args ts) (hread : ReadAsWords simple ts) :
    ∃ raw, splitInputs Token.value (stopsAt simple) ts = ⟨raw, inputs ts, true⟩ ∧
      splitOutputs id raw = some (args ts, outputs ts) ∧
      raw.length = (args ts).length + 2 * (outputs ts).length := by
  induction hts with
  | nil => exact ⟨[], rfl, rfl, rfl⟩
  | @word w ts _ ih =>
    obtain ⟨⟨hpass, hout⟩, hrest⟩ := hread.word
    obtain ⟨raw, h1, h2, h3⟩ := ih hrest
    obtain ⟨hs, hlt⟩ := (passes_iff (.word w)).1 hpass
    refine ⟨w :: raw, ?_, ?_, ?_⟩
    · rw [splitInputs_arg hs hlt, h1]; rfl
    · rw [splitOutputs_arg hout, h2]; rfl
    · change raw.length + 1 = (args ts).length + 1 + 2 * (outputs ts).length
      omega
  | @redirect o w ts ho _ ih =>
    have hop := @not_stopsAt_redirect simple o ho
    rcases ho with rfl | rfl | rfl
    · obtain ⟨raw, h1, h2, h3⟩ := ih hread
      refine ⟨raw, ?_, h2, h3⟩
      rw [splitInputs_file hop rfl, h1]; rfl
    · obtain ⟨hpass, hrest⟩ := hread.output (.inl rfl)
      obtain ⟨raw, h1, h2, h3⟩ := ih hrest
      obtain ⟨hs, hlt⟩ := (passes_iff (.word w)).1 hpass
      refine ⟨str ">" :: w :: raw, ?_, ?_, ?_⟩
      · rw [splitInputs_arg hop (by decide), splitInputs_arg hs hlt, h1]; rfl
      · rw [splitOutputs, if_pos (by decide), h2]; rfl
      · change raw.length + 1 + 1 = (args ts).length + 2 * ((outputs ts).length + 1)
        omega
    · obtain ⟨hpass, hrest⟩ := hread.output (.inr rfl)
      obtain ⟨raw, h1, h2, h3⟩ := ih hrest
      obtain ⟨hs, hlt⟩ := (passes_iff (.word w)).1 hpass
      refine ⟨str ">>" :: w :: raw, ?_, ?_, ?_⟩
      · rw [splitInputs_arg hop (by decide), splitInputs_arg hs hlt, h1]; rfl
      · rw [splitOutputs, if_pos (by decide), h2]; rfl
      · change raw.length + 1 + 1 = (args ts).length + 2 * ((outputs ts).length + 1)
        omega

/-- The entries of a stage fit `raw_argv`. -/
def HasRoom (ts : List Token) : Prop := (args ts).length + 2 * (outputs ts).length ≤ 99

instance (ts : List Token) : Decidable (HasRoom ts) :=
  inferInstanceAs (Decidable ((args ts).length + 2 * (outputs ts).length ≤ 99))

theorem IsStage.args {ts : List Token} (h : IsStage ts) : Args ts := by
  obtain ⟨w, us, rfl, hus⟩ := h
  exact .word hus

theorem args_ne_nil {ts : List Token} (h : IsStage ts) : args ts ≠ [] := by
  obtain ⟨w, us, rfl, -⟩ := h
  simp [CShell.args, collect]

/-- The arrays have room for a stage iff its entries fit `raw_argv` and its
    input files `input_files`. -/
theorem fits_iff {simple : Bool} {ts : List Token} (hts : IsStage ts) (hread : ReadAsWords simple ts) :
    (splitInputs Token.value (stopsAt simple) ts).Fits ↔
      HasRoom ts ∧ (inputs ts).length ≤ maxArgs := by
  obtain ⟨raw, h1, -, h3⟩ := split_args hts.args hread
  rw [h1, Inputs.Fits, HasRoom]
  simp only [Bool.toNat_true, maxArgs]
  omega

/-- What a builder makes of a stage after the first loop: the command of the
    grammar, unless the arrays are too short. -/
theorem bindOk_stage {simple : Bool} {ts : List Token} (hts : IsStage ts)
    (hread : ReadAsWords simple ts) {k : List Str × List Str → Option (Command Str)}
    (hk : ∀ raw, splitOutputs id raw = some (args ts, outputs ts) →
      k (raw, inputs ts) = some (stageOf ts)) :
    bindOk (redirectLoop Token.value (stopsAt simple) [] [] ts) k =
      if HasRoom ts ∧ (inputs ts).length ≤ maxArgs then .ok (some (stageOf ts))
      else .error .overrun := by
  obtain ⟨raw, h1, h2, -⟩ := split_args hts.args hread
  have hfits := fits_iff hts hread
  rw [redirectLoop_start, Inputs.result]
  by_cases hroom : HasRoom ts ∧ (inputs ts).length ≤ maxArgs
  · rw [if_pos (hfits.2 hroom), if_pos hroom, h1]
    exact congrArg Except.ok (hk raw h2)
  · rw [if_neg (mt hfits.1 hroom), if_neg hroom, bindOk_error]

theorem buildSimple_stage {ts : List Token} (hts : IsStage ts) (hread : ReadAsWords true ts) :
    buildSimple Token.value id ts =
      if HasRoom ts ∧ (inputs ts).length ≤ maxArgs then .ok (some (stageOf ts))
      else .error .overrun := by
  rw [buildSimple_eq]
  refine bindOk_stage hts hread fun raw hraw => ?_
  rw [finish, hraw]
  rfl

theorem parsePipelineStage_stage {ts : List Token} (hts : IsStage ts) (hread : ReadAsWords false ts) :
    parsePipelineStage Token.value id ts =
      if HasRoom ts ∧ (inputs ts).length ≤ maxArgs then .ok (some (stageOf ts))
      else .error .overrun := by
  rw [parsePipelineStage_eq]
  refine bindOk_stage hts hread fun raw hraw => ?_
  have hlen : (args ts).length > 0 := List.length_pos_iff.2 (args_ne_nil hts)
  rw [finishStage, finish, hraw, Option.map_some, Option.filter_some, if_pos (by simpa using hlen)]
  rfl

/-! ## What is kept -/

/-- An entry of `raw_argv` is passed over by the first loop. -/
theorem passes_of_mem_splitInputs {simple : Bool} : ∀ {ts : List Token} {w : Str},
    w ∈ (splitInputs Token.value (stopsAt simple) ts).argv → Passes simple w
  | t :: ts, w, h => by
    by_cases ht : stopsAt simple t
    · rw [splitInputs_stop ht] at h
      cases h
    by_cases hlt : t.value = str "<"
    · match ts, h with
      | .word v :: ts, h =>
        rw [splitInputs_file ht hlt] at h
        exact passes_of_mem_splitInputs h
      | [], h =>
        rw [splitInputs_noFile ht hlt (by simp)] at h
        cases h
      | .op o :: ts, h =>
        rw [splitInputs_noFile ht hlt (by simp)] at h
        cases h
    · rw [splitInputs_arg ht hlt] at h
      rcases List.mem_cons.1 h with rfl | h
      · exact (passes_iff t).2 ⟨ht, hlt⟩
      · exact passes_of_mem_splitInputs h

/-- The second loop keeps no output operator, and its names are entries. -/
theorem of_splitOutputs : ∀ {raw : List Str} {r : List Str × List (OutputFile Str)},
    splitOutputs id raw = some r →
      (∀ w ∈ r.1, w ∈ raw ∧ ¬isOutput id w) ∧ ∀ o ∈ r.2, o.name ∈ raw
  | [], r, h => by
    cases h
    simp
  | [w], r, h => by
    by_cases hw : isOutput id w
    · simp [splitOutputs, hw] at h
    · simp only [splitOutputs, hw, ↓reduceIte, Option.some.injEq] at h
      simp [← h, hw]
  | w :: name :: raw, r, h => by
    by_cases hw : isOutput id w
    · rw [splitOutputs, if_pos hw, Option.map_eq_some_iff] at h
      obtain ⟨s, hs, rfl⟩ := h
      obtain ⟨h1, h2⟩ := of_splitOutputs hs
      refine ⟨fun v hv => ⟨by simp [(h1 v hv).1], (h1 v hv).2⟩, fun o ho => ?_⟩
      rcases List.mem_cons.1 ho with rfl | ho
      · simp
      · simp [h2 o ho]
    · rw [splitOutputs_arg hw, Option.map_eq_some_iff] at h
      obtain ⟨s, hs, rfl⟩ := h
      obtain ⟨h1, h2⟩ := of_splitOutputs hs
      refine ⟨fun v hv => ?_, fun o ho => List.mem_cons_of_mem _ (h2 o ho)⟩
      rcases List.mem_cons.1 hv with rfl | hv
      · exact ⟨List.mem_cons_self, hw⟩
      · exact ⟨List.mem_cons_of_mem _ (h1 v hv).1, (h1 v hv).2⟩

/-- **What is kept is no operator**: the arguments and names of a command that is built were not
    spelled like what they are compared with. -/
theorem kept_of_finish {simple : Bool} {ts : List Token} {c : Command Str}
    (h : bindOk (redirectLoop Token.value (stopsAt simple) [] [] ts) (finish id) = .ok (some c)) :
    (∀ w ∈ c.argv, Passes simple w ∧ ¬isOutput id w) ∧
      ∀ o ∈ c.outputFiles, Passes simple o.name := by
  have hpass := @passes_of_mem_splitInputs simple ts
  rw [redirectLoop_start, Inputs.result] at h
  generalize splitInputs Token.value (stopsAt simple) ts = r at h hpass
  split at h
  · split at h
    · have hc : finish id (r.argv, r.files) = some c := Except.ok.inj h
      obtain ⟨s, hs, rfl⟩ := Option.map_eq_some_iff.1 hc
      obtain ⟨h1, h2⟩ := of_splitOutputs hs
      exact ⟨fun w hw => ⟨hpass (h1 w hw).1, (h1 w hw).2⟩, fun o ho => hpass (h2 o ho)⟩
    · cases h
  · cases h

end CShell
