import Mathlib
import SureCode.Proofs.Completion
import SureCode.Proofs.Evaluation.Basic

/-!
# Evaluation of the first line

The first line of a completion is made of pairs of a token and its log-probability. For a completion
of one line this cuts the longer of the two lists to the length of the other and changes nothing
else, so a sample with as many tokens as log-probabilities is evaluated as it is. Where the lists
differ in length, evaluating the whole completion fails, and evaluating its first line goes on with
what is left of them.
-/

namespace SureCode

variable {κ : Type}

namespace Completion

/-- The text is one line without white space around it, and no token breaks the line. -/
structure SingleLine (c : Completion κ) : Prop where
  text : '\n' ∉ c.text.toList
  trimmed : Text.trimmed c.text.toList = c.text.toList
  tokens : ∀ token ∈ c.tokens, '\n' ∉ token.toList

/-- The completion without the end of the longer list, so that each token has a log-probability and
the other way round. -/
def paired (c : Completion κ) : Completion κ where
  text := c.text
  tokens := c.tokens.take c.logprobs.length
  logprobs := c.logprobs.take c.tokens.length

theorem map_fst_zip_eq_take (tokens : List String) (logprobs : List κ) :
    (tokens.zip logprobs).map (·.1) = tokens.take logprobs.length := by
  rw [List.zip_eq_zip_take_min, List.map_fst_zip (by simp), List.take_eq_take_iff]
  omega

theorem map_snd_zip_eq_take (tokens : List String) (logprobs : List κ) :
    (tokens.zip logprobs).map (·.2) = logprobs.take tokens.length := by
  rw [List.zip_eq_zip_take_min, List.map_snd_zip (by simp), List.take_eq_take_iff]
  omega

/-- The first line of a completion of one line keeps the pairs of the two lists. -/
theorem firstLine_eq_paired {c : Completion κ} (single : c.SingleLine) :
    c.firstLine = c.paired := by
  have pairs : lineTokens (c.tokens.zip c.logprobs) = c.tokens.zip c.logprobs :=
    lineTokens_eq_self fun pair mem => single.tokens _ (List.of_mem_zip mem).1
  simp only [firstLine, paired, pairs, line_eq_self single.text, single.trimmed, String.ofList_toList,
    map_fst_zip_eq_take, map_snd_zip_eq_take]

theorem paired_eq_self {c : Completion κ} (eq : c.tokens.length = c.logprobs.length) :
    c.paired = c := by
  rw [paired, ← eq, List.take_length, eq, List.take_length]

theorem length_tokens_paired (c : Completion κ) :
    c.paired.tokens.length = c.paired.logprobs.length := by
  rw [paired, List.length_take, List.length_take, Nat.min_comm]

end Completion

theorem singleLine_nameSample (logprobs : List κ) : (nameSample logprobs).completion.SingleLine where
  text := show '\n' ∉ "x".toList by decide
  trimmed := show Text.trimmed "x".toList = "x".toList by decide +kernel
  tokens := by simp [nameSample]

/-! ### Evaluation -/

namespace Settings

variable [Scalar κ] {s : Settings κ} {sample : Sample κ} {completion : Completion κ}

/-- What is evaluated is given by the completion alone, not by the one in the sample or the mode that
it was chosen in. -/
theorem evaluateOn_with (s : Settings κ) (sample : Sample κ) (mode : Bool)
    (given completion : Completion κ) :
    { s with firstLineOnly := mode }.evaluateOn { sample with completion := given } completion
      = s.evaluateOn sample completion := rfl

/-- For a sample of one line, evaluating the first line is evaluating the completion with its lists
cut to one length. Both modes agree exactly when the lists have one length already or a text stops
both: else the whole completion is rejected for the lengths of its lists and the first line never is.
-/
theorem evaluate_firstLine_eq_iff (s : Settings κ) (sample : Sample κ)
    (single : sample.completion.SingleLine) :
    let first := { s with firstLineOnly := true }
    let whole := { s with firstLineOnly := false }
    let tokens := sample.completion.tokens.length
    let logprobs := sample.completion.logprobs.length
    first.evaluate sample = whole.evaluate { sample with completion := sample.completion.paired } ∧
      (first.evaluate sample = whole.evaluate sample ↔
        tokens = logprobs ∨ ∃ e, e.IsTextual ∧ whole.evaluate sample = .error e) ∧
      (tokens ≠ logprobs → (∃ e, e.IsTextual ∧ whole.evaluate sample = .error e) ∨
        whole.evaluate sample = .error (.attribution (.lengthMismatch tokens logprobs))) ∧
      ∀ m n, first.evaluate sample ≠ .error (.attribution (.lengthMismatch m n)) := by
  intro first whole tokens logprobs
  have first_eq : first.evaluate sample = s.evaluateOn sample sample.completion.paired := by
    rw [evaluate_eq, ← Completion.firstLine_eq_paired single]
    exact evaluateOn_with s sample true _ _
  have whole_eq (completion : Completion κ) :
      whole.evaluate { sample with completion } = s.evaluateOn sample completion := by
    rw [evaluate_eq]
    exact evaluateOn_with s sample false _ _
  have never (m n : Nat) : first.evaluate sample ≠ .error (.attribution (.lengthMismatch m n)) := by
    rw [first_eq]
    exact evaluateOn_ne_lengthMismatch sample.completion.length_tokens_paired m n
  have unequal (ne : tokens ≠ logprobs) :
      (∃ e : SampleError κ, e.IsTextual ∧
        ∀ c : Completion κ, c.text = sample.completion.text → s.evaluateOn sample c = .error e) ∨
      s.evaluateOn sample sample.completion
        = .error (.attribution (.lengthMismatch tokens logprobs)) :=
    evaluateOn_textual_or_lengthMismatch ne
  refine ⟨?_, ⟨fun same => ?_, ?_⟩, fun ne => ?_, never⟩
  · rw [first_eq, whole_eq]
  · by_cases ne : tokens = logprobs
    · exact .inl ne
    · obtain ⟨e, textual, fails⟩ | mismatch := unequal ne
      · exact .inr ⟨e, textual, (whole_eq _).trans (fails _ rfl)⟩
      · exact absurd (same.trans ((whole_eq _).trans mismatch)) (never _ _)
  · rintro (eq | ⟨e, textual, failed⟩)
    · rw [first_eq, whole_eq, Completion.paired_eq_self eq]
    · rw [whole_eq] at failed
      have trees : s.trees sample.completion.text sample.targetText = .error e :=
        isTextual_of_evaluateOn failed textual
      rw [first_eq, whole_eq, failed]
      exact evaluateOn_of_trees trees
  · obtain ⟨e, textual, fails⟩ | mismatch := unequal ne
    · exact .inl ⟨e, textual, (whole_eq _).trans (fails _ rfl)⟩
    · exact .inr ((whole_eq _).trans mismatch)

/-- The texts of a name fail nothing, so one log-probability too many tells the modes apart. -/
theorem evaluate_firstLine_eq_iff_name :
    let sample : Sample Float := nameSample [-1, -1]
    let s : Settings Float := { Settings.defaults with engine := .greedy }
    sample.completion.SingleLine ∧
      ({ s with firstLineOnly := true }.evaluate sample
          = { s with firstLineOnly := false }.evaluate sample ↔
        (1 = 2 ∨ ∃ e, e.IsTextual ∧
          { s with firstLineOnly := false }.evaluate sample = .error e)) := by
  intro sample s
  have single : sample.completion.SingleLine := singleLine_nameSample _
  exact ⟨single, (evaluate_firstLine_eq_iff s sample single).2.1⟩

/-- A name of one token with one log-probability too many is evaluated by its first line and rejected
as a whole. -/
theorem evaluate_name_mismatched :
    let sample : Sample Float := nameSample [-1, -1]
    let s : Settings Float := { Settings.defaults with engine := .greedy }
    sample.completion.SingleLine ∧
      (∃ records, { s with firstLineOnly := true }.evaluate sample = .ok records) ∧
      { s with firstLineOnly := false }.evaluate sample
        = .error (.attribution (.lengthMismatch 1 2)) := by
  intro sample s
  have single : sample.completion.SingleLine := singleLine_nameSample _
  refine ⟨single, ?_, ?_⟩
  · rw [evaluate_eq]
    change ∃ records, Settings.evaluateOn _ sample sample.completion.firstLine = .ok records
    rw [Completion.firstLine_eq_paired single]
    exact ⟨_, evaluateOn_name rfl (Nat.zero_le 1) _ _⟩
  · rw [evaluate_eq]
    exact evaluateOn_name_mismatched (Nat.zero_le 1) _ (by decide)

end Settings

end SureCode
