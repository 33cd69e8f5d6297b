import Mathlib
import SureCode.Evaluation.Basic
import SureCode.Proofs.Attribution.Basic
import SureCode.Proofs.Conservation

/-!
# The stages of an evaluation

Evaluating a sample parses the completion and the target, charges the tree of the completion, prunes
it, and makes a record of every answer. The first stage looks at the texts only, so a sample whose
texts fail it fails in the same way whatever its tokens are.
-/

namespace SureCode

variable {κ : Type}

/-- The target as it is parsed. -/
def Sample.targetText (sample : Sample κ) : String :=
  String.ofList (Text.trimmed sample.target.toList)

/-- The failure is about one of the two texts. -/
def SampleError.IsTextual : SampleError κ → Prop
  | unparsablePrediction | unparsableTarget | smallTarget _ _ => True
  | attribution _ | pruning _ => False

namespace Settings

/-! ### Stages -/

/-- The trees of a completion and of a target that is large enough. -/
def trees (s : Settings κ) (text targetText : String) : Except (SampleError κ) (Node κ × Node κ) :=
  match Node.ofText? text with
  | none => .error .unparsablePrediction
  | some prediction =>
    match Node.ofText? targetText with
    | none => .error .unparsableTarget
    | some target =>
      if target.size < s.minTargetNodes then .error (.smallTarget target.size s.minTargetNodes)
      else .ok (prediction, target)

/-- The first stage fails for one of the two texts. -/
theorem isTextual_of_trees {s : Settings κ} {text targetText : String} {e : SampleError κ}
    (failed : s.trees text targetText = .error e) : e.IsTextual := by
  unfold trees at failed
  repeat' split at failed
  all_goals cases failed
  all_goals trivial

theorem ofText?_of_trees {s : Settings κ} {text targetText : String} {prediction target : Node κ}
    (ok : s.trees text targetText = .ok (prediction, target)) :
    Node.ofText? text = some prediction := by
  unfold trees at ok
  repeat' split at ok
  all_goals cases ok
  assumption

variable [Scalar κ] (s : Settings κ)

/-- The tree of a completion with its costs. -/
def chargedTree (completion : Completion κ) (prediction : Node κ) :
    Except (SampleError κ) (Node κ) :=
  (prediction.attribute completion.text.toList completion.tokens
    completion.logprobs).toExcept.mapError .attribution

/-- The record of one answer. -/
def recordOf (sample : Sample κ) (completion : Completion κ) (target : Node κ)
    (output : Pruning κ) : SampleRecord κ where
  id := sample.id
  maxHoles := s.maxHoles
  engine := s.engine
  prediction := completion.text
  target := sample.targetText
  mismatch := mismatch? (Text.trimmed sample.target.toList) target completion.text.toList
    output.pruned
  output

/-- Evaluates a sample on a completion. -/
def evaluateOn (sample : Sample κ) (completion : Completion κ) :
    Except (SampleError κ) (List (SampleRecord κ)) := do
  let (prediction, target) ← s.trees completion.text sample.targetText
  let charged ← chargedTree completion prediction
  let outputs ← (s.prune charged).mapError .pruning
  return outputs.filterMap fun output =>
    output.toOption.map (s.recordOf sample completion target)

/-- Evaluating a sample goes through the stages one after the other. -/
theorem evaluate_eq (sample : Sample κ) :
    s.evaluate sample = s.evaluateOn sample (s.prepare sample.completion) := by
  unfold evaluate evaluateOn trees chargedTree
  dsimp only [Sample.targetText]
  cases Node.ofText? (κ := κ) (s.prepare sample.completion).text with
  | none => rfl
  | some prediction =>
    cases Node.ofText? (κ := κ) (String.ofList (Text.trimmed sample.target.toList)) with
    | none => rfl
    | some target =>
      dsimp only
      split
      · rfl
      · refine congrArg _ (funext fun charged => congrArg _ (funext fun outputs => ?_))
        refine congrArg (fun f => pure (outputs.filterMap f)) (funext fun output => ?_)
        cases output <;> rfl

variable {s} {sample : Sample κ} {completion : Completion κ}

/-- What an evaluation with records went through. -/
theorem evaluateOn_eq_ok_iff {records : List (SampleRecord κ)} :
    s.evaluateOn sample completion = .ok records ↔
      ∃ prediction target charged outputs,
        s.trees completion.text sample.targetText = .ok (prediction, target) ∧
        (prediction.attribute completion.text.toList completion.tokens
          completion.logprobs).toExcept = .ok charged ∧
        s.prune charged = .ok outputs ∧
        records = outputs.filterMap fun output =>
          output.toOption.map (s.recordOf sample completion target) := by
  simp only [evaluateOn, chargedTree, bind_eq_ok_iff, mapError_eq_ok_iff, Prod.exists, pure,
    Except.pure, Except.ok.injEq, eq_comm (b := records)]
  constructor
  · rintro ⟨prediction, target, trees, charged, attributed, outputs, pruned, rfl⟩
    exact ⟨prediction, target, charged, outputs, trees, attributed, pruned, rfl⟩
  · rintro ⟨prediction, target, charged, outputs, trees, attributed, pruned, rfl⟩
    exact ⟨prediction, target, trees, charged, attributed, outputs, pruned, rfl⟩

/-- A sample whose texts fail fails in the same way for all tokens. -/
theorem evaluateOn_of_trees {e : SampleError κ}
    (failed : s.trees completion.text sample.targetText = .error e) :
    s.evaluateOn sample completion = .error e := by
  rw [evaluateOn, failed]
  rfl

/-- An evaluation that fails has failed at one of its stages. -/
theorem evaluateOn_error_cases {e : SampleError κ}
    (failed : s.evaluateOn sample completion = .error e) :
    s.trees completion.text sample.targetText = .error e ∨
      (∃ prediction : Node κ, ∃ e', (prediction.attribute completion.text.toList completion.tokens
        completion.logprobs).toExcept = .error e' ∧ e = .attribution e') ∨
      ∃ e', e = .pruning e' := by
  rw [evaluateOn] at failed
  obtain first | ⟨⟨prediction, target⟩, -, later⟩ := bind_eq_error_iff.1 failed
  · exact .inl first
  · obtain charge | ⟨charged, -, later⟩ := bind_eq_error_iff.1 later
    · obtain ⟨e', attributed, rfl⟩ := mapError_eq_error_iff.1 charge
      exact .inr (.inl ⟨prediction, e', attributed, rfl⟩)
    · obtain prune | ⟨outputs, -, later⟩ := bind_eq_error_iff.1 later
      · obtain ⟨e', -, rfl⟩ := mapError_eq_error_iff.1 prune
        exact .inr (.inr ⟨e', rfl⟩)
      · cases later

/-- The failures that are not textual are those of the stages after the first. -/
theorem isTextual_of_evaluateOn {e : SampleError κ}
    (failed : s.evaluateOn sample completion = .error e) (textual : e.IsTextual) :
    s.trees completion.text sample.targetText = .error e := by
  rcases evaluateOn_error_cases failed with first | ⟨_, _, -, rfl⟩ | ⟨_, rfl⟩
  · exact first
  · exact textual.elim
  · exact textual.elim

/-- Lists of different lengths stop an evaluation of texts that fail nothing. -/
theorem evaluateOn_of_length_ne {pair : Node κ × Node κ}
    (trees : s.trees completion.text sample.targetText = .ok pair)
    (ne : completion.tokens.length ≠ completion.logprobs.length) :
    s.evaluateOn sample completion = .error (.attribution
      (.lengthMismatch completion.tokens.length completion.logprobs.length)) := by
  rw [evaluateOn, trees]
  simp only [bind, Except.bind, chargedTree, Node.attribute_eq_of_ne _ ne, Except.mapError]

/-- Lists of different lengths stop an evaluation unless one of the texts has stopped it before. -/
theorem evaluateOn_textual_or_lengthMismatch
    (ne : completion.tokens.length ≠ completion.logprobs.length) :
    (∃ e : SampleError κ, e.IsTextual ∧
      ∀ c : Completion κ, c.text = completion.text → s.evaluateOn sample c = .error e) ∨
    s.evaluateOn sample completion = .error (.attribution
      (.lengthMismatch completion.tokens.length completion.logprobs.length)) := by
  cases trees : s.trees completion.text sample.targetText with
  | error e =>
    refine .inl ⟨e, isTextual_of_trees trees, fun c same => evaluateOn_of_trees ?_⟩
    rw [same, trees]
  | ok pair => exact .inr (evaluateOn_of_length_ne trees ne)

/-- Lists of one length are never said to differ in length. -/
theorem evaluateOn_ne_lengthMismatch
    (eq : completion.tokens.length = completion.logprobs.length) (m n : Nat) :
    s.evaluateOn sample completion ≠ .error (.attribution (.lengthMismatch m n)) := by
  intro failed
  rcases evaluateOn_error_cases failed with first | ⟨_, _, attributed, same⟩ | ⟨_, same⟩
  · exact isTextual_of_trees first
  · cases same
    exact Node.not_isLengthMismatch_of_attribute eq attributed ⟨m, n, rfl⟩
  · cases same

end Settings

/-! ### A text of one name -/

/-- The tokens of a name. -/
theorem tokenize_name :
    tokenize "x" = [⟨.name, ⟨0, 1, by decide⟩⟩, .empty .newline 1, .empty .eof 1] := by
  let name : Lexer := ⟨⟨1, []⟩, [], 0, false, some .name⟩
  have first : (Lexer.ofText "x".toList).step = ([⟨.name, ⟨0, 1, by decide⟩⟩], some name) := by
    decide +kernel
  have last : name.step = ([.empty .newline 1, .empty .eof 1], none) := by decide +kernel
  rw [tokenize, Lexer.tokens_of_step_some first, Lexer.tokens_of_step_none last]
  rfl

/-- The tree of a name. -/
def nameTree (κ : Type) : Node κ :=
  let whole : Span := (Span.empty 0).cover (.empty 1)
  .leaf { kind := .ident, code := "x", span := whole, gaps := [whole] }

/-- The statement of a name is left out in favour of the name. -/
theorem ofText?_name : Node.ofText? (κ := κ) "x" = some (nameTree κ) := by
  let name : Mark := .construct .ident [.token ⟨.name, ⟨0, 1, by decide⟩⟩]
  let line : List Mark := [.construct .exprStmt [name], .token (.empty .newline 1)]
  have read : Grammar.State.read (tokenize "x")
      = ⟨.empty .eof 1, [], .tombstone, [.construct .moduleBody line], []⟩ := by
    rw [tokenize_name]
    rfl
  have short : (Grammar.Log.read (tokenize "x")).events.length ≤ UInt32.size := by
    rw [tokenize_name]
    decide +kernel
  have laid : Node.layout "x".toList
      (.leaf { kind := .ident, code := "", span := ⟨0, 1, by decide⟩ }) = nameTree κ := by
    cbv
  rw [Node.ofText?, Parse.ok?, Parse.hasErrors, tree_parse, diagnostics_parse,
    Grammar.marks_read (ended_tokenize "x") short, read]
  exact congrArg some laid

/-- The tree of a name of one token, with the cost of that token. -/
def chargedName [Scalar κ] (logprob : κ) : Node κ :=
  .leaf { (nameTree κ).label with
    tokens := ["x"], logprobs := [logprob], nll := some (Scalar.zero - logprob) }

theorem attribute_name [Scalar κ] (logprob : κ) :
    ((nameTree κ).attribute "x".toList ["x"] [logprob]).toExcept = .ok (chargedName logprob) := by
  have spelled : (nameTree κ).attribute "x".toList ["x"] [logprob]
      = ⟨chargedName logprob, none⟩ := by
    cbv
  rw [spelled]
  rfl

/-- A name with itself as target. -/
def nameSample (logprobs : List κ) : Sample κ where
  target := "x"
  completion := { text := "x", tokens := ["x"], logprobs }

namespace Settings

variable [Scalar κ] {s : Settings κ}

omit [Scalar κ] in
theorem trees_name (small : s.minTargetNodes ≤ 1) (logprobs : List κ) :
    s.trees "x" (nameSample logprobs).targetText = .ok (nameTree κ, nameTree κ) := by
  have text : (nameSample logprobs).targetText = "x" := by
    change String.ofList (Text.trimmed "x".toList) = "x"
    decide +kernel
  have large : ¬ (nameTree κ).size < s.minTargetNodes := not_lt.2 small
  rw [text, trees, ofText?_name]
  exact if_neg large

/-- Greedy pruning evaluates a name of one token. -/
theorem evaluateOn_name (greedy : s.engine = .greedy) (small : s.minTargetNodes ≤ 1)
    (logprobs : List κ) (logprob : κ) :
    s.evaluateOn (nameSample logprobs) ⟨"x", ["x"], [logprob]⟩
      = .ok (((chargedName logprob).pruneGreedyAll s.maxHoles s.thresholds).filterMap fun output =>
          output.toOption.map
            (s.recordOf (nameSample logprobs) ⟨"x", ["x"], [logprob]⟩ (nameTree κ))) := by
  refine evaluateOn_eq_ok_iff.2
    ⟨_, _, _, _, trees_name small logprobs, attribute_name logprob, ?_, rfl⟩
  rw [prune, greedy]

theorem evaluateOn_name_mismatched (small : s.minTargetNodes ≤ 1) (logprobs : List κ)
    (ne : 1 ≠ logprobs.length) :
    s.evaluateOn (nameSample logprobs) (nameSample logprobs).completion
      = .error (.attribution (.lengthMismatch 1 logprobs.length)) := by
  exact evaluateOn_of_length_ne (trees_name small logprobs) ne

end Settings

end SureCode
