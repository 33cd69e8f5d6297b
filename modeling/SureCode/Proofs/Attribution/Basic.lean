import Mathlib
import SureCode.Attribution.Basic
import SureCode.Proofs.Except

/-!
# Ways in which attribution fails

The number of tokens and the number of log-probabilities are compared once, at the beginning. Where
they agree, attribution stops for the text of a token or for the place of a gap, and never says that
the lists differ in length.
-/

namespace SureCode

/-! ### States passed along -/

namespace Tree

variable {α β σ : Type} {f : σ → α → β × σ} {Valid : σ → Prop}

mutual

/-- What every step preserves of the state holds of the last state. -/
theorem mapAccum_state (step : ∀ s a, Valid s → Valid (f s a).2) (t : Tree α) {s : σ}
    (valid : Valid s) : Valid (t.mapAccum f s).2 := by
  match t with
  | node a ts =>
    rw [mapAccum]
    exact mapAccumAll_state step ts (step s a valid)

theorem mapAccumAll_state (step : ∀ s a, Valid s → Valid (f s a).2) (ts : List (Tree α)) {s : σ}
    (valid : Valid s) : Valid (mapAccumAll f s ts).2 := by
  match ts with
  | [] =>
    rw [mapAccumAll]
    exact valid
  | t :: ts =>
    rw [mapAccumAll]
    exact mapAccumAll_state step ts (mapAccum_state step t valid)

end

mutual

/-- Where no step changes the state, the labels are changed one by one. -/
theorem mapAccum_eq_map {s : σ} {g : α → β} (t : Tree α)
    (step : ∀ a ∈ t.preorder, f s a = (g a, s)) : t.mapAccum f s = (t.map g, s) := by
  match t with
  | node a ts =>
    rw [preorder_node, List.forall_mem_cons] at step
    rw [mapAccum, step.1]
    dsimp only
    rw [mapAccumAll_eq_mapAll ts step.2, Tree.map]

theorem mapAccumAll_eq_mapAll {s : σ} {g : α → β} (ts : List (Tree α))
    (step : ∀ a ∈ preorderAll ts, f s a = (g a, s)) : mapAccumAll f s ts = (mapAll g ts, s) := by
  match ts with
  | [] => rw [mapAccumAll, mapAll]
  | t :: ts =>
    rw [preorderAll, List.forall_mem_append] at step
    rw [mapAccumAll, mapAccum_eq_map t step.1]
    dsimp only
    rw [mapAccumAll_eq_mapAll ts step.2, mapAll]

end

mutual

theorem size_mapAccum (f : σ → α → β × σ) (s : σ) (t : Tree α) :
    (t.mapAccum f s).1.size = t.size := by
  match t with
  | node a ts => rw [mapAccum, size_node, size_node, sizeAll_mapAccumAll f _ ts]

theorem sizeAll_mapAccumAll (f : σ → α → β × σ) (s : σ) (ts : List (Tree α)) :
    sizeAll (mapAccumAll f s ts).1 = sizeAll ts := by
  match ts with
  | [] => rw [mapAccumAll, sizeAll, sizeAll]
  | t :: ts =>
    rw [mapAccumAll, sizeAll, sizeAll, size_mapAccum f _ t, sizeAll_mapAccumAll f _ ts]

end

end Tree

/-! ### Failures -/

/-- The failure is about the lists that were given, before any token was read. -/
def AttributionError.IsLengthMismatch (e : AttributionError) : Prop :=
  ∃ tokens logprobs, e = .lengthMismatch tokens logprobs

namespace OffsetMap

theorem not_isLengthMismatch_of_spell {offset : Nat} {source : List Char}
    {letters : List (Nat × Char)} {e : AttributionError}
    (failed : spell offset source letters = .error e) : ¬ e.IsLengthMismatch := by
  rintro ⟨tokens, logprobs, rfl⟩
  fun_induction spell offset source letters with
  | case1 => cases failed
  | case2 => cases failed
  | case3 offset c cs letters blank ih =>
    obtain failed | ⟨_, -, failed⟩ := bind_eq_error_iff.1 failed
    · exact ih failed
    · cases failed
  | case4 => cases failed
  | case5 offset c cs blank token letters ih =>
    obtain failed | ⟨_, -, failed⟩ := bind_eq_error_iff.1 failed
    · exact ih failed
    · cases failed
  | case6 => cases failed

theorem not_isLengthMismatch_of_ofTokens {source : List Char} {tokens : List String}
    {e : AttributionError} (failed : ofTokens source tokens = .error e) : ¬ e.IsLengthMismatch := by
  obtain failed | ⟨_, -, failed⟩ := bind_eq_error_iff.1 failed
  · exact not_isLengthMismatch_of_spell failed
  · cases failed

theorem not_isLengthMismatch_of_annotate {κ : Type} [Scalar κ] {map : OffsetMap}
    {tokens : Array String} {logprobs : Array κ} {a : Construct κ} {e : AttributionError}
    (failed : map.annotate tokens logprobs a = .error e) : ¬ e.IsLengthMismatch := by
  rintro ⟨m, n, rfl⟩
  obtain failed | ⟨_, -, failed⟩ := bind_eq_error_iff.1 failed
  · obtain failed | ⟨_, -, failed⟩ := bind_eq_error_iff.1 failed
    · obtain ⟨gap, -, failed⟩ := mapM_eq_error failed
      unfold tokensIn at failed
      split at failed <;> cases failed
    · cases failed
  · cases failed

end OffsetMap

namespace Node

variable {κ : Type} [Scalar κ] {source : List Char} {tokens : List String} {logprobs : List κ}

theorem attribute_eq_of_ne (t : Node κ) (ne : tokens.length ≠ logprobs.length) :
    (t.attribute source tokens logprobs).toExcept
      = .error (.lengthMismatch tokens.length logprobs.length) := by
  rw [Node.attribute, if_pos ne]
  rfl

/-- Lists of one length are never said to differ in length. -/
theorem not_isLengthMismatch_of_attribute {t : Node κ} {e : AttributionError}
    (eq : tokens.length = logprobs.length)
    (failed : (t.attribute source tokens logprobs).toExcept = .error e) : ¬ e.IsLengthMismatch := by
  rw [Node.attribute, if_neg (not_not.2 eq)] at failed
  cases spelled : OffsetMap.ofTokens source tokens with
  | error e' =>
    rw [spelled] at failed
    obtain rfl : e' = e := Except.error.inj failed
    exact OffsetMap.not_isLengthMismatch_of_ofTokens spelled
  | ok map =>
    rw [spelled] at failed
    -- the first node that fails decides, and later ones only pass its failure on
    let Valid (failure : Option AttributionError) : Prop :=
      ∀ e, failure = some e → ¬ e.IsLengthMismatch
    have kept : Valid (t.mapAccum
        (annotateUnlessFailed map tokens.toArray logprobs.toArray) none).2 := by
      refine Tree.mapAccum_state (fun failure a (valid : Valid failure) => ?_) t nofun
      cases failure with
      | some e' => exact valid
      | none =>
        cases annotated : map.annotate tokens.toArray logprobs.toArray a with
        | ok a' => simp [Valid, annotateUnlessFailed, annotated]
        | error e' =>
          simpa [Valid, annotateUnlessFailed, annotated] using
            OffsetMap.not_isLengthMismatch_of_annotate annotated
    dsimp only [Attribution.toExcept] at failed
    split at failed
    · cases failed
    · rename_i e' last
      obtain rfl : e' = e := Except.error.inj failed
      exact kept e' last

/-- Attribution changes no shape. -/
theorem size_of_attribute {t u : Node κ}
    (charged : (t.attribute source tokens logprobs).toExcept = .ok u) : u.size = t.size := by
  unfold Node.attribute at charged
  split at charged
  · cases charged
  split at charged
  · cases charged
  · dsimp only [Attribution.toExcept] at charged
    split at charged
    · rw [← Except.ok.inj charged, Tree.size_mapAccum]
    · cases charged

end Node

end SureCode
