import Mathlib
import SureCode.Completion
import SureCode.Proofs.Attribution.OffsetMap

/-!
# First lines of completions

The text of a completion is cut at its first line break as one text, its tokens one by one. Both
cuts leave the same letters, wherever the tokens end, and trimming removes no letter. So where the
tokens spell the text, the tokens of the first line spell the first line (`firstLine_aligned`). What
is left has no line break and no white space at its ends, so there is nothing more to cut.
-/

namespace SureCode

/-! ### Trimmed texts -/

namespace Text

theorem trimmed_sublist (cs : List Char) : (trimmed cs).Sublist cs :=
  (List.rdropWhile_prefix isBlank _).sublist.trans (List.dropWhile_sublist _)

theorem withoutBlanks_dropWhile (cs : List Char) :
    withoutBlanks (cs.dropWhile isBlank) = withoutBlanks cs := by
  induction cs with
  | nil => rfl
  | cons c cs ih =>
    cases blank : isBlank c with
    | true => rw [List.dropWhile_cons_of_pos blank, ih, withoutBlanks_cons_of_blank blank]
    | false => rw [List.dropWhile_cons_of_neg (by simp [blank])]

theorem withoutBlanks_reverse (cs : List Char) :
    withoutBlanks cs.reverse = (withoutBlanks cs).reverse :=
  List.filter_reverse ..

/-- Trimming removes white space only. -/
@[simp] theorem withoutBlanks_trimmed (cs : List Char) :
    withoutBlanks (trimmed cs) = withoutBlanks cs := by
  rw [trimmed, withoutBlanks_reverse, withoutBlanks_dropWhile, withoutBlanks_reverse,
    List.reverse_reverse, withoutBlanks_dropWhile]

/-- Trimming once is enough. -/
@[simp] theorem trimmed_trimmed (cs : List Char) : trimmed (trimmed cs) = trimmed cs := by
  have initial : trimmed cs <+: cs.dropWhile isBlank := List.rdropWhile_prefix isBlank _
  -- what is left begins as it did before its end was trimmed, with no white space
  have front : (trimmed cs).dropWhile isBlank = trimmed cs := by
    refine List.dropWhile_eq_self_iff.2 fun pos => ?_
    have solid := List.dropWhile_eq_self_iff.1 (List.dropWhile_idempotent isBlank cs)
      (pos.trans_le initial.length_le)
    rwa [initial.getElem pos]
  have back : (trimmed cs).rdropWhile isBlank = trimmed cs := List.rdropWhile_idempotent isBlank _
  calc trimmed (trimmed cs) = ((trimmed cs).dropWhile isBlank).rdropWhile isBlank := rfl
    _ = trimmed cs := by rw [front, back]

end Text

namespace Completion

open OffsetMap Text

variable {κ : Type} {text rest : List Char} {pairs : List (String × κ)}

/-! ### Lines -/

theorem line_eq_self (single : '\n' ∉ text) : line text = text := by
  refine List.takeWhile_eq_self_iff.2 fun _ mem => ?_
  rw [bne_iff_ne]
  rintro rfl
  exact single mem

theorem newline_notMem_line (text : List Char) : '\n' ∉ line text := fun mem => by
  simpa using List.mem_takeWhile_imp mem

theorem line_append_of_notMem (single : '\n' ∉ text) (rest : List Char) :
    line (text ++ rest) = text ++ line rest :=
  List.takeWhile_append_of_pos fun _ mem => bne_iff_ne.2 fun eq => single (eq ▸ mem)

theorem line_append_of_mem (mem : '\n' ∈ text) (rest : List Char) :
    line (text ++ rest) = line text := by
  induction text with
  | nil => cases mem
  | cons c text ih =>
    rw [line, List.cons_append, List.takeWhile_cons, line, List.takeWhile_cons]
    split
    · rename_i other
      have ne : '\n' ≠ c := Ne.symm (by simpa using other)
      exact congrArg (c :: ·) (ih ((List.mem_cons.1 mem).resolve_left ne))
    · rfl

/-! ### Tokens of a line -/

/-- A token with its log-probability, cut at its first line break. -/
def cut (pair : String × κ) : String × κ := (String.ofList (line pair.1.toList), pair.2)

theorem cut_eq_self {pair : String × κ} (single : '\n' ∉ pair.1.toList) : cut pair = pair := by
  rw [cut, line_eq_self single, String.ofList_toList]

theorem lineTokens_eq_self (single : ∀ pair ∈ pairs, '\n' ∉ pair.1.toList) :
    lineTokens pairs = pairs := by
  induction pairs with
  | nil => rfl
  | cons pair pairs ih =>
    obtain ⟨here, later⟩ := List.forall_mem_cons.1 single
    rw [lineTokens, if_neg (by simpa using here), ih later]

/-- The tokens of a line are the first tokens, each cut at its first line break. -/
theorem exists_lineTokens_eq (pairs : List (String × κ)) :
    ∃ n, lineTokens pairs = (pairs.take n).map cut := by
  fun_induction lineTokens pairs with
  | case1 => exact ⟨0, rfl⟩
  | case2 token logprob rest breaks head blank => exact ⟨0, rfl⟩
  | case3 token logprob rest breaks head solid => exact ⟨1, rfl⟩
  | case4 token logprob rest single ih =>
    obtain ⟨n, eq⟩ := ih
    refine ⟨n + 1, ?_⟩
    rw [List.take_succ_cons, List.map_cons, cut_eq_self (by simpa using single), eq]

theorem exists_of_getElem?_lineTokens {i : ℕ} {pair : String × κ}
    (kept : (lineTokens pairs)[i]? = some pair) :
    ∃ whole, pairs[i]? = some whole ∧ cut whole = pair := by
  obtain ⟨n, eq⟩ := exists_lineTokens_eq pairs
  rw [eq, List.getElem?_map, Option.map_eq_some_iff] at kept
  obtain ⟨whole, taken, rfl⟩ := kept
  rw [List.getElem?_take] at taken
  split at taken
  · exact ⟨whole, taken, rfl⟩
  · cases taken

theorem newline_notMem_of_mem_lineTokens {pair : String × κ} (mem : pair ∈ lineTokens pairs) :
    '\n' ∉ pair.1.toList := by
  obtain ⟨i, kept⟩ := List.mem_iff_getElem?.1 mem
  obtain ⟨whole, -, rfl⟩ := exists_of_getElem?_lineTokens kept
  rw [cut, String.toList_ofList]
  exact newline_notMem_line _

/-- Cutting the tokens one by one leaves the letters that cutting the whole text leaves. -/
theorem withoutBlanks_joined_lineTokens (pairs : List (String × κ)) :
    withoutBlanks (joined ((lineTokens pairs).map (·.1)))
      = withoutBlanks (line (joined (pairs.map (·.1)))) := by
  have joined_cons (token : String) (tokens : List String) :
      joined (token :: tokens) = token.toList ++ joined tokens := rfl
  fun_induction lineTokens pairs with
  | case1 => rfl
  | case2 token logprob rest breaks head blank =>
    have none : withoutBlanks head = [] := by
      rw [← withoutBlanks_trimmed, List.isEmpty_iff.1 blank]
      rfl
    rw [List.map_cons, joined_cons, line_append_of_mem (by simpa using breaks)]
    exact none.symm
  | case3 token logprob rest breaks head solid =>
    rw [List.map_cons, List.map_nil, List.map_cons, joined_cons, joined_cons,
      line_append_of_mem (by simpa using breaks), String.toList_ofList]
    simp [joined, head]
  | case4 token logprob rest single ih =>
    rw [List.map_cons, List.map_cons, joined_cons, joined_cons,
      line_append_of_notMem (by simpa using single), withoutBlanks_append, withoutBlanks_append, ih]

/-! ### First lines -/

variable {c : Completion κ}

theorem firstLine_firstLine (c : Completion κ) : c.firstLine.firstLine = c.firstLine := by
  have unbroken : '\n' ∉ trimmed (line c.text.toList) := fun mem =>
    newline_notMem_line _ ((trimmed_sublist _).mem mem)
  have paired {pairs : List (String × κ)} :
      (pairs.map (·.1)).zip (pairs.map (·.2)) = pairs := by
    rw [List.zip_map', List.map_id']
  simp only [firstLine, String.toList_ofList, line_eq_self unbroken, trimmed_trimmed, paired,
    lineTokens_eq_self fun _ mem => newline_notMem_of_mem_lineTokens mem]

/-- The tokens of the first line spell it if all tokens spell the completion. -/
theorem withoutBlanks_firstLine (spelled : joined c.tokens = c.text.toList)
    (eq : c.tokens.length = c.logprobs.length) :
    withoutBlanks c.firstLine.text.toList = withoutBlanks (joined c.firstLine.tokens) := by
  have first : (c.tokens.zip c.logprobs).map (·.1) = c.tokens := List.map_fst_zip eq.le
  rw [firstLine, String.toList_ofList, withoutBlanks_trimmed, withoutBlanks_joined_lineTokens,
    first, spelled]

/-- A token of the first line is the token of the completion with its number, cut at its first line
break, and it comes with the log-probability of that token. -/
theorem getElem?_firstLine {i : ℕ} {token : String}
    (at_place : c.firstLine.tokens[i]? = some token) :
    ∃ whole logprob, c.tokens[i]? = some whole ∧ c.logprobs[i]? = some logprob ∧
      token.toList = line whole.toList ∧ c.firstLine.logprobs[i]? = some logprob := by
  change ((lineTokens (c.tokens.zip c.logprobs)).map (·.1))[i]? = some token at at_place
  rw [List.getElem?_map, Option.map_eq_some_iff] at at_place
  obtain ⟨pair, kept, rfl⟩ := at_place
  obtain ⟨⟨whole, logprob⟩, zipped, rfl⟩ := exists_of_getElem?_lineTokens kept
  obtain ⟨token_at, logprob_at⟩ := List.getElem?_zip_eq_some.1 zipped
  refine ⟨whole, logprob, token_at, logprob_at, String.toList_ofList, ?_⟩
  change ((lineTokens (c.tokens.zip c.logprobs)).map (·.2))[i]? = some logprob
  rw [List.getElem?_map, kept]
  rfl

/-- Taking the first line keeps a text and its tokens together. Taking it once is enough; each token
that is left has its own log-probability and no other; and the tokens of the first line spell it if
those of the completion, with a log-probability each, make up the completion. -/
theorem firstLine_aligned (c : Completion κ) :
    c.firstLine.firstLine = c.firstLine ∧
      c.firstLine.tokens.length = c.firstLine.logprobs.length ∧
      (∀ (i : ℕ) (token : String), c.firstLine.tokens[i]? = some token →
        ∃ whole logprob, c.tokens[i]? = some whole ∧ c.logprobs[i]? = some logprob ∧
          token.toList = line whole.toList ∧ c.firstLine.logprobs[i]? = some logprob) ∧
      (joined c.tokens = c.text.toList → c.tokens.length = c.logprobs.length →
        ∃ map, ofTokens c.firstLine.text.toList c.firstLine.tokens = .ok map) :=
  ⟨firstLine_firstLine c, (length_logprobs_firstLine c).symm, fun _ _ => getElem?_firstLine,
    fun spelled eq => exists_ofTokens_iff.2 (withoutBlanks_firstLine spelled eq)⟩

/-- A call with a line break inside its last token and more text after it. -/
def brokenCall : Completion ℤ := ⟨" f(é)\n  g", [" f", "(é", ")\n ", " g"], [-1, -2, -3, -4]⟩

/-- The closing bracket keeps its place and its log-probability. -/
theorem firstLine_aligned_brokenCall :
    joined brokenCall.tokens = brokenCall.text.toList ∧
      brokenCall.tokens.length = brokenCall.logprobs.length ∧
      brokenCall.firstLine = ⟨"f(é)", [" f", "(é", ")"], [-1, -2, -3]⟩ ∧
      ∃ map, ofTokens "f(é)".toList [" f", "(é", ")"] = .ok map := by
  have spelled : joined brokenCall.tokens = brokenCall.text.toList := by decide +kernel
  have first : brokenCall.firstLine = ⟨"f(é)", [" f", "(é", ")"], [-1, -2, -3]⟩ := by decide +kernel
  obtain ⟨-, -, -, aligned⟩ := firstLine_aligned brokenCall
  have made := aligned spelled rfl
  rw [first] at made
  exact ⟨spelled, rfl, first, made⟩

end Completion

end SureCode
