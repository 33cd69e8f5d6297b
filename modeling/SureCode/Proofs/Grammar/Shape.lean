import Mathlib
import SureCode.Proofs.Grammar.Reading
import SureCode.Proofs.Grammar.Outline

/-!
# The shape of marks

The outline of marks with a label for every part, which its kind and its words give (`Shows`): what
marks show is put together from what their parts show, wherever they stand among other words.
-/

namespace SureCode

/-! ### What a construct comes to -/

/-- A part lies between the numbers that all parts lie between. -/
theorem Within.count_le {start stop : Nat} {ps : List (Tree Part)} (within : Within start ps stop)
    {p : Tree Part} (mem : p ∈ ps) : start + p.label.count ≤ stop := by
  induction within with
  | nil le => cases mem
  | cons before nonempty inside rest _ ih =>
    have := rest.le
    rcases List.mem_cons.1 mem with rfl | mem
    · rw [Tree.label_node]
      omega
    · have := ih mem
      omega

namespace Mark

variable {kind : Kind} {first count : Nat} {parts : List (Tree Part)}

theorem outlineAll_construct (kind : Kind) (first : Nat) (ms : List Mark) :
    outlineAll first [.construct kind ms]
      = ((outlineAll first ms).1,
        gather kind first (outlineAll first ms).1 (outlineAll first ms).2) := by
  simp [outlineAll, outline]

theorem gather_of_isTransparent (transparent : kind.isTransparent = true) :
    gather kind first count parts = parts := by
  unfold gather
  rw [transparent, Bool.or_true, if_pos rfl]

/-- A construct over no part or several, or over one with fewer tokens, is a part of its own. -/
theorem gather_eq_singleton (nonempty : 0 < count) (proper : kind.isTransparent = false)
    (fewer : ∀ p ∈ parts, parts.length = 1 → p.label.count ≠ count) :
    gather kind first count parts = [.node ⟨kind, first, count⟩ parts] := by
  unfold gather
  rw [if_neg (by simp [nonempty.ne', proper])]
  split
  · rename_i part
    exact if_neg (fewer part (List.mem_singleton_self part) rfl)
  · rfl

/-- Around a part with all its tokens a construct is no part of its own. -/
theorem gather_singleton {p : Tree Part} (whole : p.label.count = count) :
    gather kind first count [p] = [p] := by
  unfold gather
  dsimp only
  rw [if_pos whole, ite_self]

/-- What a construct comes to has all its tokens. -/
theorem exists_gather (nonempty : 0 < count) (proper : kind.isTransparent = false) :
    ∃ p, gather kind first count parts = [p] ∧ p.label.count = count := by
  unfold gather
  rw [if_neg (by simp [nonempty.ne', proper])]
  split
  · rename_i part
    split
    · exact ⟨part, rfl, ‹_›⟩
    · exact ⟨_, rfl, rfl⟩
  · exact ⟨_, rfl, rfl⟩

theorem outlineAll_of (first : Nat) (kind : Kind) :
    outlineAll first [.of kind] = (if kind.isLayout then 0 else 1, []) := by
  simp [of, outlineAll, outline, Token.empty]

theorem outlineAll_layout (first : Nat) {ks : List Kind} (layout : ∀ k ∈ ks, k.isLayout = true) :
    outlineAll first (ks.map of) = (0, []) := by
  induction ks generalizing first with
  | nil => rfl
  | cons k ks ih =>
    rw [List.forall_mem_cons] at layout
    rw [List.map_cons, ← List.singleton_append, outlineAll_append, outlineAll_of, layout.1,
      ih _ layout.2]
    rfl

end Mark

/-! ### Trees of marks -/

section Shows

variable {α β : Type}

/-- The words of a part among all words. -/
def Part.words (p : Part) (all : List α) : List α := (all.drop p.first).take p.count

/-- Marks over some words come to some trees, wherever the words stand among others. -/
def Shows (label : Kind → List α → β) (ws : List α) (ms : List Mark) (ts : List (Tree β)) : Prop :=
  ∀ front back : List α,
    (Mark.outlineAll front.length ms).1 = ws.length ∧
      (Mark.outlineAll front.length ms).2.map
        (Tree.map fun p => label p.kind (p.words (front ++ ws ++ back))) = ts

namespace Shows

variable {label : Kind → List α → β} {ws vs : List α} {ms ns : List Mark} {ts us : List (Tree β)}
  {kind kind' : Kind} {w : α}

theorem nil : Shows label [] [] [] := fun _ _ => ⟨rfl, rfl⟩

theorem append (first : Shows label ws ms ts) (second : Shows label vs ns us) :
    Shows label (ws ++ vs) (ms ++ ns) (ts ++ us) := fun front back => by
  obtain ⟨count, parts⟩ := first front (vs ++ back)
  obtain ⟨count', parts'⟩ := second (front ++ ws) back
  rw [List.length_append] at count' parts'
  rw [Mark.outlineAll_append, count, count', List.length_append, List.map_append, ← parts, ← parts']
  simp only [List.append_assoc, and_self]

/-- Without words there are no trees. -/
theorem ne_nil (shows : Shows label ws ms ts) (some : ts ≠ []) : ws ≠ [] := by
  rintro rfl
  obtain ⟨count, rfl⟩ := shows [] []
  have within := Mark.within_outlineAll 0 ms
  rw [List.length_nil] at count some
  rw [count] at within
  cases parts : (Mark.outlineAll 0 ms).2 with
  | nil => exact some (by rw [parts]; rfl)
  | cons p ps =>
    rw [parts] at within
    cases within with
    | cons before nonempty inside rest =>
      have := rest.le
      omega

/-- A token with text. -/
theorem word (w : α) (lexeme : kind.isLayout = false) : Shows label [w] [.of kind] [] :=
  fun _ _ => by simp [Mark.outlineAll_of, lexeme]

/-- A layout token. -/
theorem layout (layout : kind.isLayout = true) : Shows label ([] : List α) [.of kind] [] :=
  fun _ _ => by simp [Mark.outlineAll_of, layout]

/-- Brackets come to what is in them. -/
theorem transparent (inside : Shows label ws ms ts) (transparent : kind.isTransparent = true) :
    Shows label ws [.construct kind ms] ts := fun front back => by
  rw [Mark.outlineAll_construct, Mark.gather_of_isTransparent transparent]
  exact inside front back

theorem words_whole (front ws back : List α) :
    Part.words ⟨kind, front.length, ws.length⟩ (front ++ ws ++ back) = ws := by
  rw [Part.words, List.append_assoc, List.drop_left, List.take_left]

/-- A construct over no part, or over several, is a part of its own. -/
theorem construct (inside : Shows label ws ms ts) (nonempty : ws ≠ [])
    (proper : kind.isTransparent = false) (several : ts.length ≠ 1) :
    Shows label ws [.construct kind ms] [.node (label kind ws) ts] := fun front back => by
  obtain ⟨count, parts⟩ := inside front back
  have differs : (Mark.outlineAll front.length ms).2.length ≠ 1 := by
    rwa [← parts, List.length_map] at several
  rw [Mark.outlineAll_construct, count, Mark.gather_eq_singleton (List.length_pos_iff.2 nonempty)
    proper fun _ _ single => absurd single differs]
  refine ⟨rfl, ?_⟩
  rw [List.map_singleton, Tree.map_node, parts, words_whole]

/-- A construct that begins with a token is a part of its own. -/
theorem headed (w : α) (inside : Shows label ws ms ts) (lexeme : kind'.isLayout = false)
    (proper : kind.isTransparent = false) :
    Shows label (w :: ws) [.construct kind (.of kind' :: ms)] [.node (label kind (w :: ws)) ts] :=
  fun front back => by
    obtain ⟨count, parts⟩ := (word w lexeme).append inside front back
    obtain ⟨inner, -⟩ := inside (front ++ [w]) back
    have all : (Mark.outlineAll front.length (.of kind' :: ms)).2
        = (Mark.outlineAll (front.length + 1) ms).2 := by
      rw [← List.singleton_append, Mark.outlineAll_append, Mark.outlineAll_of]
      simp [lexeme]
    rw [List.length_append, List.length_singleton] at inner
    rw [List.singleton_append, List.singleton_append] at count parts
    rw [Mark.outlineAll_construct, count, Mark.gather_eq_singleton (by simp) proper]
    · refine ⟨rfl, ?_⟩
      rw [List.map_singleton, Tree.map_node, parts, List.nil_append, words_whole]
    · intro p mem _
      rw [all] at mem
      have le := (Mark.within_outlineAll (front.length + 1) ms).count_le mem
      rw [inner] at le
      change _ ≠ ws.length + 1
      omega

/-- Around one construct there is no other part. -/
theorem sole (inside : Shows label ws [.construct kind' ms] ts) (nonempty : ws ≠ [])
    (proper : kind'.isTransparent = false) {ks : List Kind} (layout : ∀ k ∈ ks, k.isLayout = true) :
    Shows label ws [.construct kind (.construct kind' ms :: ks.map Mark.of)] ts :=
  fun front back => by
  obtain ⟨count, parts⟩ := inside front back
  rw [Mark.outlineAll_construct] at count parts
  dsimp only at count parts
  rw [count] at parts
  obtain ⟨p, single, whole⟩ := Mark.exists_gather (List.length_pos_iff.2 nonempty) proper
  rw [single] at parts
  have all : Mark.outlineAll front.length (.construct kind' ms :: ks.map Mark.of)
      = (ws.length, [p]) := by
    rw [← List.singleton_append, Mark.outlineAll_append, Mark.outlineAll_construct, count, single,
      Mark.outlineAll_layout _ layout]
    rfl
  rw [Mark.outlineAll_construct, all, Mark.gather_singleton whole]
  exact ⟨rfl, parts⟩

end Shows

end Shows

end SureCode
