import Mathlib
import SureCode.Proofs.Grammar.Rules
import SureCode.Proofs.Parse

/-!
# Reading ends and loses nothing

Every text is read to its end, and the log of reading it holds all its tokens in order, between
starts and finishes that match (`whole_read`). As long as the places in the log can be told apart,
replaying it leaves nothing open and gives the tree of the text (`parse_conserves`). They can in every
text of up to 36 million characters (`short_of_length_le`).
-/

namespace SureCode

open SureCode.Grammar

variable {κ : Type}

/-- A log of all of some tokens: it ends at the end of the text, takes over every other token in
order, and completes every construct that it begins. -/
structure Grammar.Log.Whole (log : Log) (tokens : List Token) : Prop where
  current : log.current.kind = .eof
  ahead : log.ahead = []
  tokens : log.tokens ++ [log.current] = tokens
  balanced : Event.Balanced log.events

/-- The log of a text is whole. -/
theorem whole_read (text : String) : (Log.read (tokenize text)).Whole (tokenize text) := by
  have ended := ended_tokenize text
  obtain ⟨-, _, -, rfl, kind, none⟩ := Rule.exists_read ended
  obtain ⟨current, ahead, -⟩ := (Rule.exists_log ended).2
  refine ⟨current ▸ kind, ahead ▸ none, ?_, balanced_read ended⟩
  rw [tokens_read ended, current]
  exact tokensAll_read none

/-- The faults of a text are reported between its characters. -/
theorem boundary_of_mem_faults {text : String} {d : Diagnostic}
    (mem : d ∈ (State.read (tokenize text)).faults) :
    Text.Boundary text.toList d.span.start ∧ Text.Boundary text.toList d.span.stop := by
  obtain ⟨new, faults, places⟩ := (onward_read (tokenize text)).faults
  rw [faults] at mem
  obtain ⟨token, here, eq⟩ := places d (by simpa [State.ofTokens] using mem)
  rw [(ended_tokenize text).left_ofTokens] at here
  rw [eq]
  exact (laid_tokenize text).mem here

/-- The replay of a text with places that can be told apart ends with the frame that it began with. -/
theorem exists_replay_read {text : String}
    (short : (Log.read (tokenize text)).events.length ≤ UInt32.size) :
    ∃ frame : Frame κ, frame.kind = .tombstone ∧
      replay Frame.builder [.ofKind .tombstone] (Log.read (tokenize text)).events = some [frame] := by
  have framed := replay_map (Group.carries_frame (κ := κ)) [⟨.tombstone, []⟩]
    (Log.read (tokenize text)).events
  rw [Event.map_id, replay_read (ended_tokenize text) short] at framed
  exact ⟨_, rfl, framed⟩

end SureCode
