import SureCode.Token.Basic
import SureCode.Token.Lexeme

/-!
# From text to tokens

The tokens of a text are its lexemes together with layout tokens that show where logical lines end
and where blocks open and close. Comments, blank lines, continued lines and line breaks between
brackets leave no token.

A `Lexer` is a place in a text with what its layout depends on: the open indentation levels, the
number of open brackets, whether a logical line begins here, and the kind of the last token.
`Lexer.step` takes the tokens up to and including the next lexeme; `Lexer.tokens` iterates it, and a
`TokenStream` hands its tokens out one at a time.
-/

namespace SureCode

/-- Tab stops stand every so many columns. -/
def tabWidth : Nat := 8

namespace Cursor

/-- The first line with contents: the width of its indentation, with the cursor at the contents.
Blank lines and lines with only a comment are passed over; the width is absent at the end of the
text. The flag says that the cursor is inside a comment, and the first number is the width so far,
which wraps around.
-/
def lineStart (inComment : Bool) (width : UInt32) (offset : Nat) : List Char → Option Nat × Cursor
  | [] => (none, ⟨offset, []⟩)
  | ch :: cs =>
    let after := offset + ch.utf8Size
    if isBreak ch then lineStart false 0 after cs
    else if inComment then lineStart true 0 after cs
    else if ch == ' ' then lineStart false (width + 1) after cs
    else if ch == '\t' then
      lineStart false ((width / .ofNat tabWidth + 1) * .ofNat tabWidth) after cs
    else if ch == '\x0c' then lineStart false 0 after cs
    else if ch == '#' then lineStart true 0 after cs
    else (some width.toNat, ⟨offset, ch :: cs⟩)

/-- The next lexeme or line break of a logical line. Blanks, comments and continued lines are passed
over, and line breaks too where brackets are open. -/
def skipTrivia (inBrackets inComment : Bool) (offset : Nat) : List Char → Cursor
  | [] => ⟨offset, []⟩
  | '\\' :: '\r' :: '\n' :: cs =>
    if inComment then skipTrivia inBrackets true (offset + 1) ('\r' :: '\n' :: cs)
    else skipTrivia inBrackets false (offset + 3) cs
  | ch :: cs =>
    let after := offset + ch.utf8Size
    if isBreak ch then
      if inBrackets then skipTrivia inBrackets false after cs else ⟨offset, ch :: cs⟩
    else if inComment then skipTrivia inBrackets true after cs
    else if ch == ' ' || ch == '\t' || ch == '\x0c' then skipTrivia inBrackets false after cs
    else if ch == '#' then skipTrivia inBrackets true after cs
    else if ch == '\\' then
      match cs with
      | next :: cs' =>
        if isBreak next then skipTrivia inBrackets false (after + next.utf8Size) cs'
        else ⟨offset, ch :: cs⟩
      | [] => ⟨offset, ch :: cs⟩
    else ⟨offset, ch :: cs⟩

theorem length_lineStart_le (inComment : Bool) (width : UInt32) (offset : Nat) (cs : List Char) :
    (lineStart inComment width offset cs).2.rest.length ≤ cs.length := by
  fun_induction lineStart inComment width offset cs <;> simp_all <;> omega

theorem length_skipTrivia_le (inBrackets inComment : Bool) (offset : Nat) (cs : List Char) :
    (skipTrivia inBrackets inComment offset cs).rest.length ≤ cs.length := by
  fun_induction skipTrivia inBrackets inComment offset cs <;> simp_all <;> omega

end Cursor

/-- A place in a text with the state of its layout. -/
structure Lexer where
  cursor : Cursor
  /-- The widths of the open blocks, innermost first; below them all lies the width zero. -/
  levels : List Nat
  /-- The number of open brackets. -/
  depth : Nat
  /-- A logical line begins here. -/
  atLineStart : Bool
  /-- The kind of the last token, if there is one. -/
  last : Option Kind
deriving DecidableEq, Repr

namespace Lexer

/-- The lexer before a text. -/
def ofText (text : List Char) : Lexer := ⟨.ofText text, [], 0, true, none⟩

/-- The tokens that a line of the given width begins with, and the levels that are open after them.
-/
def indentation (levels : List Nat) (width offset : Nat) : List Token × List Nat :=
  if levels.headD 0 < width then ([.empty .indent offset], width :: levels)
  else
    let closed := levels.takeWhile (width < ·)
    let open_ := levels.dropWhile (width < ·)
    (closed.map (fun _ => .empty .dedent offset)
      ++ (if open_.headD 0 == width then [] else [.empty .unknown offset]), open_)

/-- The tokens at the end of a text: the end of an unfinished line, the end of every open block and
the end itself. -/
def closing (last : Option Kind) (levels : List Nat) (offset : Nat) : List Token :=
  let unfinished := last.any fun kind => !(kind == .newline || kind == .indent || kind == .dedent)
  (if unfinished then [.empty .newline offset] else [])
    ++ levels.map (fun _ => .empty .dedent offset) ++ [.empty .eof offset]

/-- The number of open brackets after a token. -/
def depthAfter (depth : Nat) : Kind → Nat
  | .leftParen | .leftBracket | .leftBrace => depth + 1
  | .rightParen | .rightBracket | .rightBrace => depth - 1
  | _ => depth

/-- The token from `c` to `d`. -/
def tokenBetween (kind : Kind) (c d : Cursor) : Token :=
  ⟨kind, c.offset, max c.offset d.offset, by omega⟩

/-- The lexer at the contents of its line, with the tokens that the line begins with. -/
def beginLine (l : Lexer) : List Token × Lexer :=
  if l.atLineStart && l.depth == 0 then
    match Cursor.lineStart false 0 l.cursor.offset l.cursor.rest with
    | (none, c) => ([], { l with cursor := c, atLineStart := false })
    | (some width, c) =>
      let (tokens, levels) := indentation l.levels width c.offset
      (tokens, { l with cursor := c, levels, atLineStart := false,
                        last := (tokens.getLast?.map (·.kind)).or l.last })
  else ([], l)

/-- The next lexeme or line break, with the lexer after it; or all tokens at the end of the text. -/
def lexeme (l : Lexer) : List Token × Option Lexer :=
  let c := Cursor.skipTrivia (l.depth != 0) false l.cursor.offset l.cursor.rest
  match c.rest with
  | [] => (closing l.last l.levels c.offset, none)
  | ch :: _ =>
    if Cursor.isBreak ch then
      let d := c.skipBreak
      ([tokenBetween .newline c d],
        some { l with cursor := d, atLineStart := true, last := some .newline })
    else
      let (kind, d) := Lexeme.scan c
      ([tokenBetween kind c d],
        some { l with cursor := d, depth := depthAfter l.depth kind, last := some kind })

/-- The tokens up to and including the next lexeme, with the lexer after it; at the end of the text,
all the remaining tokens. -/
def step (l : Lexer) : List Token × Option Lexer :=
  let (opening, l) := l.beginLine
  let (tokens, next) := l.lexeme
  (opening ++ tokens, next)

theorem length_beginLine_le (l : Lexer) :
    l.beginLine.2.cursor.rest.length ≤ l.cursor.rest.length := by
  have bound := Cursor.length_lineStart_le false 0 l.cursor.offset l.cursor.rest
  unfold beginLine
  split
  · split <;> simp_all
  · exact Nat.le_refl _

theorem length_lexeme_lt {l next : Lexer} {tokens : List Token}
    (found : l.lexeme = (tokens, some next)) :
    next.cursor.rest.length < l.cursor.rest.length := by
  have bound :=
    Cursor.length_skipTrivia_le (l.depth != 0) false l.cursor.offset l.cursor.rest
  unfold lexeme at found
  dsimp only at found
  split at found
  · simp at found
  · rename_i ch cs more
    have nonempty : (Cursor.skipTrivia (l.depth != 0) false l.cursor.offset
        l.cursor.rest).rest ≠ [] := by simp [more]
    split at found
    · have shorter := Cursor.length_skipBreak_lt nonempty
      cases found
      simp only
      omega
    · have shorter := Lexeme.length_scan_lt nonempty
      cases found
      simp only
      omega

/-- Every step but the last reads at least one character. -/
theorem length_step_lt {l next : Lexer} {tokens : List Token}
    (found : l.step = (tokens, some next)) :
    next.cursor.rest.length < l.cursor.rest.length := by
  unfold step at found
  dsimp only at found
  obtain ⟨-, follows⟩ := Prod.mk.inj found
  have split_next : l.beginLine.2.lexeme = (l.beginLine.2.lexeme.1, some next) := by
    rw [← follows]
  exact Nat.lt_of_lt_of_le (length_lexeme_lt split_next) l.length_beginLine_le

/-- All tokens from here to the end of the text. -/
def tokens (l : Lexer) : List Token :=
  match _found : l.step with
  | (tokens, none) => tokens
  | (tokens, some next) => tokens ++ next.tokens
termination_by l.cursor.rest.length
decreasing_by exact length_step_lt _found

end Lexer

/-- The tokens of a text. The last one, and no other, is the end of the text. -/
def tokenize (text : String) : List Token := (Lexer.ofText text.toList).tokens

/-! ### One token at a time -/

/-- A source of tokens: those that are ready, and the lexer for the rest, or the offset where the
text ended. -/
structure TokenStream where
  ready : List Token
  source : Lexer ⊕ Nat
deriving Repr

namespace TokenStream

/-- The stream of the tokens of a text. -/
def ofText (text : String) : TokenStream := ⟨[], .inl (.ofText text.toList)⟩

/-- The first of some tokens, with the stream of the others; the end of the text if there are none.
-/
def take (tokens : List Token) (source : Lexer ⊕ Nat) (stop : Nat) : Token × TokenStream :=
  match tokens with
  | [] => (.empty .eof stop, ⟨[], source⟩)
  | token :: ready => (token, ⟨ready, source⟩)

/-- The next token. After the end of the text it is the end again. -/
def next (stream : TokenStream) : Token × TokenStream :=
  match stream.ready, stream.source with
  | token :: ready, source => (token, ⟨ready, source⟩)
  | [], .inr stop => (.empty .eof stop, stream)
  | [], .inl lexer =>
    match lexer.step with
    | (tokens, some lexer) => take tokens (.inl lexer) lexer.cursor.offset
    | (tokens, none) =>
      let stop := (tokens.getLast?.map (·.span.stop)).getD lexer.cursor.offset
      take tokens (.inr stop) stop

/-- The next `count` tokens. -/
def nextTokens : Nat → TokenStream → List Token
  | 0, _ => []
  | count + 1, stream =>
    let (token, stream) := stream.next
    token :: nextTokens count stream

end TokenStream

end SureCode
