import FrontEnd.Token.Scan

/-!
# Token streams

* `TokenStream` : tokens still to be read and the end of the input, which is never used up;
* `TokenStream.token`, `TokenStream.current`, `TokenStream.advance`, `TokenStream.skip`, `TokenStream.past`,
  `TokenStream.toList`;
* `TokenStream.ofSources` : the stream of several sources, the last one given read first.

`getElem?_toList` says that a stream is its list of tokens with a cursor that stops at the last one.
-/

namespace FrontEnd

/-- Tokens to be read, and the place where the input ends. -/
structure TokenStream where
  ahead : List Token
  endLoc : Location
deriving DecidableEq, Inhabited

namespace TokenStream

/-- The number of tokens in front of the end. -/
def size (s : TokenStream) : Nat := s.ahead.length

/-- The token that marks the end. -/
def last (s : TokenStream) : Token := ⟨.endOfInput, "<EOF>", s.endLoc⟩

/-- All tokens, the one that marks the end included. -/
def toList (s : TokenStream) : List Token := s.ahead ++ [s.last]

/-- The token at place `k`, where the next one is at 0, and from the end on the one that marks it. -/
def token (s : TokenStream) (k : Nat) : Token := s.ahead.getD k s.last

/-- The next token. -/
def current (s : TokenStream) : Token := s.ahead.headD s.last

/-- The kind of the next token. -/
def kind (s : TokenStream) : TokenKind := s.current.kind

/-- The place of the next token. -/
def loc (s : TokenStream) : Location := s.current.loc

/-- The stream past its next token; at the end it stays there. -/
def advance (s : TokenStream) : TokenStream := { s with ahead := s.ahead.tail }

/-- The stream past its first `n` tokens. -/
def past (s : TokenStream) (n : Nat) : TokenStream := { s with ahead := s.ahead.drop n }

/-- The stream past its next token if that is of kind `k`. -/
def skip (s : TokenStream) (k : TokenKind) : TokenStream := if s.kind = k then s.advance else s

/-- Whether the next token marks the end. -/
def atEnd (s : TokenStream) : Bool := s.kind == .endOfInput

/-- The stream of the sources, the last one read first. Its end is the end of the source read last. -/
def ofSources (sources : List Source) : TokenStream where
  ahead := sources.reverse.flatMap Source.tokens
  endLoc := (sources.head?.map Source.endLocation).getD {}

@[simp] theorem token_zero (s : TokenStream) : s.token 0 = s.current := by
  cases s with | mk ahead endLoc => cases ahead <;> rfl

@[simp] theorem last_advance (s : TokenStream) : s.advance.last = s.last := rfl

theorem token_advance (s : TokenStream) (k : Nat) : s.advance.token k = s.token (k + 1) := by
  cases s with | mk ahead endLoc => cases ahead <;> rfl

theorem getElem?_toList (s : TokenStream) (k : Nat) : s.toList[min k s.size]? = some (s.token k) := by
  simp only [token, toList, size, List.getD_eq_getElem?_getD]
  by_cases h : k < s.ahead.length
  · simp [h, Nat.min_eq_left (Nat.le_of_lt h), List.getElem?_append_left h]
  · simp [Nat.min_eq_right (Nat.le_of_not_lt h), List.getElem?_eq_none (Nat.le_of_not_lt h)]

theorem size_advance_le (s : TokenStream) : s.advance.size ≤ s.size := by
  simp [size, advance]

theorem size_advance_lt {s : TokenStream} (h : s.kind ≠ .endOfInput) : s.advance.size < s.size := by
  cases s with | mk ahead endLoc =>
  cases ahead with
  | nil => exact absurd rfl h
  | cons t ts => simp [size, advance]

theorem size_skip_le (s : TokenStream) (k : TokenKind) : (s.skip k).size ≤ s.size := by
  unfold skip
  split
  · exact s.size_advance_le
  · exact Nat.le_refl _

end TokenStream

end FrontEnd
