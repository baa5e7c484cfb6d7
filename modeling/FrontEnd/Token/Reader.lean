import FrontEnd.Files
import FrontEnd.Token.Stream

/-!
# Reading tokens step by step

A `TokenReader` collects sources until something is read, and is from then on one fixed stream with a cursor. The cursor
counts the tokens that are used up, the one that marks the end included.

* `TokenReader.push`, `TokenReader.pushFile` : adding a source; the last one added is read first;
* `TokenReader.whole`, `TokenReader.cursor`, `TokenReader.rest` : the whole stream, how much of it is used up, and what
  is left of it;
* `TokenReader.moveTo`, `TokenReader.leave` : the reader after a reading that puts the cursor somewhere, and after one
  that leaves a part of what it had;
* `TokenReader.peek`, `TokenReader.next`, `TokenReader.atEnd`, `TokenReader.tokens` : the readings, each with what it
  finds and the reader after it.

Places in the stream are words of 64 bits. One that is too far behind the cursor for them wraps around to the front.
-/

namespace FrontEnd

/-- Sources that wait to be read, the last one added in front, and once something has been read the whole stream
together with the cursor. -/
structure TokenReader where
  waiting : List Source := []
  opened : Option (TokenStream × Nat) := none
deriving Inhabited

namespace TokenReader

/-- `r` with one more source. It is read only if nothing has been read before. -/
def push (r : TokenReader) (s : Source) : TokenReader := { r with waiting := s :: r.waiting }

/-- `r` with the contents of a file, under its path. -/
def pushFile (r : TokenReader) (files : Files) (path : Text) : Except OpenFailure TokenReader := do
  return r.push ⟨← files.read path, path⟩

/-- The whole stream, and the cursor. -/
def opening (r : TokenReader) : TokenStream × Nat := r.opened.getD (.ofSources r.waiting.reverse, 0)

/-- The whole stream. -/
def whole (r : TokenReader) : TokenStream := r.opening.1

/-- How many tokens are used up. -/
def cursor (r : TokenReader) : Nat := r.opening.2

/-- What is left of the stream. -/
def rest (r : TokenReader) : TokenStream := r.whole.past r.cursor

/-- `r` with the cursor at `i`. -/
def moveTo (r : TokenReader) (i : Nat) : TokenReader := { r with opened := some (r.whole, i) }

/-- `r` after a reading that leaves `left` of what was left. -/
def leave (r : TokenReader) (left : TokenStream) : TokenReader := r.moveTo (r.cursor + (r.rest.size - left.size))

/-- The token `k` places further on. -/
def peek (r : TokenReader) (k : UInt64) : Token × TokenReader :=
  (r.whole.token (UInt64.ofNat r.cursor + k).toNat, r.moveTo r.cursor)

/-- The next token, which is used up. -/
def next (r : TokenReader) : Token × TokenReader :=
  (r.whole.token r.cursor, r.moveTo (min (r.cursor + 1) r.whole.toList.length))

/-- Whether the next token marks the end. -/
def atEnd (r : TokenReader) : Bool × TokenReader := (r.rest.atEnd, r.moveTo r.cursor)

/-- All tokens, those that are used up included. -/
def tokens (r : TokenReader) : List Token × TokenReader := (r.whole.toList, r.moveTo r.cursor)

end TokenReader
end FrontEnd
