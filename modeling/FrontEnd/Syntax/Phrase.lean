import FrontEnd.Fault
import FrontEnd.Token.Stream

/-!
# Steps of reading

* `Phrase` : what was read and the rest of the tokens, with the proof that the rest is short enough;
* `ParseFailure` : a fault together with the tokens that are left where reading stopped;
* `Parse` : the outcome of a step, one or the other, and `Parse.left` : the tokens that are left in either case;
* `TokenStream.refuse`, `TokenStream.expect` : refusing the next token, and requiring one of a given kind.

A step that starts at `s` and always takes something has type `Parse α s.size`; one that may take nothing has type
`Parse α (s.size + 1)`. Steps that call each other end because each has fewer tokens in front of it.
-/

namespace FrontEnd

/-- A value read from a stream, and the rest, of less than `bound` tokens. -/
structure Phrase (α : Type) (bound : Nat) where
  value : α
  rest : TokenStream
  shorter : rest.size < bound

/-- A fault, and the rest of the stream where it was found. -/
structure ParseFailure where
  fault : Fault
  rest : TokenStream
deriving DecidableEq

/-- The outcome of a step of reading. -/
abbrev Parse (α : Type) (bound : Nat) := Except ParseFailure (Phrase α bound)

/-- What a step leaves of the stream, where the phrase ends or where reading stopped. -/
def Parse.left {α : Type} {bound : Nat} : Parse α bound → TokenStream
  | .ok phrase => phrase.rest
  | .error failure => failure.rest

/-- The outcome of a computation whose fault belongs to the place where `s` stands. -/
def Parse.liftAt {α : Type} (s : TokenStream) (r : Except Fault α) : Except ParseFailure α := r.mapError (⟨·, s⟩)

namespace TokenStream

/-- A failure at the next token; at the end of the input it is the end that is unexpected. -/
def refuse {α : Type} (s : TokenStream) (cause : SyntaxError) : Except ParseFailure α :=
  .error ⟨.parse (if s.atEnd then .unexpectedEnd else cause) s.loc, s⟩

/-- The next token, of any kind but the end. -/
def take (s : TokenStream) (h : s.kind ≠ .endOfInput) : Phrase Token s.size :=
  ⟨s.current, s.advance, size_advance_lt h⟩

/-- The next token, which has to be of kind `kind`. -/
def expect (s : TokenStream) (kind : TokenKind) : Parse Token s.size :=
  if h : s.kind = kind ∧ s.kind ≠ .endOfInput then .ok (s.take h.2) else s.refuse (.expected kind)

end TokenStream
end FrontEnd
