import MapScript.Fold
import MapScript.Main
import MapScript.Proofs.Reading
import MapScript.Proofs.Coverage
import MapScript.Proofs.Balance
import MapScript.Proofs.Joining
import MapScript.Proofs.CleanScript
import MapScript.Proofs.Grouping
import MapScript.Proofs.Strokes
import MapScript.Proofs.Likeness
import MapScript.Proofs.Phrases
import MapScript.Proofs.Writing
import MapScript.Proofs.Preservation
import MapScript.Proofs.Spacing
import MapScript.Proofs.StrokeGaps
import MapScript.Proofs.Order
import MapScript.Proofs.Comments
import MapScript.Proofs.Settling
import MapScript.Proofs.FixedPoint
import MapScript.Proofs.Marks
import MapScript.Proofs.ItemPass
import MapScript.Proofs.Flaws
import MapScript.Proofs.Places
import MapScript.Proofs.Locations
import MapScript.Proofs.Separation
import MapScript.Proofs.Visibility
import MapScript.Proofs.Patches
import MapScript.Proofs.Stranding
import MapScript.Proofs.ByteRanges
import MapScript.Proofs.Independence
import MapScript.Proofs.Limits
import MapScript.Proofs.Closing
import MapScript.Proofs.Ink
import MapScript.Proofs.Rereading
import MapScript.Proofs.Matching
import MapScript.Proofs.Folding
import MapScript.Proofs.Counting
import MapScript.Proofs.Composing
import MapScript.Proofs.Headers
import MapScript.Proofs.Opening
import MapScript.Proofs.Guards
import MapScript.Proofs.Crossing
import MapScript.Proofs.Splicing
import MapScript.Proofs.Rounds
import MapScript.Proofs.Calls
import MapScript.Proofs.Origins
import MapScript.Proofs.JoinedCalls
import MapScript.Proofs.Numbers
import MapScript.Proofs.Quoting
import MapScript.Proofs.Arguments
import MapScript.Proofs.EmptyLines
import MapScript.Proofs.Columns
import MapScript.Proofs.CallGrammar
import MapScript.Proofs.LongestRuns
import MapScript.Proofs.Refusals
import MapScript.Proofs.DefinitionFiles
