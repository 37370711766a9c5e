import QueryTrace.Main
import QueryTrace.Proofs.Refinement
import QueryTrace.Proofs.Consistency
import QueryTrace.Proofs.RoundTrip
import QueryTrace.Proofs.CanonicalText
import QueryTrace.Proofs.Resolution
import QueryTrace.Proofs.Questions
import QueryTrace.Proofs.Opacity
import QueryTrace.Proofs.Failing
import QueryTrace.Proofs.CaseFolding
import QueryTrace.Proofs.Sentences
import QueryTrace.Proofs.Pieces
import QueryTrace.Proofs.Records
import QueryTrace.Proofs.Reordering
import QueryTrace.Proofs.Limits
import QueryTrace.Proofs.Acts
import QueryTrace.Proofs.Recording
import QueryTrace.Proofs.LineByLine
import QueryTrace.Proofs.Advice
import QueryTrace.Proofs.StepTexts
import QueryTrace.Proofs.Walking
import QueryTrace.Proofs.Slices
import QueryTrace.Proofs.StatementEnds
import QueryTrace.Proofs.TokenSlices
import QueryTrace.Proofs.Remarks
import QueryTrace.Proofs.Respacing
import QueryTrace.Proofs.ColumnNames
import QueryTrace.Proofs.JsonText
import QueryTrace.Proofs.NumberTexts
import QueryTrace.Proofs.FiniteReals
import QueryTrace.Proofs.Forms
import QueryTrace.Proofs.Lossless
import QueryTrace.Proofs.Snapshots
import QueryTrace.Proofs.Precedence
import QueryTrace.Proofs.Completeness
import QueryTrace.Proofs.Combinations
import QueryTrace.Proofs.Grouping
import QueryTrace.Proofs.Aliases
import QueryTrace.Proofs.Footprint
import QueryTrace.Proofs.ProductSize
import QueryTrace.Proofs.RealTexts
import QueryTrace.Proofs.GroupKeys
import QueryTrace.Proofs.References
import QueryTrace.Proofs.Numerals
import QueryTrace.Proofs.ExactIntegers
import QueryTrace.Proofs.Extremes
import QueryTrace.Proofs.Colours
import QueryTrace.Proofs.Stretches
import QueryTrace.Proofs.Alignment
import QueryTrace.Proofs.SideBySide
import QueryTrace.Proofs.FloatOrder
import QueryTrace.Proofs.RoundedIntegers
import QueryTrace.Proofs.SavedPreferences
import QueryTrace.Proofs.LooseEquality
