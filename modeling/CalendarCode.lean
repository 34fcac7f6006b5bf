import CalendarCode.Arith.Exact
import CalendarCode.Arith.Rounded
import CalendarCode.Code.Similarity
import CalendarCode.MomentCodec.Decode
import CalendarCode.MomentCodec.Encode
import CalendarCode.Numeral.Exact
import CalendarCode.Numeral.Rounded
import CalendarCode.Proofs.MomentCodec.Overlap
import CalendarCode.Proofs.MomentCodec.Presence
import CalendarCode.Proofs.MomentCodec.RoundTrip
import CalendarCode.Proofs.Scalar.Superposition
import CalendarCode.Scalar.Json
import CalendarCode.Proofs.Layout.Partition
import CalendarCode.Proofs.Code.InPlace
import CalendarCode.Proofs.Scalar.Write
import CalendarCode.Proofs.MomentCodec.Write
import CalendarCode.Proofs.Aspect.Label
import CalendarCode.Proofs.MomentCodec.Names
import CalendarCode.Proofs.MomentCodec.Bounds
import CalendarCode.Proofs.MomentCodec.Independence
import CalendarCode.Proofs.Scalar.Construction
import CalendarCode.Proofs.Scalar.Table
import CalendarCode.Proofs.Scalar.Thinning
import CalendarCode.Proofs.Scalar.WellFormed
import CalendarCode.Proofs.Row.Passes
import CalendarCode.Proofs.Code.Likeness
import CalendarCode.Proofs.MomentCodec.Likeness
import CalendarCode.Proofs.Scalar.BestMatch
import CalendarCode.Proofs.Timestamp.Digits
import CalendarCode.Proofs.Timestamp.Form
import CalendarCode.Proofs.Timestamp.Written
import CalendarCode.Proofs.Guarded
import CalendarCode.Proofs.MomentCodec.Guarded
import CalendarCode.Proofs.Timestamp.Order
import CalendarCode.Proofs.Calendar.Proximity
import CalendarCode.Proofs.Calendar.DayNames
import CalendarCode.Proofs.Scalar.Flag
import CalendarCode.Proofs.MomentCodec.Flags
import CalendarCode.Proofs.Config.Grammar
import CalendarCode.Proofs.Scalar.Closeness
import CalendarCode.Proofs.Row.Gaps
import CalendarCode.Proofs.Row.Maximal
import CalendarCode.Proofs.Calendar.Spelling
import CalendarCode.Proofs.Calendar.DaySet
import CalendarCode.Proofs.MomentCodec.Picture
