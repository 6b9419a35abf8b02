import Criteria.Binary.Bits
import Criteria.Binary.Nearest
import Criteria.Criterion.Json
import Criteria.Decimal.Literal.Reading
import Criteria.Host
import Criteria.Proofs.Reload
import Criteria.Proofs.MemoTransparency
import Criteria.Proofs.IntegerRules
import Criteria.Proofs.RangeMembership
import Criteria.Proofs.IntegerFloatAgreement
import Criteria.Proofs.LetterCase
import Criteria.Proofs.IntegerRoutes
import Criteria.Proofs.AbsentValues
import Criteria.Proofs.ShownNumbers
import Criteria.Proofs.MemoContents
import Criteria.Proofs.ContiguousIntegers
import Criteria.Proofs.JsonRoundTrip
import Criteria.Proofs.FloatCloseness
import Criteria.Proofs.ReversedRanges
import Criteria.Proofs.SpelledInputs
import Criteria.Proofs.IntegerQuotients
import Criteria.Proofs.RemainderReach
import Criteria.Proofs.ShownFloats
import Criteria.Proofs.Agreement
import Criteria.Proofs.Conversions
import Criteria.Proofs.HostObjects
import Criteria.Proofs.HostIntegers
import Criteria.Proofs.HostRoundTrip
import Criteria.Proofs.OwnTexts
