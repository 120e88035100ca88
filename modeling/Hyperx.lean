import Hyperx.Model.Cell
import Hyperx.Model.Utf8
import Hyperx.Model.Text
import Hyperx.Model.Header
import Hyperx.Model.Cookie
import Hyperx.Model.AccessControlAllowOrigin
import Hyperx.Model.AcceptRanges
import Hyperx.Model.ReferrerPolicy
import Hyperx.Model.Warning
import Hyperx.Analysis.PtrMapRefinement
import Hyperx.Analysis.OptCellWriteOnce
import Hyperx.Analysis.CookieEquality
import Hyperx.Analysis.CookieCodec
import Hyperx.Analysis.KeywordValueCodecs
import Hyperx.Analysis.RightmostWins
import Hyperx.Analysis.WarningCodec
import Hyperx.Analysis.PtrMapRuns
import Hyperx.Analysis.CookieMutation
import Hyperx.Analysis.CookieParse
import Hyperx.Model.LastEventId
import Hyperx.Model.AccessControlAllowCredentials
import Hyperx.Analysis.Utf8Canonical
import Hyperx.Analysis.WireCanonical
import Hyperx.Analysis.Reencode
