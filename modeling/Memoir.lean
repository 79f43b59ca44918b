import Memoir.BitField
import Memoir.DeadFieldExact
import Memoir.ConstructionPreserves
import Memoir.RuntimeTranslation
import Memoir.TypeInterning
import Memoir.ImplAgreement
import Memoir.FieldElision
import Memoir.RangeSoundness
import Memoir.LiveRangeFinishes
import Memoir.LiveRangeOrders
import Memoir.DeadFieldRenumbering
import Memoir.DeadFieldRuns
import Memoir.Coalescing
import Memoir.RuntimeTypes
import Memoir.TensorAddressing
import Memoir.AssocArrayRuns
import Memoir.StoredValues
import Memoir.HashtableRefines
import Memoir.VectorSplice
import Memoir.KeyFoldingComplete
import Memoir.Condensation
import Memoir.EndMarkers
import Memoir.TypeConverter
import Memoir.TypeInstBuilder
import Memoir.TypeAnalysisQueries
import Memoir.TypeSources
import Memoir.SearchRuns
import Memoir.SearchesEnd
import Memoir.HashtableRehash
import Memoir.PossibleArguments
import Memoir.ElisionOption
import Memoir.TypeInference
import Memoir.DeadCollectionElimination
import Memoir.ValueExpressions
import Memoir.ValueNumberingRuns
import Memoir.ValueNumberingSafety
import Memoir.ValueSelects
import Memoir.RuntimeViews
import Memoir.DestructionPreserves
import Memoir.SizeRounding
import Memoir.VectorAllocation
import Memoir.VectorRemoval
import Memoir.Strings
import Memoir.StringScans
import Memoir.InitialElements
import Memoir.NestingRuns
import Memoir.NestingRefines
import Memoir.Unversioned
import Memoir.RoundTripCode
import Memoir.RoundTripLowered
import Memoir.RoundTripRuns
import Memoir.RoundTripSteps
import Memoir.RoundTripEdges
import Memoir.RoundTripPreserves
import Memoir.RoundTripTypes
import Memoir.VectorCalls
import Memoir.StructRecords
