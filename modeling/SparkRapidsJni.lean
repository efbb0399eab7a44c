import SparkRapidsJni.DecimalUtils.Multiply
import SparkRapidsJni.DecimalUtils.Remainder
import SparkRapidsJni.Kudo.ValidityRuns
import SparkRapidsJni.Kudo.SliceAddress
import SparkRapidsJni.ResourceAdaptor.Shutdown
import SparkRapidsJni.ResourceAdaptor.Inversion
import SparkRapidsJni.ResourceAdaptor.Finishing
import SparkRapidsJni.ResourceAdaptor.Accounting
import SparkRapidsJni.GetJson.KeepsMeaning
import SparkRapidsJni.GetJson.StaysInRow
import SparkRapidsJni.GetJson.EvaluateEnds
import SparkRapidsJni.Hash.HiveHash
import SparkRapidsJni.Hash.XxHash64
import SparkRapidsJni.Hash.XxHash64Bytes
import SparkRapidsJni.BloomFilter.Runs
import SparkRapidsJni.DatetimeRebase.Inverse
import SparkRapidsJni.ZOrder.HilbertCurve
import SparkRapidsJni.ZOrder.InterleaveBits
import SparkRapidsJni.TimeZone.OrcTimezones
import SparkRapidsJni.HyperLogLog.Merge
import SparkRapidsJni.MapZip.Zip
import SparkRapidsJni.ParquetFooter.Footer
import SparkRapidsJni.ParquetFooter.DepthFirstNames
import SparkRapidsJni.RowConversion.ValidityTables
import SparkRapidsJni.ShuffleAssemble.OffsetBatches
import SparkRapidsJni.Aggregation64.Chunks
import SparkRapidsJni.NumberConverter.Exact
import SparkRapidsJni.CastString.StringToDecimalExact
import SparkRapidsJni.DatetimeTruncate.Exact
import SparkRapidsJni.CastStringToFloat.Kernel
import SparkRapidsJni.CastDecimalToString.NonAnsiString
import SparkRapidsJni.CastStringToDatetime.TimestampFields
import SparkRapidsJni.Multiply.Columns
import SparkRapidsJni.ParseUri.QueryPart
import SparkRapidsJni.ListSlice.Exact
import SparkRapidsJni.Histogram.Exact
import SparkRapidsJni.FromJson.RemoveQuotes
import SparkRapidsJni.FromJson.StringsToDecimals
import SparkRapidsJni.CastLongToBinaryString.Kernel
