import Alligator.Metric.Serializer
import Alligator.Metric.Dynatrace
import Alligator.Metric.QueryGen
import Alligator.Common.StringBuffer
import Alligator.Common.Selector
import Alligator.Metric.ValueTag
import Alligator.Metric.Cap
import Alligator.Metric.Far
import Alligator.Parsers.SnmpOid
import Alligator.Mapping.Buckets
import Alligator.Mapping.Observation
import Alligator.Cluster.Pass
import Alligator.Cluster.SharedLock
import Alligator.Net.Access
import Alligator.Net.WebSocket
import Alligator.Http.LimitRefinement
import Alligator.Http.Connection
import Alligator.Http2.Body
import Alligator.Resolver.Answer
import Alligator.Parsers.SampleLine
import Alligator.Parsers.LineReads
import Alligator.Parsers.FamilyPush
import Alligator.Parsers.OtlpExport
import Alligator.Parsers.OtlpHandler
import Alligator.Filetailer.Delivery
import Alligator.Filetailer.Mixing
import Alligator.Filetailer.Rotation
