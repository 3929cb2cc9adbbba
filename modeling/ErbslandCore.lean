import ErbslandCore.Compression.Lz4RoundTrip
import ErbslandCore.Compression.DeflateRoundTrip
import ErbslandCore.Library.Machine
import ErbslandCore.Math.SaturatingMathExact
import ErbslandCore.Re.CaptureGroupManager
import ErbslandCore.Re.CaptureReferences
import ErbslandCore.Data.Cbor.CborCanonical
import ErbslandCore.Data.Cbor.CborTermination
import ErbslandCore.Data.Bson.BsonWriter
import ErbslandCore.Text.StringEncodingTools
import ErbslandCore.Mem.RingBuffer
import ErbslandCore.Network.Http.Http1RoundTrip
import ErbslandCore.Cryptology.Tls.TlsRecordRun
import ErbslandCore.Cryptology.Symmetric.AeadOneShot
import ErbslandCore.Cryptology.X509.ValidationEscape
import ErbslandCore.Cryptology.Asn1.DerAcceptance
import ErbslandCore.Math.SignedMagnitude
import ErbslandCore.Mem.ByteEdits
import ErbslandCore.Mem.RingBufferQueue
import ErbslandCore.Compression.CodecBitOutput
import ErbslandCore.Compression.ChunkedReads
import ErbslandCore.Compression.CodecOutputRuns
import ErbslandCore.Compression.HuffmanRoundTrip
import ErbslandCore.Compression.ZstandardFseTransitions
import ErbslandCore.Compression.LzmaRangeRoundTrip
import ErbslandCore.Math.BigInteger
import ErbslandCore.Math.BigUnsignedDivisionRun
import ErbslandCore.Text.CharBoundaries
import ErbslandCore.Data.Cbor.CborNesting
import ErbslandCore.Text.CharSetExpression
import ErbslandCore.Time.CalendarDelta
import ErbslandCore.Time.TimeOfDay
import ErbslandCore.Time.DateArithmetic
import ErbslandCore.Time.DateTimeCalendar
import ErbslandCore.Time.TimestampArithmetic
import ErbslandCore.Network.Url.UrlResolver
import ErbslandCore.Conf.Parser.ParserIncludes
import ErbslandCore.Conf.Value.DocumentTree
import ErbslandCore.Conf.Vr.VersionMaskSets
import ErbslandCore.Cryptology.Symmetric.AesCbcStreaming
import ErbslandCore.Re.CharClass
import ErbslandCore.Re.ReplaceAll
import ErbslandCore.Text.IntegerRoundTrip
import ErbslandCore.Network.Ip.IpAddressRoundTrip
import ErbslandCore.Library.Pieces
import ErbslandCore.Path.PathData
import ErbslandCore.Path.PathParser
import ErbslandCore.Path.PathReading
import ErbslandCore.Path.PathRootTexts
import ErbslandCore.Path.PathRoundTrip
