import QtBase.Lib.LinearProbing
import QtBase.Lib.ProbingSweep
import QtBase.Lib.Cow
import QtBase.Lib.PairLog
import QtBase.Core.Exec
import QtBase.Tools.HashSpan
import QtBase.Tools.HashData
import QtBase.Tools.HashTable
import QtBase.Tools.HashEdit
import QtBase.Tools.HashModel
import QtBase.Tools.QHash
import QtBase.Tools.QHashRun
import QtBase.Tools.QHashSweep
import QtBase.Tools.QMultiHash
import QtBase.Tools.MultiHashModel
import QtBase.Tools.MultiHashErase
import QtBase.Tools.QMultiHashRun
import QtBase.Tools.QMultiHashEq
import QtBase.Tools.RingChunk
import QtBase.Tools.RingBuffer
import QtBase.Tools.RingQueue
import QtBase.Tools.RingBufferRun
import QtBase.Lib.Unicode
import QtBase.Lib.Reader
import QtBase.Text.Utf8Functions
import QtBase.Text.Utf8Char
import QtBase.Text.Simd
import QtBase.Text.Utf8
import QtBase.Text.Utf8RoundTrip
import QtBase.Text.Utf8Chunks
import QtBase.Text.Utf8ChunkDecode
import QtBase.Text.Utf8ChunkEncode
import QtBase.Tools.ContiguousCache
import QtBase.Tools.ContiguousCacheRun
import QtBase.Tools.BitArray
import QtBase.Tools.BitArrayBits
import QtBase.Tools.BitArrayOps
import QtBase.Tools.BitArrayRun
import QtBase.Text.Compare
import QtBase.Text.CompareOrder
import QtBase.Lib.StableSort
import QtBase.Lib.LowerBound
import QtBase.Serialization.CborContainer
import QtBase.Serialization.CborView
import QtBase.Serialization.JsonParser
import QtBase.Serialization.JsonScan
import QtBase.Serialization.JsonParserSafe
import QtBase.Serialization.JsonGrammar
import QtBase.Serialization.JsonLexemes
import QtBase.Serialization.JsonStrings
import QtBase.Serialization.JsonSort
import QtBase.Serialization.JsonComplete
import QtBase.Serialization.JsonCompleteness
import QtBase.Serialization.QJsonObject
import QtBase.Serialization.QJsonObjectKeys
import QtBase.Serialization.QJsonObjectMap
import QtBase.Serialization.QJsonObjectRun
import QtBase.Network.Http2Frames
import QtBase.Lib.SizedQueue
import QtBase.Network.HPackTable
import QtBase.Network.HPackTableRun
import QtBase.Core.Unsigned
import QtBase.Lib.Bootstring
import QtBase.Text.Utf32
import QtBase.Io.Punycode
import QtBase.Io.PunycodeNumbers
import QtBase.Io.PunycodeEncode
import QtBase.Io.PunycodeDecode
import QtBase.Io.PunycodeCanonical
import QtBase.Io.PunycodeDomains
import QtBase.Io.IPAddress
import QtBase.Io.IPAddressNumbers
import QtBase.Io.IPv4RoundTrip
import QtBase.Io.IPv6Text
import QtBase.Io.IPv6RoundTrip
import QtBase.Io.IPAddressRoundTrip
import QtBase.Io.IPv6Buffer
import QtBase.Io.IPv6Bounds
import QtBase.Network.Http2Handler
import QtBase.Network.Http2Receive
import QtBase.Network.Http2Calm
import QtBase.Network.Http2Writing
import QtBase.Network.Http2Tolerant
import QtBase.Network.Http2ReceiveWindow
import QtBase.Network.Http2ReceiveAccounts
import QtBase.Network.Http2ReceiveRun
import QtBase.Network.Http2SendWindow
import QtBase.Network.Http2SendAccounts
import QtBase.Network.Http2SendRun
import QtBase.Lib.FloorSequence
import QtBase.Time.Calendar
import QtBase.Time.RomanCalendars
import QtBase.Time.IslamicCalendars
import QtBase.Gui.UndoStack
import QtBase.Gui.UndoStackTracks
import QtBase.Gui.UndoStackRun
import QtBase.Lib.SortedMap
import QtBase.Thread.ResultStore
import QtBase.Thread.ResultStoreRun
import QtBase.Thread.ResultStoreOrder
import QtBase.Thread.ResultStoreBatches
import QtBase.Thread.ResultStoreInOrder
import QtBase.Lib.Ring
import QtBase.Lib.Lru
import QtBase.Tools.QCache
import QtBase.Tools.QCacheTable
import QtBase.Tools.QCachePlaced
import QtBase.Tools.QCacheMoves
import QtBase.Tools.QCacheOps
import QtBase.Tools.QCacheRun
import QtBase.Tools.RingBufferRead
import QtBase.Tools.ArrayOps
import QtBase.Tools.ArrayOpsInsert
import QtBase.Text.Base64
import QtBase.Text.Base64RoundTrip
import QtBase.Text.SimdCompare
import QtBase.Gui.RectBands
import QtBase.Gui.RegionPrepend
import QtBase.Gui.RegionMerge
import QtBase.Gui.RegionUnion
import QtBase.Network.HttpChunkSize
import QtBase.Network.HttpChunked
import QtBase.Network.HttpChunkedCall
import QtBase.Network.HttpChunkedRun
import QtBase.Text.StringSearch
import QtBase.Network.Http2Resets
import QtBase.Io.IdnWhitelist
import QtBase.Lib.Binary64
import QtBase.Serialization.CborInteger
import QtBase.Lib.Bits
import QtBase.Network.BitStreams
import QtBase.Network.HPackInteger
import QtBase.Lib.PrefixCode
import QtBase.Network.Huffman
import QtBase.Network.HuffmanDecoder
import QtBase.Network.HuffmanStream
import QtBase.Network.HPackStrings
import QtBase.Lib.OrderedSet
import QtBase.Network.HPackOrder
import QtBase.Network.HPackIndex
import QtBase.Network.HPackSearch
import QtBase.Network.HPackSearchRun
import QtBase.Network.HPackEncoder
import QtBase.Network.HPackEncoderFailure
import QtBase.Network.Http2FrameReader
import QtBase.Network.Http2FrameWriter
import QtBase.Network.Http2Framing
import QtBase.Io.IdnContextJ
import QtBase.Io.IdnBidi
import QtBase.Time.QDate
import QtBase.Time.SubstituteYears
import QtBase.Time.IanaLists
import QtBase.Lib.FreeList
import QtBase.Gui.FragmentMap
import QtBase.Gui.FragmentMapRun
import QtBase.Thread.ResultStoreAppend
import QtBase.Gui.UndoSetIndex
import QtBase.Core.Signed
import QtBase.Time.QDateTimeData
import QtBase.Text.SignedNumbers
import QtBase.Time.PosixTime
import QtBase.Time.PosixZone
import QtBase.Time.MonthStarts
import QtBase.Time.PosixDate
import QtBase.Time.PosixDateNames
import QtBase.Core.View
import QtBase.Io.IniLines
import QtBase.Io.IniValues
import QtBase.Io.IniFile
import QtBase.Lib.UriReference
import QtBase.Io.UrlPaths
import QtBase.Io.UrlResolved
import QtBase.Time.UtcDateTime
import QtBase.Time.PosixTransitions
import QtBase.Time.PosixRule
import QtBase.Time.PosixOrder
import QtBase.Network.HttpChunkLines
import QtBase.Io.UrlDots
import QtBase.Io.UrlAuthority
import QtBase.Lib.PathSegments
import QtBase.Io.DirPaths
import QtBase.Gui.RegionAppend
import QtBase.Gui.RegionIntersect
import QtBase.Tools.HashSpanRun
import QtBase.Tools.BlockSize
import QtBase.Serialization.JsonUnique
import QtBase.Serialization.CborUsedData
import QtBase.Text.FindByteArray
import QtBase.Text.NumberText
import QtBase.Text.ByteArrayCodes
