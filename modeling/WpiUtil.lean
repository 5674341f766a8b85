import WpiUtil.Foundations.BigEndian
import WpiUtil.Foundations.Binary64
import WpiUtil.Foundations.BufferedOutput
import WpiUtil.Foundations.Chunks
import WpiUtil.Foundations.Codeword
import WpiUtil.Foundations.Converter
import WpiUtil.Foundations.Decimal
import WpiUtil.Foundations.Following
import WpiUtil.Foundations.JsonText
import WpiUtil.Foundations.Lockstep
import WpiUtil.Foundations.Loop
import WpiUtil.Foundations.Numerals
import WpiUtil.Foundations.Occurrence
import WpiUtil.Foundations.Parts
import WpiUtil.Foundations.Pieces
import WpiUtil.Foundations.QuadraticProbing
import WpiUtil.Foundations.Replacement
import WpiUtil.Foundations.Runs
import WpiUtil.Foundations.SecureHash
import WpiUtil.Foundations.Sextets
import WpiUtil.Foundations.TextCode
import WpiUtil.Foundations.Transitions
import WpiUtil.Foundations.UnicodeForms
import WpiUtil.Foundations.Utf8
import WpiUtil.Foundations.WaitingLine
import WpiUtil.Foundations.WrappedScale
import WpiUtil.Json.ArrayIndex
import WpiUtil.Json.BinaryReader
import WpiUtil.Json.BinaryWriter
import WpiUtil.Json.CborHead
import WpiUtil.Json.CborIndefinite
import WpiUtil.Json.Comparison
import WpiUtil.Json.Deserialize
import WpiUtil.Json.Exceptions
import WpiUtil.Json.FlattenedLeaves
import WpiUtil.Json.Flattening
import WpiUtil.Json.Hash
import WpiUtil.Json.Json
import WpiUtil.Json.JsonPointer
import WpiUtil.Json.Lexer
import WpiUtil.Json.NumberTable
import WpiUtil.Json.ObjectHistory
import WpiUtil.Json.Outcome
import WpiUtil.Json.ParseTree
import WpiUtil.Json.Parser
import WpiUtil.Json.ParserAccept
import WpiUtil.Json.ParserCallback
import WpiUtil.Json.PointerAccess
import WpiUtil.Json.PointerAssignment
import WpiUtil.Json.Proofs.ArrayIndexProofs
import WpiUtil.Json.Proofs.BinaryBoundsProofs
import WpiUtil.Json.Proofs.BinaryReaderProofs
import WpiUtil.Json.Proofs.CborHeadProofs
import WpiUtil.Json.Proofs.CborIndefiniteProofs
import WpiUtil.Json.Proofs.CborProofs
import WpiUtil.Json.Proofs.ComparisonProofs
import WpiUtil.Json.Proofs.DeserializeProofs
import WpiUtil.Json.Proofs.FlattenedLeavesProofs
import WpiUtil.Json.Proofs.FlatteningProofs
import WpiUtil.Json.Proofs.IntegerWidthProofs
import WpiUtil.Json.Proofs.JsonPointerProofs
import WpiUtil.Json.Proofs.JsonProofs
import WpiUtil.Json.Proofs.LexerBoundsProofs
import WpiUtil.Json.Proofs.LexerNumberProofs
import WpiUtil.Json.Proofs.LexerProofs
import WpiUtil.Json.Proofs.LexerTokenProofs
import WpiUtil.Json.Proofs.LexerUngetProofs
import WpiUtil.Json.Proofs.MsgpackProofs
import WpiUtil.Json.Proofs.ObjectHistoryProofs
import WpiUtil.Json.Proofs.OrderProofs
import WpiUtil.Json.Proofs.ParseDumpProofs
import WpiUtil.Json.Proofs.ParseProofs
import WpiUtil.Json.Proofs.ParserAcceptProofs
import WpiUtil.Json.Proofs.ParserBoundsProofs
import WpiUtil.Json.Proofs.ParserCallbackProofs
import WpiUtil.Json.Proofs.ParserProofs
import WpiUtil.Json.Proofs.ParserSoundProofs
import WpiUtil.Json.Proofs.PointerAccessProofs
import WpiUtil.Json.Proofs.PointerAssignmentProofs
import WpiUtil.Json.Proofs.PointerFailureProofs
import WpiUtil.Json.Proofs.PruningProofs
import WpiUtil.Json.Proofs.ReadKeysProofs
import WpiUtil.Json.Proofs.ReadableProofs
import WpiUtil.Json.Proofs.RebuildProofs
import WpiUtil.Json.Proofs.ReplayProofs
import WpiUtil.Json.Proofs.ScannedTokenProofs
import WpiUtil.Json.Proofs.SerializerProofs
import WpiUtil.Json.Proofs.TruncationProofs
import WpiUtil.Json.Proofs.UnflattenFlattenProofs
import WpiUtil.Json.Proofs.UnflatteningProofs
import WpiUtil.Json.Pruning
import WpiUtil.Json.RoundTrip
import WpiUtil.Json.Serializer
import WpiUtil.Llvm.ConvertUTF
import WpiUtil.Llvm.ConvertUTFText
import WpiUtil.Llvm.ConvertUTFTurns
import WpiUtil.Llvm.ConvertUTFWrapper
import WpiUtil.Llvm.Proofs.ConvertUTFBoundsProofs
import WpiUtil.Llvm.Proofs.ConvertUTFCharsProofs
import WpiUtil.Llvm.Proofs.ConvertUTFLenientProofs
import WpiUtil.Llvm.Proofs.ConvertUTFPiecesProofs
import WpiUtil.Llvm.Proofs.ConvertUTFProofs
import WpiUtil.Llvm.Proofs.ConvertUTFTextProofs
import WpiUtil.Llvm.Proofs.ConvertUTFTurnsProofs
import WpiUtil.Llvm.Proofs.ConvertUTFWrapperProofs
import WpiUtil.Llvm.Proofs.RawFdOstreamProofs
import WpiUtil.Llvm.Proofs.RawOstreamFormatProofs
import WpiUtil.Llvm.Proofs.RawOstreamProofs
import WpiUtil.Llvm.Proofs.RawOstreamReadBackProofs
import WpiUtil.Llvm.Proofs.SortItemsProofs
import WpiUtil.Llvm.Proofs.StringMapProofs
import WpiUtil.Llvm.Proofs.StringRefCompareProofs
import WpiUtil.Llvm.Proofs.StringRefNumbersProofs
import WpiUtil.Llvm.Proofs.StringRefProofs
import WpiUtil.Llvm.Proofs.StringRefSearchProofs
import WpiUtil.Llvm.RawFdOstream
import WpiUtil.Llvm.RawOstream
import WpiUtil.Llvm.RawOstreamCalls
import WpiUtil.Llvm.RawOstreamFormat
import WpiUtil.Llvm.StringMap
import WpiUtil.Llvm.StringRef
import WpiUtil.Llvm.StringRefNumbers
import WpiUtil.Llvm.StringRefSearch
import WpiUtil.Support.Base64
import WpiUtil.Support.ConcurrentQueue
import WpiUtil.Support.CountedIstream
import WpiUtil.Support.Cstdlib
import WpiUtil.Support.FdCursor
import WpiUtil.Support.FiniteIstream
import WpiUtil.Support.Getline
import WpiUtil.Support.HttpConnection
import WpiUtil.Support.HttpHeaders
import WpiUtil.Support.HttpLocation
import WpiUtil.Support.HttpUtil
import WpiUtil.Support.Leb128
import WpiUtil.Support.MultipartReads
import WpiUtil.Support.MultipartSearch
import WpiUtil.Support.Proofs.Base64Proofs
import WpiUtil.Support.Proofs.ConcurrentQueueProofs
import WpiUtil.Support.Proofs.EscapeURIProofs
import WpiUtil.Support.Proofs.FdCursorProofs
import WpiUtil.Support.Proofs.GetlineProofs
import WpiUtil.Support.Proofs.HttpConnectionProofs
import WpiUtil.Support.Proofs.HttpHeadersProofs
import WpiUtil.Support.Proofs.HttpLocationProofs
import WpiUtil.Support.Proofs.HttpRequestProofs
import WpiUtil.Support.Proofs.Leb128Proofs
import WpiUtil.Support.Proofs.MultipartReadsProofs
import WpiUtil.Support.Proofs.MultipartSearchProofs
import WpiUtil.Support.Proofs.RawSocketOstreamProofs
import WpiUtil.Support.Proofs.Sha1DigestProofs
import WpiUtil.Support.Proofs.Sha1Proofs
import WpiUtil.Support.Proofs.Sha1TransformProofs
import WpiUtil.Support.Proofs.TimestampProofs
import WpiUtil.Support.Proofs.UidHistoryProofs
import WpiUtil.Support.Proofs.UidVectorProofs
import WpiUtil.Support.Proofs.UrlComponentsProofs
import WpiUtil.Support.RawIstream
import WpiUtil.Support.RawSocketIstream
import WpiUtil.Support.RawSocketOstream
import WpiUtil.Support.Sha1
import WpiUtil.Support.Timestamp
import WpiUtil.Support.UidHistory
import WpiUtil.Support.UidVector
import WpiUtil.Support.UrlComponents
import WpiUtil.Tcpsockets.ConnectParallel
import WpiUtil.Tcpsockets.Proofs.ConnectParallelProofs
import WpiUtil.Tcpsockets.Proofs.TCPStreamProofs
import WpiUtil.Tcpsockets.TCPStream
import WpiUtil.Udpsockets.Proofs.UDPClientProofs
import WpiUtil.Udpsockets.UDPClient
