import DArc.Library.Words
import DArc.Library.ChunkedInput
import DArc.REP.Compressor
import DArc.Library.SlidingWindow
import DArc.Compression.Common
import DArc.REP.Decompressor
import DArc.REP.Matches
import DArc.REP.Scan
import DArc.Library.Fuel
import DArc.REP.RoundTrip
import DArc.Delta.Tables
import DArc.Delta.Detector
import DArc.Delta.Filter
import DArc.FourByFour.OneShotFlag
import DArc.Library.BlockFilter
import DArc.MM.Samples
import DArc.MM.Detector
import DArc.MM.Filter
import DArc.Archive.ByteStream
import DArc.Archive.Paths
import DArc.Archive.Directory
import DArc.Archive.RoundTrip
import DArc.Archive.Footer
import DArc.Archive.PathSafety
import DArc.Utils.Allocator
import DArc.Extract.Delivery
import DArc.Extract.ShortStream
import DArc.Environment.CRC
import DArc.Unarc.Extraction
import DArc.Unarc.Completeness
import DArc.Library.Parity
import DArc.Recovery.Memory
import DArc.Recovery.Record
import DArc.Recovery.Repair
import DArc.MultiDecompress.Links
import DArc.MultiDecompress.Chain
import DArc.Library.Row
import DArc.Pipeline.Channels
import DArc.Pipeline.Runs
import DArc.Archive.BrokenArchive
import DArc.Encryption.Hex
import DArc.Library.Cut
import DArc.Volumes.Split
import DArc.Library.Segments
import DArc.Volumes.Read
import DArc.FileList.Files
import DArc.FileList.Join
import DArc.FileList.Criteria
import DArc.Compression.Compressors
import DArc.FileList.Types
import DArc.FileList.SolidBlocks
import DArc.FileList.CopiedBlocks
import DArc.Unarc.MemoryBuffer
import DArc.Unarc.FooterDescriptor
import DArc.Unarc.DirectoryBlock
import DArc.Library.Network
import DArc.Library.Joins
import DArc.SolidBlock.StreamQueue
import DArc.SolidBlock.Stages
import DArc.SolidBlock.CompressSolidBlock
import DArc.Archive.OutStream
import DArc.Unarc.IntegerCode
import DArc.BSC.Callback
import DArc.BSC.Stream
import DArc.BSC.RoundTrip
import DArc.Recovery.Parameters
import DArc.BlockDecoders.Port
import DArc.BlockDecoders.LZ4
import DArc.BlockDecoders.DisPack
import DArc.BlockDecoders.MM
import DArc.BlockDecoders.Bounds
import DArc.Library.Spans
import DArc.SREP.Matches
import DArc.SREP.Blocks
import DArc.SREP.Decompress
import DArc.Library.LinkedNodes
import DArc.SREP.MemoryManager
import DArc.SREP.SecondPass
import DArc.Library.Noted
import DArc.SREP.VirtualMemory
import DArc.SREP.FutureLZ
import DArc.SREP.Spilling
import DArc.Archive.PackedPaths
import DArc.Archive.StreamStrings
import DArc.Compression.Charsets
import DArc.Files.Copy
import DArc.Unarc.Listing
import DArc.Utils.Wildcards
import DArc.Library.Walk
import DArc.MM.WavHeader
import DArc.LZP.Coder
import DArc.LZP.RoundTrip
import DArc.REP.SideBuffers
import DArc.REP.Markers
import DArc.BlockDecoders.LZ4RoundTrip
import DArc.BlockDecoders.DisPackRoundTrip
import DArc.Library.RunningSums
import DArc.Tornado.DataTables
import DArc.Tornado.Undiff
import DArc.Library.IntervalCoding
import DArc.Tornado.Counter
import DArc.Tornado.RangeCoder
import DArc.Tornado.ArithCoder
import DArc.Library.SharedReads
import DArc.SREP.InMemory
import DArc.SREP.Background
import DArc.Compression.MemoryUsage
import DArc.Library.PolynomialHash
import DArc.SREP.Hashes
import DArc.SREP.HashedCompress
import DArc.REP.RollingHash
import DArc.Compression.MethodNumbers
import DArc.Tornado.Parameters
import DArc.Library.OptimalCodes
import DArc.Library.SortedMerge
import DArc.Library.BitFields
import DArc.Tornado.BitStreams
import DArc.Tornado.HuffmanTree
import DArc.Tornado.HuffmanNodes
import DArc.Tornado.HuffmanCodes
import DArc.Tornado.HuffmanCoder
import DArc.Tornado.LZ77Coder
import DArc.Tornado.LZ77Codecs
import DArc.Tornado.ByteCoder
import DArc.Tornado.Decompress
import DArc.Tornado.Compress
import DArc.Tornado.CompressRun
import DArc.Tornado.CachingFinders
import DArc.Tornado.CombinedFinders
import DArc.Tornado.RoundTrip
