import Lzbench.Lib.Loop
import Lzbench.Codec
import Lzbench.Compress
import Lzbench.Capacity
import Lzbench.Decompress
import Lzbench.RoundTrip
import Lzbench.Lib.Rounding
import Lzbench.Print
import Lzbench.Test
import Lzbench.Lib.OrderStat
import Lzbench.ErrorMarker
import Lzbench.Store
import Lzbench.Verification
import Lzbench.Outcome
import Lzbench.Reproducible
import Lzbench.Abort
import Lzbench.CompDesc
import Lzbench.EncoderList
import Lzbench.Main
import Lzbench.Join
import Lzbench.Bzip2
import Lzbench.DecodeBounds
import Lzbench.Room
import Lzbench.JoinInput
import Lzbench.FileList
import Lzbench.FileListing
import Lzbench.ListFailure
import Lzbench.World
import Lzbench.Parts
import Lzbench.Handles
import Lzbench.Options
import Lzbench.Requests
import Lzbench.Table
import Lzbench.Lzlib
import Lzbench.Zling
import Lzbench.Tornado
import Lzbench.OptionItems
import Lzbench.OptionText
import Lzbench.ChunkSizes
import Lzbench.NumericOptions
import Lzbench.EncoderCalls
import Lzbench.IntSizes
import Lzbench.Levels
import Lzbench.FailureDump
import Lzbench.Verdict
import Lzbench.Lzjb
import Lzbench.Lib.Huffman
import Lzbench.Lib.CanonicalCode
import Lzbench.Lib.BitBuffer
import Lzbench.ZlingLz
import Lzbench.ZlingHuffman
import Lzbench.ZlingBits
import Lzbench.ZlingSize
import Lzbench.ZlingStream
import Lzbench.ZlingDecode
import Lzbench.ZlingCodec
import Lzbench.ZlingItems
