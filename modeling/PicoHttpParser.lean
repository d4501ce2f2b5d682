import PicoHttpParser.Head.Equivalence
import PicoHttpParser.Head.Monotone
import PicoHttpParser.Head.ReadLoop
import PicoHttpParser.Head.Partial
import PicoHttpParser.Head.Capacity
import PicoHttpParser.Head.ReturnCode
import PicoHttpParser.Head.Write
import PicoHttpParser.Head.StartLine
import PicoHttpParser.Head.Divergence
import PicoHttpParser.Head.Countermeasure
import PicoHttpParser.Reference.Sse
import PicoHttpParser.Chunk.Completion
import PicoHttpParser.Chunk.Trailer
import PicoHttpParser.Chunk.Progress
import PicoHttpParser.Chunk.Divergence
import PicoHttpParser.Chunk.Spent
import PicoHttpParser.Chunk.Errors
import PicoHttpParser.Consumer.ReadRequest
import PicoHttpParser.Consumer.ReadBody
import PicoHttpParser.Consumer.Overhead
import PicoHttpParser.Loopback.Exchange
