import Msgpack11.StrictWeak
import Msgpack11.SortedUnique
import Msgpack11.Floating
import Msgpack11.Bytes
import Msgpack11.Streams
import Msgpack11.Value
import Msgpack11.Compare
import Msgpack11.KeyOrder
import Msgpack11.Ordering
import Msgpack11.Dump
import Msgpack11.Wire
import Msgpack11.Codec
import Msgpack11.WireReader
import Msgpack11.Parser
import Msgpack11.Refinement
import Msgpack11.Framing
import Msgpack11.Parse
import Msgpack11.Grammar
import Msgpack11.Outcomes
import Msgpack11.MultiParse
import Msgpack11.Canonical
import Msgpack11.RoundTrip
import Msgpack11.Canonicity
import Msgpack11.EntryOrder
import Msgpack11.NaNKeys
import Msgpack11.Integers
import Msgpack11.Shape
import Msgpack11.Reencoding
import Msgpack11.Bounds
import Msgpack11.Insertion
import Msgpack11.Machines
import Msgpack11.Delivery
import Msgpack11.StringStream
import Msgpack11.Session
import Msgpack11.Comparisons
import Msgpack11.Relays
import Msgpack11.Paths
import Msgpack11.Show
import Msgpack11.Benchmark
import Msgpack11.Generator
