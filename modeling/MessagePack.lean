import MessagePack.Codec.Samples
import MessagePack.Stream
import MessagePack.Timestamp.SystemTime
import MessagePack.Proofs.RoundTrip.Stream
import MessagePack.Proofs.Typed.DepthLimit
import MessagePack.Proofs.Typed.Told
import MessagePack.Proofs.Value.Failure
import MessagePack.Proofs.InStep.Consumed
import MessagePack.Proofs.InStep.Tables
import MessagePack.Proofs.Writing.Meaning
import MessagePack.Proofs.Writing.Shortest
import MessagePack.Proofs.Writing.Direct
import MessagePack.Proofs.Writing.Sinks
import MessagePack.Proofs.Writing.Transparent
import MessagePack.Proofs.Writing.WellFormed
import MessagePack.Proofs.RoundTrip.InMemory
import MessagePack.Proofs.RoundTrip.Generic
import MessagePack.Proofs.Mirror.Basic
import MessagePack.Proofs.Mirror.Offers
import MessagePack.Proofs.Mirror.Readers
import MessagePack.Proofs.Mirror.Shape
import MessagePack.Proofs.Session.Takes
import MessagePack.Proofs.Wire.Inverse
import MessagePack.Proofs.Writing.Precoded
import MessagePack.Proofs.Portable.Reencoded
import MessagePack.Proofs.Portable.Struct
import MessagePack.Proofs.InStep.Cut
import MessagePack.Proofs.Typed.Integers
import MessagePack.Proofs.Writing.Stopped
import MessagePack.Proofs.Mirror.Accepted
import MessagePack.Proofs.Timestamp.Held
import MessagePack.Proofs.Timestamp.Instant
import MessagePack.Proofs.Elementwise.CutRaw
import MessagePack.Proofs.Writing.Captured
import MessagePack.Proofs.Timestamp.Order
import MessagePack.Proofs.Timestamp.Clock
import MessagePack.Proofs.Typed.Primitives
import MessagePack.Proofs.Nesting.Words
import MessagePack.Proofs.Fields.History
import MessagePack.Proofs.Readers.InMemory
import MessagePack.Proofs.Readers.Keys
import MessagePack.Proofs.Parallel.Shape
