import MessagePack.Codec
import MessagePack.Gallery.Bindings
import MessagePack.Proofs.Codec.History
import MessagePack.Proofs.Codec.Isolation
import MessagePack.Proofs.Datum.Keys
import MessagePack.Proofs.Decode.Calls
import MessagePack.Proofs.Decode.Changes
import MessagePack.Proofs.Decode.Counter
import MessagePack.Proofs.Decode.Float
import MessagePack.Proofs.Decode.Frame
import MessagePack.Proofs.Decode.Integer
import MessagePack.Proofs.Decode.Isolation
import MessagePack.Proofs.Decode.Leftovers
import MessagePack.Proofs.Decode.Mapping
import MessagePack.Proofs.Decode.Order
import MessagePack.Proofs.Decode.Presence
import MessagePack.Proofs.Decode.Replaced
import MessagePack.Proofs.Decode.Tolerance
import MessagePack.Proofs.Decode.Twice
import MessagePack.Proofs.Decode.Typing
import MessagePack.Proofs.Encode.Bounds
import MessagePack.Proofs.Encode.Keys
import MessagePack.Proofs.Encode.Lengths
import MessagePack.Proofs.Encode.LockStep
import MessagePack.Proofs.Encode.Omitted
import MessagePack.Proofs.Encode.Uncounted
import MessagePack.Proofs.Extension.Timestamp
import MessagePack.Proofs.Record.Accessors
import MessagePack.Proofs.Record.Frame
import MessagePack.Proofs.Record.Search
import MessagePack.Proofs.Record.Typing
import MessagePack.Proofs.Record.Vanishing
import MessagePack.Proofs.RoundTrip.Canonical
import MessagePack.Proofs.RoundTrip.Denotes
import MessagePack.Proofs.RoundTrip.Record
import MessagePack.Proofs.RoundTrip.Typed
import MessagePack.Proofs.Time.Overflow
import MessagePack.Value.OfDatum
import MessagePack.Value.Text
