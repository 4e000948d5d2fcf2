import RowCodec.Binding.Serializer
import RowCodec.Json.Encoded
import RowCodec.Json.Report
import RowCodec.Json.Settings
import RowCodec.Proofs.Binding.Apart
import RowCodec.Proofs.Binding.Compatible
import RowCodec.Proofs.Binding.Disclosure
import RowCodec.Proofs.Binding.Filling
import RowCodec.Proofs.Binding.Nulls
import RowCodec.Proofs.Binding.TableOrder
import RowCodec.Proofs.Binding.Whole
import RowCodec.Proofs.BitSet.Canonical
import RowCodec.Proofs.Json.RoundTrip
import RowCodec.Proofs.Schema.Addressing
import RowCodec.Proofs.Schema.StableLayout
import RowCodec.Proofs.Tuple.Deleting
import RowCodec.Proofs.Tuple.Fingerprint
import RowCodec.Proofs.Tuple.Frame
import RowCodec.Proofs.Tuple.Grammar
import RowCodec.Proofs.Tuple.OneSize
import RowCodec.Proofs.Tuple.Reencoding
import RowCodec.Proofs.Tuple.Runs
import RowCodec.Proofs.Tuple.Tiling
import RowCodec.Proofs.Tuple.Truncation
import RowCodec.Proofs.Tuple.Unchecked
import RowCodec.Proofs.Tuple.Words
