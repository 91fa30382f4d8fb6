import JvmAssembler.Main
import JvmAssembler.Proofs.Assignability
import JvmAssembler.Proofs.CallerFrames
import JvmAssembler.Proofs.ClassFile.Header
import JvmAssembler.Proofs.ComputeModes
import JvmAssembler.Proofs.Encoding.RoundTrip
import JvmAssembler.Proofs.Frame.Exactness
import JvmAssembler.Proofs.Protocol
import JvmAssembler.Proofs.Handler
import JvmAssembler.Proofs.Pool.Duplicates
import JvmAssembler.Proofs.Pool.Merges
import JvmAssembler.Proofs.Listing.Printing
import JvmAssembler.Proofs.Widening.Stability
