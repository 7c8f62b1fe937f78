import TubePreamp.Sample
import TubePreamp.Decimal
import TubePreamp.Tube
import TubePreamp.Notice
import TubePreamp.Circuit
import TubePreamp.OperatingPoint
import TubePreamp.Stage
import TubePreamp.Cascade
import TubePreamp.Pcm
import TubePreamp.FrontEnds
import TubePreamp.Main
import TubePreamp.Proofs.Precision
import TubePreamp.Proofs.Stage.Render
import TubePreamp.Proofs.Cascade.Structure
import TubePreamp.Proofs.Cascade.Render
import TubePreamp.Proofs.Cascade.Wiring
import TubePreamp.Proofs.Cascade.Setup
import TubePreamp.Proofs.Cascade.Moments
import TubePreamp.Proofs.Circuit
import TubePreamp.Proofs.Stage.Bookkeeping
import TubePreamp.Proofs.Stage.Seeding
import TubePreamp.Proofs.Stage.Ports
import TubePreamp.Proofs.Stage.Segments
import TubePreamp.Proofs.Stage.Feedback
import TubePreamp.Proofs.Exact.Arithmetic
import TubePreamp.Proofs.Exact.Curve
import TubePreamp.Proofs.Exact.LoadLine
import TubePreamp.Proofs.Exact.OperatingPoint
import TubePreamp.Proofs.Exact.Bounds
import TubePreamp.Proofs.Exact.Cascade
import TubePreamp.Proofs.Exact.Offset
import TubePreamp.Proofs.Pcm.Delivery
import TubePreamp.Proofs.Pcm.Streaming
import TubePreamp.Proofs.Pcm.Accounting
import TubePreamp.Proofs.Pcm.RoundTrip
import TubePreamp.Proofs.Tube
import TubePreamp.Proofs.FrontEnds
