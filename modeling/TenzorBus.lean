import TenzorBus.Guarantee.Untorn
import TenzorBus.Guarantee.Overrun
import TenzorBus.Guarantee.Sequences
import TenzorBus.Guarantee.Once
import TenzorBus.Guarantee.Reuse
import TenzorBus.Guarantee.Readers
import TenzorBus.Guarantee.Reservation
import TenzorBus.Futex.Recovery
import TenzorBus.Wire.Geometry
import TenzorBus.Reference.Accounting
import TenzorBus.Paths.Size
import TenzorBus.Shift.Run
import TenzorBus.Open.Finished
import TenzorBus.Wire.RoundTrip
import TenzorBus.Sequential.Refused
import TenzorBus.Open.Name
import TenzorBus.Sink.Run
import TenzorBus.Wakeup.Reclaim
import TenzorBus.Arrival.Asleep
import TenzorBus.Guarantee.Queue
import TenzorBus.Guarantee.Overtaking
import TenzorBus.Bindings.Safety
import TenzorBus.Bindings.Published
