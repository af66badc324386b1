import LociWireBuf.Bytes
import LociWireBuf.Buffer
import LociWireBuf.Access
import LociWireBuf.Versioned
import LociWireBuf.MoveEnd
import LociWireBuf.Bounds
import LociWireBuf.RoundTrip
import LociWireBuf.Layout
import LociWireBuf.Atomic
import LociWireBuf.Capacity
import LociWireBuf.Relocate
import LociWireBuf.Safety
import LociWireBuf.ByteArray
import LociWireBuf.Refinement
import LociWireBuf.Programs
