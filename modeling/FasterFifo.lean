import FasterFifo.Library.CyclicBuffer
import FasterFifo.Library.CheckedMemory
import FasterFifo.Library.Framing
import FasterFifo.Library.BoundedFifo
import FasterFifo.Library.Census
import FasterFifo.Calls
import FasterFifo.RingSpec
import FasterFifo.ByteRing
import FasterFifo.Representation
import FasterFifo.Service
import FasterFifo.System
import FasterFifo.ConsumerWakeups
import FasterFifo.Refinement
import FasterFifo.Contracts
import FasterFifo.RoomCheck
import FasterFifo.ProducerWakeups
import FasterFifo.Python
import FasterFifo.GiveUp
import FasterFifo.Parsing
import FasterFifo.PythonContracts
import FasterFifo.Timeouts
import FasterFifo.Retries
import FasterFifo.Batches
import FasterFifo.Linearization
import FasterFifo.DataIndependence
import FasterFifo.LoneSleepers
import FasterFifo.TimeBudget
import FasterFifo.Losses
import FasterFifo.Library.Mutex
import FasterFifo.Locking
import FasterFifo.Observers
import FasterFifo.WireFormat
import FasterFifo.Progress
import FasterFifo.Draining
import FasterFifo.Methods
import FasterFifo.HandOver
import FasterFifo.CheckThenAct
import FasterFifo.Indistinguishable
import FasterFifo.History
import FasterFifo.UniformBatches
import FasterFifo.PatientGets
