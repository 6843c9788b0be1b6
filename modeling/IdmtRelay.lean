import IdmtRelay.Lib.Drift
import IdmtRelay.Lib.FixedRoot
import IdmtRelay.Lib.Latch
import IdmtRelay.Lib.Machine
import IdmtRelay.Lib.Newton
import IdmtRelay.Lib.Projection
import IdmtRelay.Lib.Queue
import IdmtRelay.Lib.Reserve
import IdmtRelay.Lib.Ring
import IdmtRelay.Lib.Store
import IdmtRelay.Lib.Trace
import IdmtRelay.Lib.Variant
import IdmtRelay.Lib.Word
import IdmtRelay.Base.Types
import IdmtRelay.Serial.FIFO
import IdmtRelay.Serial.Link
import IdmtRelay.Serial.Packet
import IdmtRelay.Serial.Scanner
import IdmtRelay.Serial.UART
import IdmtRelay.Serial.Wire
import IdmtRelay.Serial.Proof.Corrupt
import IdmtRelay.Serial.Proof.Decode
import IdmtRelay.Serial.Proof.Overrun
import IdmtRelay.Serial.Proof.Queue
import IdmtRelay.Serial.Proof.Receive
import IdmtRelay.Serial.Proof.Resync
import IdmtRelay.Serial.Proof.Transmit
import IdmtRelay.Serial.Proof.Wire
import IdmtRelay.Measure.Acquire
import IdmtRelay.Measure.Analog
import IdmtRelay.Measure.FixPoint
import IdmtRelay.Measure.Proof.Accuracy
import IdmtRelay.Measure.Proof.Crossing
import IdmtRelay.Measure.Proof.Frequency
import IdmtRelay.Measure.Proof.Overload
import IdmtRelay.Measure.Proof.PickUp
import IdmtRelay.Measure.Proof.SquareRoot
import IdmtRelay.Measure.Proof.Window
import IdmtRelay.Flash.Allocate
import IdmtRelay.Flash.FTFE
import IdmtRelay.Flash.Flash
import IdmtRelay.Flash.Steps
import IdmtRelay.Flash.Store
import IdmtRelay.Flash.Proof.Allocate
import IdmtRelay.Flash.Proof.Command
import IdmtRelay.Flash.Proof.Drift
import IdmtRelay.Flash.Proof.Store
import IdmtRelay.Trip.Account
import IdmtRelay.Trip.Board
import IdmtRelay.Trip.Curve
import IdmtRelay.Trip.Device
import IdmtRelay.Trip.IDMT
import IdmtRelay.Trip.Relay
import IdmtRelay.Trip.Report
import IdmtRelay.Trip.Setting
import IdmtRelay.Trip.Proof.Account
import IdmtRelay.Trip.Proof.Board
import IdmtRelay.Trip.Proof.Characteristic
import IdmtRelay.Trip.Proof.Countdown
import IdmtRelay.Trip.Proof.Curve
import IdmtRelay.Trip.Proof.Defined
import IdmtRelay.Trip.Proof.Exponent
import IdmtRelay.Trip.Proof.Frozen
import IdmtRelay.Trip.Proof.Measured
import IdmtRelay.Trip.Proof.Periodic
import IdmtRelay.Trip.Proof.Remaining
import IdmtRelay.Trip.Proof.Report
import IdmtRelay.Trip.Proof.Response
import IdmtRelay.Trip.Proof.Retime
import IdmtRelay.Trip.Proof.Setting
import IdmtRelay.Trip.Proof.Signal
import IdmtRelay.Trip.Proof.Sustained
import IdmtRelay.Trip.Proof.Tick
import IdmtRelay.Trip.Proof.Timing
import IdmtRelay.Trip.Proof.TripTime
import IdmtRelay.Firmware.Server
import IdmtRelay.Firmware.System
import IdmtRelay.Firmware.Proof.Answered
import IdmtRelay.Firmware.Proof.InForce
import IdmtRelay.Firmware.Proof.Parts
import IdmtRelay.Firmware.Proof.Progress
import IdmtRelay.Firmware.Proof.Reported
import IdmtRelay.Firmware.Proof.Serve
