import SocValidation.Lib.Chains
import SocValidation.Lib.Trace
import SocValidation.Lib.ForkJoin
import SocValidation.Lib.BitRange
import SocValidation.Sequencer.Model
import SocValidation.Sequencer.Levels
import SocValidation.Sequencer.Diagnosis
import SocValidation.Sequencer.Run
import SocValidation.Sequencer.Schedule
import SocValidation.Sequencer.History
import SocValidation.Sequencer.Safety
import SocValidation.Sequencer.Progress
import SocValidation.Sequencer.Results
import SocValidation.Sequencer.Accounting
import SocValidation.Sequencer.Teardown
import SocValidation.Sequencer.Report
import SocValidation.Sequencer.Shape
import SocValidation.Lib.Program
import SocValidation.Lib.Serial
import SocValidation.Sequencer.Bodies
import SocValidation.Sequencer.Serializable
import SocValidation.Regmap.Generator
import SocValidation.Regmap.Fields
import SocValidation.Regmap.SocMap
import SocValidation.Lib.CText
import SocValidation.Regmap.Emitted
import SocValidation.Lib.CHeader
import SocValidation.Device.Model
import SocValidation.Device.Effects
import SocValidation.Device.Failure
import SocValidation.Device.Invariant
import SocValidation.Device.Transfer
import SocValidation.Device.W1c
import SocValidation.Device.Memory
import SocValidation.Device.Beats
import SocValidation.Device.Equivalence
import SocValidation.Device.Engine
import SocValidation.Lib.Countdown
import SocValidation.Device.Countdown
import SocValidation.Transport.Model
import SocValidation.Regmap.Accessor
import SocValidation.Regmap.Modify
import SocValidation.Transport.Stack
import SocValidation.Transport.Log
import SocValidation.Transport.Words
import SocValidation.Regmap.Transactions
import SocValidation.Regmap.FieldReads
import SocValidation.Lib.LostUpdate
import SocValidation.Regmap.Interleaved
import SocValidation.Regmap.Databook
import SocValidation.Transport.Replay
import SocValidation.Lib.Csv
import SocValidation.Lib.Numeral
import SocValidation.Lib.Raise
import SocValidation.Regmap.Bits
import SocValidation.Transport.SharedLog
import SocValidation.Transport.Attribution
import SocValidation.Transport.Csv
import SocValidation.Lib.Groups
import SocValidation.Transport.Analysis
import SocValidation.Lib.UniqueOwner
import SocValidation.Transport.MappedRegion
import SocValidation.Transport.Programs
import SocValidation.Bringup.Polling
import SocValidation.Bringup.Session
import SocValidation.Bench.Suite
import SocValidation.Regmap.Header
