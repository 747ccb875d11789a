import Downlink.Config.Writer
import Downlink.Main
import Downlink.Text.Json.Reader
import Downlink.Proofs.FieldBits
import Downlink.Proofs.MarkerSearch
import Downlink.Proofs.PayloadReading
import Downlink.Proofs.PayloadRoundTrip
import Downlink.Proofs.FrameInDatagram
import Downlink.Proofs.CallsMade
import Downlink.Proofs.LoopAccount
import Downlink.Proofs.Interleaving
import Downlink.Proofs.Following
import Downlink.Proofs.Broadcast
import Downlink.Proofs.LoopTime
import Downlink.Proofs.SubscriberTimeline
import Downlink.Proofs.CaptureParsing
import Downlink.Proofs.CaptureWriting
import Downlink.Proofs.CaptureReading
import Downlink.Proofs.CaptureReplay
import Downlink.Proofs.LoopAtWork
import Downlink.Proofs.LoopSightings
import Downlink.Proofs.LayoutPlaces
import Downlink.Proofs.Repacking
import Downlink.Proofs.FrameSearch
import Downlink.Proofs.Truncation
import Downlink.Proofs.CheckedDecoding
import Downlink.Proofs.DecodeOutcomes
import Downlink.Proofs.RunMoments
import Downlink.Proofs.RunAmongReaders
import Downlink.Proofs.BitPlaces
import Downlink.Proofs.ReadingSession
import Downlink.Proofs.RecordPlaces
import Downlink.Proofs.Transcoding
import Downlink.Proofs.Cancellation
import Downlink.Proofs.BitWriting
import Downlink.Proofs.BitRoundTrip
import Downlink.Proofs.ThrottledStream
import Downlink.Proofs.RateBound
import Downlink.Proofs.LoopSchedule
import Downlink.Proofs.ShortPayload
import Downlink.Proofs.ExactConsumption
import Downlink.Proofs.EarliestFrame
import Downlink.Proofs.EngineeringValues
import Downlink.Proofs.ValueEncoding
import Downlink.Proofs.LayoutChecking
import Downlink.Proofs.CaptureCuts
import Downlink.Proofs.WholeValues
import Downlink.Proofs.Rounding
import Downlink.Proofs.ScaledRoundTrip
import Downlink.Proofs.AssignedFrames
import Downlink.Proofs.LayoutLookups
import Downlink.Proofs.ReplayDelays
import Downlink.Proofs.ReplaySchedule
import Downlink.Proofs.Digits
import Downlink.Proofs.SettingsWriting
import Downlink.Proofs.SettingsRoundTrip
