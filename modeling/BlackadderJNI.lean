import BlackadderJNI.Lib.Channel
import BlackadderJNI.Lib.Wire
import BlackadderJNI.Native.SendOrder
import BlackadderJNI.Native.EventPath
import BlackadderJNI.Native.Framing
import BlackadderJNI.Native.Acceptance
import BlackadderJNI.Native.Snapshot
import BlackadderJNI.Callback.LongestMatch
import BlackadderJNI.Callback.Deletion
import BlackadderJNI.Callback.Interleave
import BlackadderJNI.Callback.Synchronized
import BlackadderJNI.Native.EventDecode
import BlackadderJNI.Wrapper.BAEvent
import BlackadderJNI.Wrapper.Receive
import BlackadderJNI.Wrapper.Reading
import BlackadderJNI.Wrapper.Ownership
import BlackadderJNI.Wrapper.Release
import BlackadderJNI.Wrapper.Classification
import BlackadderJNI.Callback.Dispatch
import BlackadderJNI.Native.WorkerLoop
import BlackadderJNI.Native.Overflow
import BlackadderJNI.Native.Disconnect
import BlackadderJNI.Wrapper.SafeCalls
import BlackadderJNI.Wrapper.HexIdentifiers
import BlackadderJNI.Wrapper.ByteHelper
import BlackadderJNI.Wrapper.EventQueue
import BlackadderJNI.Wrapper.Delivery
import BlackadderJNI.Wrapper.Reactive
import BlackadderJNI.Native.BitvectorRuns
import BlackadderJNI.Wrapper.Elements
import BlackadderJNI.Wrapper.BlockingReceive
