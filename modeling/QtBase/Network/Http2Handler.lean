import Mathlib.Data.List.AList
import QtBase.Network.HPackTable
import QtBase.Network.Http2Frames

/-! The client side of HTTP/2, `QHttp2ProtocolHandler`: its state, and what it sends. Signals to
replies are left out. -/
namespace QtBase

namespace Http2

open HPack (HeaderField)

abbrev HttpHeader := List HeaderField

/-! ## Configuration -/

def defaultSessionWindowSize : ℕ := 65535

def maxSessionReceiveWindowSize : ℕ := 2 ^ 31 - 1

def minPayloadLimit : UInt32 := 16384

/-- A configuration. Its setters refuse sizes that are out of range. -/
structure QHttp2Configuration where
  sessionWindowSize : ℕ := defaultSessionWindowSize
  streamWindowSize : ℕ := defaultSessionWindowSize
  maxFrameSize : UInt32 := minPayloadLimit
  pushEnabled : Bool := false
  session_range : 0 < sessionWindowSize ∧ sessionWindowSize ≤ maxSessionReceiveWindowSize := by decide
  stream_range : 0 < streamWindowSize ∧ streamWindowSize ≤ maxSessionReceiveWindowSize := by decide

namespace QHttp2Configuration

def setSessionReceiveWindowSize (d : QHttp2Configuration) (size : UInt32) :
    QHttp2Configuration × Bool :=
  if h : size.toNat = 0 ∨ size.toNat > maxSessionReceiveWindowSize then (d, false)
  else ({ d with sessionWindowSize := size.toNat, session_range := by omega }, true)

def setStreamReceiveWindowSize (d : QHttp2Configuration) (size : UInt32) :
    QHttp2Configuration × Bool :=
  if h : size.toNat = 0 ∨ size.toNat > maxSessionReceiveWindowSize then (d, false)
  else ({ d with streamWindowSize := size.toNat, stream_range := by omega }, true)

end QHttp2Configuration

/-! ## Streams -/

inductive StreamState
  | idle | «open» | halfClosedLocal | halfClosedRemote | remoteReserved | closed
  deriving DecidableEq

inductive Priority
  | HighPriority | NormalPriority | LowPriority
  deriving DecidableEq

variable {Url Device Encoder Decoder : Type}

/-- A request with its upload device, and the reply. The URL is the one from
`urlkey_from_request`. -/
structure HttpMessagePair (Url Device : Type) where
  url : Url
  priority : Priority
  contentLength : ℤ
  preconnect : Bool
  followRedirects : Bool
  withCredentials : Bool
  needResendWithCredentials : Bool
  data : Option Device
  statusCode : ℤ
  totallyUploadedData : ℤ

/-- A stream has no reply while it is reserved only. -/
structure Stream (Url Device : Type) where
  httpPair : Option (HttpMessagePair Url Device) := none
  streamID : UInt32 := 0
  sendWindow : ℤ := 65535
  recvWindow : ℤ := 65535
  state : StreamState := .idle
  key : Option Url := none

namespace Stream

def data (stream : Stream Url Device) : Option Device := stream.httpPair.bind HttpMessagePair.data

def needResendWithCredentials (stream : Stream Url Device) : Bool :=
  (stream.httpPair.map HttpMessagePair.needResendWithCredentials).getD false

def updatePair (stream : Stream Url Device)
    (f : HttpMessagePair Url Device → HttpMessagePair Url Device) : Stream Url Device :=
  { stream with httpPair := stream.httpPair.map f }

end Stream

structure PushPromise where
  reservedID : UInt32
  pushHeader : HttpHeader
  responseHeader : HttpHeader := []
  dataFrames : List Frame := []

/-! ## What is outside -/

/-- How a reply with status 401 or 407 ends. -/
inductive Authentication
  | resend | failed | noChallenge
  deriving DecidableEq

/-- What the handler asks others for. -/
structure Outside (Url Device Encoder Decoder : Type) where
  /-- The device, whether the pointer is not null, and `len`. -/
  readPointer : Device → ℤ → Device × Bool × ℤ
  advanceReadPointer : Device → ℤ → Device
  atEnd : Device → Bool
  reset : Device → Device
  /-- `build_headers` and `encodeRequest`. -/
  encodeRequest : Encoder → HttpMessagePair Url Device → UInt32 → Encoder × Option (List UInt8)
  setMaxDynamicTableSize : Encoder → UInt32 → Encoder
  decodeHeaderFields : Decoder → List UInt8 → Decoder × Option HttpHeader
  /-- The URL from scheme, authority and path, if it is valid. -/
  url : List UInt8 → List UInt8 → List UInt8 → Option Url
  /-- The URL of a request that is not set. -/
  emptyUrl : Url
  /-- `adjusted(QUrl::RemovePath)`. -/
  removePath : Url → Url
  /-- `left(3).toInt()`. -/
  toStatusCode : List UInt8 → ℤ
  /-- Whether `parseRedirectResponse` returns an error. -/
  parseRedirectResponse : HttpMessagePair Url Device → HttpHeader → Bool
  handleAuthenticateChallenge : HttpMessagePair Url Device → Authentication
  /-- A device has data, or none yet, or is at its end. -/
  readPointer_len : ∀ d max, 0 < max → max < 2 ^ 31 →
    -1 ≤ (readPointer d max).2.2 ∧ (readPointer d max).2.2 < 2 ^ 31

/-! ## The handler -/

inductive Http2Error
  | HTTP2_NO_ERROR | PROTOCOL_ERROR | INTERNAL_ERROR | FLOW_CONTROL_ERROR | FRAME_SIZE_ERROR
  | REFUSE_STREAM | CANCEL | COMPRESSION_ERROR | ENHANCE_YOUR_CALM
  deriving DecidableEq

/-- A frame that is sent. Sizes are those of the payload. -/
inductive Outbound
  | clientPreface
  | settings (values : List (UInt16 × UInt32))
  | settingsAck
  | headers (streamID : UInt32) (size : ℕ) (endHeaders : Bool)
  | continuation (streamID : UInt32) (size : ℕ) (endHeaders : Bool)
  | data (streamID : UInt32) (size : ℕ)
  | endStream (streamID : UInt32)
  | windowUpdate (streamID delta : UInt32)
  | rstStream (streamID : UInt32) (errorCode : Http2Error)
  | goaway (errorCode : Http2Error)
  | pingAck (data : List UInt8)

/-- What happens, for an observer. -/
inductive Action
  | received (frame : Frame)
  | opened (streamID : UInt32)
  | sent (frame : Outbound)
  /-- `sendWINDOW_UPDATE` is called, or the call is queued. -/
  | called (streamID delta : UInt32)
  /-- A payload is handed over to be written while the windows are as told. -/
  | payload (streamID : UInt32) (size sessionWindow streamWindow : ℤ)
  /-- A new initial window for streams is accepted. -/
  | initialWindow (size : ℤ)
  | decoded (hpackBlock : List UInt8)
  | refused (reservedID : UInt32)
  /-- Whether the associated stream is active, and whether the promised one is or was reset. -/
  | reserving (associated active reset : Bool)
  | connectionError (goingAway : Bool) (errorCode : Http2Error) (message : String)
  /-- An assertion does not hold, and what the code does then is not defined. -/
  | undefined

structure Handler (Url Device Encoder Decoder : Type) where
  config : QHttp2Configuration
  prefaceSent : Bool := false
  waitingForSettingsACK : Bool := false
  decoder : Decoder
  encoder : Encoder
  activeStreams : AList fun _ : UInt32 => Stream Url Device := ∅
  suspendedStreams : Priority → List UInt32 := fun _ => []
  recycledStreams : List UInt32 := []
  maxFrameSize : UInt32 := minPayloadLimit
  continuationExpected : Bool := false
  continuedFrames : List Frame := []
  maxConcurrentStreams : UInt32 := 100
  maxSessionReceiveWindowSize : ℤ
  sessionReceiveWindowSize : ℤ := defaultSessionWindowSize
  streamInitialReceiveWindowSize : ℤ
  sessionSendWindowSize : ℤ := defaultSessionWindowSize
  streamInitialSendWindowSize : ℤ := defaultSessionWindowSize
  maxHeaderListSize : UInt32 := 0xffffffff
  nextID : UInt32 := 1
  goingAway : Bool := false
  pushPromiseEnabled : Bool
  lastPromisedID : UInt32 := 0
  promisedData : AList fun _ : Url => PushPromise := ∅
  h2RequestsToSend : List (HttpMessagePair Url Device) := []
  /-- How many more writes the socket takes until it fails. -/
  socket : ℕ
  /-- The calls of `sendWINDOW_UPDATE` that are queued. -/
  invocations : List (UInt32 × UInt32) := []
  /-- The last action first. -/
  trace : List Action := []

def lastValidStreamID : UInt32 := 0x7fffffff

def connectionStreamID : UInt32 := 0

/-- The maximum of a `qint32`. -/
def qint32Max : ℤ := 2 ^ 31 - 1

def qint32Min : ℤ := -2 ^ 31

def sum_will_overflow (windowSize delta : ℤ) : Bool :=
  if windowSize > 0 then qint32Max - windowSize < delta
  else qint32Min - windowSize > delta

namespace Handler

variable [DecidableEq Url]

abbrev H (Url Device Encoder Decoder : Type) := Handler Url Device Encoder Decoder

variable (o : Outside Url Device Encoder Decoder) (h : H Url Device Encoder Decoder)

def log (action : Action) : H Url Device Encoder Decoder := { h with trace := action :: h.trace }

/-! ### The socket -/

def socketWrite : H Url Device Encoder Decoder × Bool :=
  match h.socket with
  | 0 => (h, false)
  | writes + 1 => ({ h with socket := writes }, true)

/-- `FrameWriter::write`. -/
def write (frame : Outbound) : H Url Device Encoder Decoder × Bool :=
  let (h, ok) := h.socketWrite
  if ok then (h.log (.sent frame), true) else (h, false)

/-- A frame whose header and payload are written one after the other. -/
def writeParts (frame : Outbound) : H Url Device Encoder Decoder × Bool :=
  let (h, ok) := h.socketWrite
  if ok then h.write frame else (h, false)

def sizeLimit : ℕ := min h.maxFrameSize.toNat maxPayloadSize.toNat

/-- The continuations in `FrameWriter::writeHEADERS`. -/
def writeContinuations (limit : ℕ) (streamID : UInt32) :
    ℕ → ℕ → H Url Device Encoder Decoder → H Url Device Encoder Decoder × Bool
  | 0, _, h => (h, true)
  | rounds + 1, rest, h =>
    if rest = 0 then (h, true)
    else
      let chunkSize := min limit rest
      let (h, ok) := h.writeParts (.continuation streamID chunkSize (chunkSize = rest))
      if ok then writeContinuations limit streamID rounds (rest - chunkSize) h else (h, false)

def writeHEADERS (streamID : UInt32) (size : ℕ) : H Url Device Encoder Decoder × Bool :=
  if size ≤ h.sizeLimit then h.write (.headers streamID size true)
  else
    let limit := h.sizeLimit
    let (h, ok) := h.write (.headers streamID limit false)
    if ok then writeContinuations limit streamID size (size - limit) h else (h, false)

/-- The loop of `FrameWriter::writeDATA`. -/
def writeDATALoop (limit : ℕ) (streamID : UInt32) :
    ℕ → ℕ → H Url Device Encoder Decoder → H Url Device Encoder Decoder × Bool
  | 0, _, h => (h, true)
  | rounds + 1, rest, h =>
    if rest = 0 then (h, true)
    else
      let chunkSize := min rest limit
      let (h, ok) := h.writeParts (.data streamID chunkSize)
      if ok then writeDATALoop limit streamID rounds (rest - chunkSize) h else (h, false)

/-- `FrameWriter::writeDATA`: the size is made a `quint32`. -/
def writeDATA (streamID : UInt32) (size : ℤ) : H Url Device Encoder Decoder × Bool :=
  let size := (size % 2 ^ 32).toNat
  writeDATALoop h.sizeLimit streamID size size h

/-! ### Simple frames -/

def sendWINDOW_UPDATE (streamID delta : UInt32) : H Url Device Encoder Decoder × Bool :=
  h.write (.windowUpdate streamID delta)

def sendRST_STREAM (streamID : UInt32) (errorCode : Http2Error) : H Url Device Encoder Decoder :=
  (h.write (.rstStream streamID errorCode)).1

def sendGOAWAY (errorCode : Http2Error) : H Url Device Encoder Decoder :=
  (h.write (.goaway errorCode)).1

/-- A queued call of `sendWINDOW_UPDATE`. -/
def invokeSendWINDOW_UPDATE (streamID delta : UInt32) : H Url Device Encoder Decoder :=
  { h.log (.called streamID delta) with invocations := h.invocations ++ [(streamID, delta)] }

/-- `configurationToSettingsFrame`. -/
def configurationToSettings (config : QHttp2Configuration) : List (UInt16 × UInt32) :=
  [(0x2, if config.pushEnabled then 1 else 0)] ++
  (if config.streamWindowSize ≠ defaultSessionWindowSize then
    [(0x4, UInt32.ofNat config.streamWindowSize)] else []) ++
  (if config.maxFrameSize ≠ minPayloadLimit then [(0x5, config.maxFrameSize)] else [])

/-- The window of the session is set, and the peer is told what it has more than it started with. -/
def updateInitialWindow : H Url Device Encoder Decoder × Bool :=
  let h := { h with sessionReceiveWindowSize := h.maxSessionReceiveWindowSize }
  let delta : ℤ := h.maxSessionReceiveWindowSize - (defaultSessionWindowSize : ℤ)
  if delta ≠ 0 then
    (h.log (.called connectionStreamID (UInt32.ofInt delta))).sendWINDOW_UPDATE connectionStreamID
      (UInt32.ofInt delta)
  else (h, true)

def sendClientPreface : H Url Device Encoder Decoder × Bool :=
  if h.prefaceSent then (h, true)
  else
    let (h, ok) := h.write .clientPreface
    if !ok then (h, false)
    else
      let (h, ok) := h.write (.settings (configurationToSettings h.config))
      if !ok then (h, false)
      else
        let (h, ok) := h.updateInitialWindow
        if !ok then (h, false)
        else ({ h with prefaceSent := true, waitingForSettingsACK := true }, true)

def ensureClientPrefaceSent : H Url Device Encoder Decoder := h.sendClientPreface.1

def sendSETTINGS_ACK : H Url Device Encoder Decoder :=
  let (h, ok) := h.sendClientPreface
  if ok then (h.write .settingsAck).1 else h

/-! ### The life of a stream -/

/-- `activeStreams[streamID]`. -/
def stream (streamID : UInt32) : Stream Url Device := (h.activeStreams.lookup streamID).getD {}

/-- A change of an active stream. -/
def updateActive (streamID : UInt32) (f : Stream Url Device → Stream Url Device) :
    H Url Device Encoder Decoder :=
  match h.activeStreams.lookup streamID with
  | none => h
  | some stream => { h with activeStreams := h.activeStreams.insert streamID (f stream) }

def streamWasReset (streamID : UInt32) : Bool := h.recycledStreams.contains streamID

def maxRecycledStreams : ℕ := 10000

/-- The IDs are sorted. -/
def markAsReset (streamID : UInt32) : H Url Device Encoder Decoder :=
  let recycled := if h.recycledStreams.length > maxRecycledStreams then
    h.recycledStreams.drop (h.recycledStreams.length / 2) else h.recycledStreams
  { h with recycledStreams :=
      if recycled.contains streamID then recycled
      else recycled.takeWhile (· < streamID) ++ streamID :: recycled.dropWhile (· < streamID) }

def removeFromSuspended (streamID : UInt32) : H Url Device Encoder Decoder :=
  { h with suspendedStreams := fun p => (h.suspendedStreams p).filter (· ≠ streamID) }

def addToSuspended (streamID : UInt32) (priority : Priority) : H Url Device Encoder Decoder :=
  { h with suspendedStreams := fun p =>
      if p = priority then h.suspendedStreams p ++ [streamID] else h.suspendedStreams p }

def deleteActiveStream (streamID : UInt32) : H Url Device Encoder Decoder :=
  { h with activeStreams := h.activeStreams.erase streamID }.removeFromSuspended streamID

/-- The reply is told, and the stream is closed. -/
def finishStreamWithError (streamID : UInt32) : H Url Device Encoder Decoder :=
  h.updateActive streamID fun stream => { stream with state := .closed }

/-- The end of a stream that the handler gives up. -/
def abandon (streamID : UInt32) (errorCode : Http2Error) : H Url Device Encoder Decoder :=
  (((h.finishStreamWithError streamID).sendRST_STREAM streamID errorCode).markAsReset
    streamID).deleteActiveStream streamID

/-- `m_channel->close()` closes the socket. -/
def closeSession : H Url Device Encoder Decoder :=
  { h with activeStreams := ∅, suspendedStreams := fun _ => [], recycledStreams := [], socket := 0 }

def connectionError (errorCode : Http2Error) (message : String) : H Url Device Encoder Decoder :=
  ({ h.log (.connectionError h.goingAway errorCode message) with goingAway := true }.sendGOAWAY
    errorCode).closeSession

/-- Also for the stream of a request that was upgraded from HTTP/1.1. -/
def createNewStream (message : HttpMessagePair Url Device) : H Url Device Encoder Decoder × UInt32 :=
  if h.nextID > lastValidStreamID then (h, 0)
  else
    let newStreamID := h.nextID
    ({ h.log (.opened newStreamID) with
        nextID := h.nextID + 2
        activeStreams := h.activeStreams.insert newStreamID
          { httpPair := some message
            streamID := newStreamID
            sendWindow := h.streamInitialSendWindowSize
            recvWindow := h.streamInitialReceiveWindowSize } }, newStreamID)

/-! ### DATA -/

/-- The windows and the counters after a payload. -/
def payloadWritten (streamID : UInt32) (bytesWritten : ℤ) : H Url Device Encoder Decoder :=
  { h.updateActive streamID fun stream =>
      { stream.updatePair fun pair => { pair with
          data := pair.data.map fun d => o.advanceReadPointer d bytesWritten
          totallyUploadedData := pair.totallyUploadedData + bytesWritten } with
        sendWindow := stream.sendWindow - bytesWritten } with
    sessionSendWindowSize := h.sessionSendWindowSize - bytesWritten }

/-- The loop of `sendDATA`: what is returned from it, if anything. A round makes the slot smaller by
what it writes. -/
def sendDATALoop (streamID : UInt32) :
    ℕ → ℤ → H Url Device Encoder Decoder → H Url Device Encoder Decoder × Option Bool
  | 0, _, h => (h, none)
  | rounds + 1, slot, h =>
    match (h.stream streamID).httpPair with
    | none => (h, none)
    | some pair => match pair.data with
      | none => (h, none)
      | some data =>
        if pair.totallyUploadedData < pair.contentLength ∧ slot ≠ 0 then
          let (data, src, chunkSize) := o.readPointer data slot
          let h := h.updateActive streamID fun stream =>
            stream.updatePair fun pair => { pair with data := some data }
          if chunkSize = -1 then (h, some false)
          else if !src || chunkSize = 0 then (h, some true)
          else
            let bytesWritten := min slot (chunkSize.bmod (2 ^ 32))
            let h := h.log (.payload streamID bytesWritten h.sessionSendWindowSize
              (h.stream streamID).sendWindow)
            let (h, ok) := h.writeDATA streamID bytesWritten
            if !ok then (h, some false)
            else
              let h := h.payloadWritten o streamID bytesWritten
              sendDATALoop streamID rounds
                (min h.sessionSendWindowSize (h.stream streamID).sendWindow) h
        else (h, none)

/-- The slot of `sendDATA`. -/
def slot (streamID : UInt32) : ℤ := min h.sessionSendWindowSize (h.stream streamID).sendWindow

/-- What `sendDATA` does after its loop. -/
def finishDATA (streamID : UInt32) : H Url Device Encoder Decoder :=
  match (h.stream streamID).httpPair with
  | none => h
  | some pair =>
    if pair.totallyUploadedData = pair.contentLength then
      ((h.write (.endStream streamID)).1.updateActive streamID fun stream =>
        { stream with state := .halfClosedLocal }).removeFromSuspended streamID
    else if (pair.data.map o.atEnd).getD true then h
    else h.addToSuspended streamID pair.priority

def sendDATA (streamID : UInt32) : H Url Device Encoder Decoder × Bool :=
  match sendDATALoop o streamID ((h.slot streamID).natAbs + 1) (h.slot streamID) h with
  | (h, some result) => (h, result)
  | (h, none) => (h.finishDATA o streamID, true)

/-- `_q_uploadDataReadyRead`, for the stream of the device. -/
def uploadDataReadyRead (streamID : UInt32) : H Url Device Encoder Decoder :=
  let (h, ok) := h.sendDATA o streamID
  if ok then h else h.abandon streamID .INTERNAL_ERROR

/-- `_q_replyDestroyed`, for the stream of the reply. -/
def replyDestroyed (streamID : UInt32) : H Url Device Encoder Decoder :=
  if streamID ∈ h.activeStreams then
    ((h.sendRST_STREAM streamID .CANCEL).markAsReset streamID).deleteActiveStream streamID
  else h

/-- The place of a stream in a queue that can send. -/
def popFrom (queue : List UInt32) : Option UInt32 :=
  queue.find? fun id => decide (id ∈ h.activeStreams) && decide ((h.stream id).sendWindow > 0)

def popStreamToResume : H Url Device Encoder Decoder × UInt32 :=
  let ranks := [Priority.HighPriority, .NormalPriority, .LowPriority]
  match ranks.findSome? fun rank =>
      (h.popFrom (h.suspendedStreams rank)).map fun id => (rank, id) with
  | none => (h, connectionStreamID)
  | some (rank, id) =>
    ({ h with suspendedStreams := fun p =>
        if p = rank then (h.suspendedStreams p).erase id else h.suspendedStreams p }, id)

/-- `resumeSuspendedStreams`, up to a number of rounds. -/
def resumeSuspendedStreams : ℕ → H Url Device Encoder Decoder → H Url Device Encoder Decoder
  | 0, h => h
  | rounds + 1, h =>
    if h.sessionSendWindowSize > 0 then
      let (h, streamID) := h.popStreamToResume
      if streamID = 0 then h
      else if streamID ∉ h.activeStreams then resumeSuspendedStreams rounds h
      else resumeSuspendedStreams rounds (h.uploadDataReadyRead o streamID)
    else h

end Handler

end Http2

end QtBase
