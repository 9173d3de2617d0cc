import QtBase.Network.Http2Handler

/-! What `QHttp2ProtocolHandler` does with the frames it receives, and with new requests. -/
namespace QtBase

namespace Http2

open HPack (HeaderField)

/-- `assemble_hpack_block`: nothing if the sizes add up to more than a `quint32` holds. -/
def assemble_hpack_block (frames : List Frame) : List UInt8 :=
  if (frames.map fun f => f.hpackBlockSize.toNat).sum < 2 ^ 32 then frames.flatMap Frame.hpackBlock
  else []

/-- `QHttpNetworkReply::isHttpRedirect`. -/
def isHttpRedirect (statusCode : ℤ) : Bool :=
  statusCode = 301 || statusCode = 302 || statusCode = 303 || statusCode = 305 ||
    statusCode = 307 || statusCode = 308

/-- The bytes of a payload that a setting, an ID or an error code is read from. -/
def Frame.word (f : Frame) (i : ℕ) : UInt32 := qFromBigEndian32 (f.data.drop i)

namespace Handler

variable {Url Device Encoder Decoder : Type} [DecidableEq Url]

variable (o : Outside Url Device Encoder Decoder) (h : H Url Device Encoder Decoder)

/-! ### Replies -/

/-- The pseudo header in the headers of a response, the last one if there are more. -/
def statusField (headers : HttpHeader) : Option (List UInt8) :=
  (headers.reverse.find? fun field => field.name = HPack.ascii ":status").map HeaderField.value

/-- `updateStream` for headers. -/
def updateStreamHeaders (streamID : UInt32) (headers : HttpHeader) : H Url Device Encoder Decoder :=
  match (h.stream streamID).httpPair with
  | none => match (h.stream streamID).key with
    | none => h
    | some key => match h.promisedData.lookup key with
      | none => h
      | some promise =>
        { h with promisedData := h.promisedData.insert key { promise with responseHeader := headers } }
  | some pair =>
    let statusCode := ((statusField headers).map o.toStatusCode).getD 0
    let h := h.updateActive streamID fun stream => stream.updatePair fun pair =>
      { pair with statusCode := ((statusField headers).map o.toStatusCode).getD pair.statusCode }
    if isHttpRedirect statusCode && pair.followRedirects && o.parseRedirectResponse pair headers then
      ((h.finishStreamWithError streamID).sendRST_STREAM streamID .INTERNAL_ERROR).markAsReset
        streamID
    else if isHttpRedirect statusCode && (h.stream streamID).data.isSome then
      h.updateActive streamID fun stream => stream.updatePair fun pair =>
        { pair with data := pair.data.map o.reset, totallyUploadedData := 0 }
    else h

/-- `updateStream` for data, which is kept if there is no reply yet. -/
def updateStreamData (streamID : UInt32) (frame : Frame) : H Url Device Encoder Decoder :=
  match (h.stream streamID).httpPair, (h.stream streamID).key with
  | none, some key => match h.promisedData.lookup key with
    | none => h
    | some promise =>
      { h with promisedData :=
          h.promisedData.insert key { promise with dataFrames := promise.dataFrames ++ [frame] } }
  | _, _ => h

def handleAuthorization (streamID : UInt32) : H Url Device Encoder Decoder :=
  match (h.stream streamID).httpPair with
  | none => h
  | some pair => match o.handleAuthenticateChallenge pair with
    | .resend =>
      let pair := { pair with
        needResendWithCredentials := true
        data := pair.data.map o.reset
        totallyUploadedData := if pair.data.isSome then 0 else pair.totallyUploadedData }
      ({ h with h2RequestsToSend := h.h2RequestsToSend ++ [pair] }.markAsReset
        streamID).deleteActiveStream streamID
    | .failed => h
    | .noChallenge => h.finishStreamWithError streamID

def finishStream (streamID : UInt32) : H Url Device Encoder Decoder :=
  let h := h.updateActive streamID fun stream => { stream with state := .closed }
  match (h.stream streamID).httpPair with
  | none => h
  | some pair =>
    if pair.statusCode = 401 ∨ pair.statusCode = 407 then h.handleAuthorization o streamID else h

/-! ### Promises -/

/-- `resetPromisedStream`. -/
def resetPromisedStream (pushPromiseFrame : Frame) (reason : Http2Error) :
    H Url Device Encoder Decoder :=
  (h.sendRST_STREAM (pushPromiseFrame.word 0) reason).markAsReset (pushPromiseFrame.word 0)

/-- The pseudo headers of a promise, or nothing if one is empty or there twice. -/
def pseudoHeaders (requestHeader : HttpHeader) : Option (AList fun _ : List UInt8 => List UInt8) :=
  requestHeader.foldlM (fun found field =>
    if field.name = HPack.ascii ":scheme" ∨ field.name = HPack.ascii ":path" ∨
        field.name = HPack.ascii ":authority" ∨ field.name = HPack.ascii ":method" then
      if field.value = [] ∨ field.name ∈ found then none
      else some (found.insert field.name field.value)
    else some found) ∅

/-- `QByteArray::compare` with `Qt::CaseInsensitive`. -/
def sameIgnoringCase (a b : List UInt8) : Bool :=
  let lower := fun c : UInt8 => if 0x41 ≤ c ∧ c ≤ 0x5a then c + 0x20 else c
  a.map lower = b.map lower

/-- The URL of a promise, if all that it needs is there. -/
def promisedUrl (requestHeader : HttpHeader) : Option Url := do
  let found ← pseudoHeaders requestHeader
  let scheme ← found.lookup (HPack.ascii ":scheme")
  let authority ← found.lookup (HPack.ascii ":authority")
  let path ← found.lookup (HPack.ascii ":path")
  let method ← found.lookup (HPack.ascii ":method")
  if sameIgnoringCase method (HPack.ascii "get") || sameIgnoringCase method (HPack.ascii "head") then
    o.url scheme authority path
  else none

/-- `tryReserveStream`. Where no stream is associated, `activeStreams[...]` makes one. -/
def tryReserveStream (pushPromiseFrame : Frame) (requestHeader : HttpHeader) :
    H Url Device Encoder Decoder × Bool :=
  let streamID := pushPromiseFrame.streamID
  let reservedID := pushPromiseFrame.word 0
  let h := h.log (.reserving (decide (streamID ∈ h.activeStreams))
    (decide (reservedID ∈ h.activeStreams)) (h.streamWasReset reservedID))
  match promisedUrl o requestHeader with
  | none => (h, false)
  | some url =>
    let h := if streamID ∈ h.activeStreams then h
      else { h.log .undefined with activeStreams := h.activeStreams.insert streamID {} }
    let associatedUrl := (((h.stream streamID).httpPair.map HttpMessagePair.url).getD o.emptyUrl)
    if o.removePath url ≠ o.removePath associatedUrl then (h, false)
    else if url ∈ h.promisedData then (h, false)
    else
      ({ h.log (.opened reservedID) with
        promisedData :=
          h.promisedData.insert url { reservedID := reservedID, pushHeader := requestHeader }
        activeStreams := h.activeStreams.insert reservedID
          { streamID := reservedID
            recvWindow := h.streamInitialReceiveWindowSize
            state := .remoteReserved
            key := some url } }, true)

/-! ### Frames -/

/-- What `handleDATA` does for an active stream. -/
def handleStreamDATA (inboundFrame : Frame) : H Url Device Encoder Decoder :=
  let streamID := inboundFrame.streamID
  let payloadSize : ℤ := inboundFrame.payloadSize.toNat
  if payloadSize > (h.stream streamID).recvWindow then h.abandon streamID .FLOW_CONTROL_ERROR
  else
    let h := h.updateActive streamID fun stream =>
      { stream with recvWindow := stream.recvWindow - payloadSize }
    let h := h.updateStreamData streamID inboundFrame
    if testFlag inboundFrame.flags FrameFlag.END_STREAM then
      (h.finishStream o streamID).deleteActiveStream streamID
    else if (h.stream streamID).recvWindow < h.streamInitialReceiveWindowSize / 2 then
      let delta := h.streamInitialReceiveWindowSize - (h.stream streamID).recvWindow
      (h.invokeSendWINDOW_UPDATE streamID (UInt32.ofInt delta)).updateActive streamID fun stream =>
        { stream with recvWindow := h.streamInitialReceiveWindowSize }
    else h

/-- The end of `handleDATA`. -/
def updateSessionWindow : H Url Device Encoder Decoder :=
  if h.sessionReceiveWindowSize < h.maxSessionReceiveWindowSize / 2 then
    let delta := h.maxSessionReceiveWindowSize - h.sessionReceiveWindowSize
    { h.invokeSendWINDOW_UPDATE connectionStreamID (UInt32.ofInt delta) with
      sessionReceiveWindowSize := h.maxSessionReceiveWindowSize }
  else h

def handleDATA (inboundFrame : Frame) : H Url Device Encoder Decoder :=
  let streamID := inboundFrame.streamID
  let payloadSize : ℤ := inboundFrame.payloadSize.toNat
  if streamID = connectionStreamID then h.connectionError .PROTOCOL_ERROR "DATA on stream 0x0"
  else if streamID ∉ h.activeStreams ∧ h.streamWasReset streamID = false then
    h.connectionError .ENHANCE_YOUR_CALM "DATA on invalid stream"
  else if payloadSize > h.sessionReceiveWindowSize then
    h.connectionError .FLOW_CONTROL_ERROR "Flow control error"
  else
    let h := { h with sessionReceiveWindowSize := h.sessionReceiveWindowSize - payloadSize }
    if streamID ∈ h.activeStreams then (h.handleStreamDATA o inboundFrame).updateSessionWindow
    else h.updateSessionWindow

def handlePRIORITY (inboundFrame : Frame) : H Url Device Encoder Decoder :=
  let streamID := inboundFrame.streamID
  if streamID = connectionStreamID then h.connectionError .PROTOCOL_ERROR "PIRORITY on 0x0 stream"
  else if streamID ∉ h.activeStreams ∧ h.streamWasReset streamID = false then
    h.connectionError .ENHANCE_YOUR_CALM "PRIORITY on invalid stream"
  else h

/-- `handleContinuedHEADERS` behind the checks of the stream. -/
def handleHpackBlock (first : Frame) : H Url Device Encoder Decoder :=
  let streamID := first.streamID
  let hpackBlock := assemble_hpack_block h.continuedFrames
  let hasHeaderFields := hpackBlock ≠ []
  if ¬hasHeaderFields ∧ first.type = .PUSH_PROMISE then
    h.resetPromisedStream first .PROTOCOL_ERROR
  else
    let (decoder, header) :=
      if hasHeaderFields then o.decodeHeaderFields h.decoder hpackBlock else (h.decoder, some [])
    let h := if hasHeaderFields then { h.log (.decoded hpackBlock) with decoder := decoder } else h
    match header with
    | none => h.connectionError .COMPRESSION_ERROR "HPACK decompression failed"
    | some header => match first.type with
      | .HEADERS =>
        if streamID ∈ h.activeStreams then
          let h := if hasHeaderFields then h.updateStreamHeaders o streamID header else h
          if testFlag first.flags FrameFlag.END_STREAM ||
              (h.stream streamID).needResendWithCredentials then
            (h.finishStream o streamID).deleteActiveStream streamID
          else h
        else h
      | .PUSH_PROMISE =>
        let (h, ok) := h.tryReserveStream o first header
        if ok then h else h.resetPromisedStream first .PROTOCOL_ERROR
      | _ => h

def handleContinuedHEADERS : H Url Device Encoder Decoder :=
  match h.continuedFrames with
  | [] => h
  | first :: _ =>
    let streamID := first.streamID
    if first.type = .HEADERS then
      if streamID ∈ h.activeStreams then
        let state := (h.stream streamID).state
        if state ≠ .halfClosedLocal ∧ state ≠ .remoteReserved ∧ state ≠ .open then
          h.abandon streamID .CANCEL
        else h.handleHpackBlock o first
      else if h.streamWasReset streamID = false then
        h.connectionError .PROTOCOL_ERROR "HEADERS on invalid stream"
      else h.handleHpackBlock o first
    else h.handleHpackBlock o first

/-- The first frame of a header sequence is kept, and handled if it is the last one, too. -/
def startHeaders (inboundFrame : Frame) : H Url Device Encoder Decoder :=
  let h := { h with continuedFrames := [inboundFrame] }
  if testFlag inboundFrame.flags FrameFlag.END_HEADERS then h.handleContinuedHEADERS o
  else { h with continuationExpected := true }

def handleHEADERS (inboundFrame : Frame) : H Url Device Encoder Decoder :=
  let streamID := inboundFrame.streamID
  if streamID = connectionStreamID then h.connectionError .PROTOCOL_ERROR "HEADERS on 0x0 stream"
  else if streamID ∉ h.activeStreams ∧ h.streamWasReset streamID = false then
    h.connectionError .ENHANCE_YOUR_CALM "HEADERS on invalid stream"
  else if testFlag inboundFrame.flags FrameFlag.PRIORITY then
    let h := h.handlePRIORITY inboundFrame
    if h.goingAway then h else h.startHeaders o inboundFrame
  else h.startHeaders o inboundFrame

def handleRST_STREAM (inboundFrame : Frame) : H Url Device Encoder Decoder :=
  let streamID := inboundFrame.streamID
  if streamID = connectionStreamID then h.connectionError .PROTOCOL_ERROR "RST_STREAM on 0x0"
  else if streamID &&& 1 = 0 then h
  else if streamID ≥ h.nextID then h.connectionError .PROTOCOL_ERROR "RST_STREAM on idle stream"
  else if streamID ∉ h.activeStreams then h
  else ((h.finishStreamWithError streamID).markAsReset streamID).deleteActiveStream streamID

/-- `16 * HPack::FieldLookupTable::DefaultSize`. -/
def maxAcceptableTableSize : UInt32 := 65536

/-- The streams are adjusted to a new initial window, one after the other, and the IDs of those
whose window does not fit are collected. -/
def adjustWindows (delta : ℤ) :
    List UInt32 → H Url Device Encoder Decoder → H Url Device Encoder Decoder × List UInt32
  | [], h => (h, [])
  | id :: ids, h =>
    if sum_will_overflow (h.stream id).sendWindow delta then
      let (h, broken) := adjustWindows delta ids h
      (h, id :: broken)
    else adjustWindows delta ids
      (h.updateActive id fun stream => { stream with sendWindow := stream.sendWindow + delta })

def setInitialWindowSize (newValue : ℤ) : H Url Device Encoder Decoder :=
  { h.log (.initialWindow newValue) with streamInitialSendWindowSize := newValue }

/-- Streams that can not be adjusted are reset. -/
def acceptInitialWindowSize (newValue : ℤ) : H Url Device Encoder Decoder :=
  let delta := newValue - h.streamInitialSendWindowSize
  let h := h.setInitialWindowSize newValue
  let (h, brokenStreams) := adjustWindows delta h.activeStreams.keys h
  brokenStreams.foldl (fun h id => h.abandon id .PROTOCOL_ERROR) h

/-- Whether the setting is accepted. -/
def acceptSetting (identifier : UInt16) (newValue : UInt32) : H Url Device Encoder Decoder × Bool :=
  match identifier.toNat with
  | 1 =>
    if newValue > maxAcceptableTableSize then
      (h.connectionError .PROTOCOL_ERROR "SETTINGS invalid table size", false)
    else ({ h with encoder := o.setMaxDynamicTableSize h.encoder newValue }, true)
  | 3 => ({ h with maxConcurrentStreams := newValue }, true)
  | 4 =>
    if (newValue.toNat : ℤ) > qint32Max then
      (h.connectionError .FLOW_CONTROL_ERROR "SETTINGS invalid initial window size", false)
    else (h.acceptInitialWindowSize newValue.toNat, true)
  | 5 =>
    if newValue < minPayloadLimit ∨ newValue > maxPayloadSize then
      (h.connectionError .PROTOCOL_ERROR "SETTINGS max frame size is out of range", false)
    else ({ h with maxFrameSize := newValue }, true)
  | 6 => ({ h with maxHeaderListSize := newValue }, true)
  | _ => (h, true)

/-- The loop of `handleSETTINGS` over the values, six bytes each. -/
def acceptSettings : List UInt8 → H Url Device Encoder Decoder → H Url Device Encoder Decoder × Bool
  | a :: b :: c :: d :: e :: f :: rest, h =>
    let (h, ok) := h.acceptSetting o (qFromBigEndian16 [a, b]) (qFromBigEndian32 [c, d, e, f])
    if ok then acceptSettings rest h else (h, false)
  | _, h => (h, true)

def handleSETTINGS (inboundFrame : Frame) : H Url Device Encoder Decoder :=
  if inboundFrame.streamID ≠ connectionStreamID then
    h.connectionError .PROTOCOL_ERROR "SETTINGS on invalid stream"
  else if testFlag inboundFrame.flags FrameFlag.ACK then
    if h.waitingForSettingsACK then { h with waitingForSettingsACK := false }
    else h.connectionError .PROTOCOL_ERROR "unexpected SETTINGS ACK"
  else
    let (h, ok) := acceptSettings o inboundFrame.data h
    if ok then h.sendSETTINGS_ACK else h

/-- A promise that is refused is decoded like others. -/
def refusePromise (inboundFrame : Frame) : H Url Device Encoder Decoder :=
  if h.pushPromiseEnabled then h
  else (h.log (.refused (inboundFrame.word 0))).resetPromisedStream inboundFrame .REFUSE_STREAM

def handlePUSH_PROMISE (inboundFrame : Frame) : H Url Device Encoder Decoder :=
  let streamID := inboundFrame.streamID
  let reservedID := inboundFrame.word 0
  if !h.pushPromiseEnabled && h.prefaceSent && !h.waitingForSettingsACK then
    h.connectionError .PROTOCOL_ERROR "unexpected PUSH_PROMISE frame"
  else if streamID = connectionStreamID then
    h.connectionError .PROTOCOL_ERROR "PUSH_PROMISE with invalid associated stream (0x0)"
  else if streamID ∉ h.activeStreams ∧ h.streamWasReset streamID = false then
    h.connectionError .ENHANCE_YOUR_CALM "PUSH_PROMISE with invalid associated stream"
  else if reservedID &&& 1 ≠ 0 ∨ reservedID ≤ h.lastPromisedID ∨ reservedID > lastValidStreamID then
    h.connectionError .PROTOCOL_ERROR "PUSH_PROMISE with invalid promised stream ID"
  else
    ({ h with lastPromisedID := reservedID }.refusePromise inboundFrame).startHeaders o inboundFrame

def handlePING (inboundFrame : Frame) : H Url Device Encoder Decoder :=
  if inboundFrame.streamID ≠ connectionStreamID then
    h.connectionError .PROTOCOL_ERROR "PING on invalid stream"
  else if testFlag inboundFrame.flags FrameFlag.ACK then
    h.connectionError .PROTOCOL_ERROR "unexpected PING ACK"
  else (h.write (.pingAck (inboundFrame.data.take 8))).1

/-- The loop of `handleGOAWAY` over the IDs of requests. -/
def finishFrom : ℕ → UInt32 → H Url Device Encoder Decoder → H Url Device Encoder Decoder
  | 0, _, h => h
  | rounds + 1, id, h =>
    if id < h.nextID then
      finishFrom rounds (id + 2)
        (if id ∈ h.activeStreams then
          ((h.finishStreamWithError id).markAsReset id).deleteActiveStream id
        else h.removeFromSuspended id)
    else h

/-- `handleGOAWAY` behind the checks, with the first ID that the peer has not processed. -/
def goAway (lastStreamID : UInt32) : H Url Device Encoder Decoder :=
  let h := { h with goingAway := true, h2RequestsToSend := [] }
  let h := finishFrom (h.nextID.toNat - lastStreamID.toNat) lastStreamID h
  if h.activeStreams.keys = [] then h.closeSession else h

def handleGOAWAY (inboundFrame : Frame) : H Url Device Encoder Decoder :=
  let lastStreamID := inboundFrame.word 0
  let errorCode := inboundFrame.word 4
  if inboundFrame.streamID ≠ connectionStreamID then
    h.connectionError .PROTOCOL_ERROR "GOAWAY on invalid stream"
  else if lastStreamID = 0 then h.goAway 1
  else if lastStreamID &&& 1 = 0 then
    h.connectionError .PROTOCOL_ERROR "GOAWAY with invalid last stream ID"
  else if lastStreamID ≥ h.nextID then
    if lastStreamID ≠ lastValidStreamID ∨ errorCode ≠ 0 then
      h.connectionError .PROTOCOL_ERROR "GOAWAY invalid stream/error code"
    else h.goAway lastStreamID
  else h.goAway (lastStreamID + 2)

def handleWINDOW_UPDATE (inboundFrame : Frame) : H Url Device Encoder Decoder :=
  let delta : ℤ := (inboundFrame.word 0).toNat
  let valid := delta ≠ 0 ∧ delta ≤ qint32Max
  let streamID := inboundFrame.streamID
  if streamID = connectionStreamID then
    if ¬valid ∨ sum_will_overflow h.sessionSendWindowSize delta = true then
      h.connectionError .PROTOCOL_ERROR "WINDOW_UPDATE invalid delta"
    else { h with sessionSendWindowSize := h.sessionSendWindowSize + delta }
  else if streamID ∉ h.activeStreams then h
  else if ¬valid ∨ sum_will_overflow (h.stream streamID).sendWindow delta = true then
    h.abandon streamID .PROTOCOL_ERROR
  else h.updateActive streamID fun stream => { stream with sendWindow := stream.sendWindow + delta }

/-- Without a frame before it, `front` has no meaning. -/
def handleCONTINUATION (inboundFrame : Frame) : H Url Device Encoder Decoder :=
  match h.continuedFrames with
  | [] => h.log .undefined
  | front :: _ =>
    if inboundFrame.streamID ≠ front.streamID then
      h.connectionError .PROTOCOL_ERROR "CONTINUATION on invalid stream"
    else
      let h := { h with continuedFrames := h.continuedFrames ++ [inboundFrame] }
      if testFlag inboundFrame.flags FrameFlag.END_HEADERS then
        { h with continuationExpected := false }.handleContinuedHEADERS o
      else h

/-- The branches of `_q_receiveReply`. -/
def handleFrame (inboundFrame : Frame) : H Url Device Encoder Decoder :=
  match inboundFrame.type with
  | .DATA => h.handleDATA o inboundFrame
  | .HEADERS => h.handleHEADERS o inboundFrame
  | .PRIORITY => h.handlePRIORITY inboundFrame
  | .RST_STREAM => h.handleRST_STREAM inboundFrame
  | .SETTINGS => h.handleSETTINGS o inboundFrame
  | .PUSH_PROMISE => h.handlePUSH_PROMISE o inboundFrame
  | .PING => h.handlePING inboundFrame
  | .GOAWAY => h.handleGOAWAY inboundFrame
  | .WINDOW_UPDATE => h.handleWINDOW_UPDATE inboundFrame
  | .CONTINUATION => h.handleCONTINUATION o inboundFrame
  | .LAST_FRAME_TYPE => h

/-- Whether the loop of `_q_receiveReply` goes on. -/
def receiving : Bool := !h.goingAway || h.activeStreams.keys ≠ []

/-- A round of `_q_receiveReply` with a good frame. -/
def receiveFrame (inboundFrame : Frame) : H Url Device Encoder Decoder :=
  if !h.receiving then h
  else
    let h := h.log (.received inboundFrame)
    if h.continuationExpected && inboundFrame.type ≠ .CONTINUATION then
      h.connectionError .PROTOCOL_ERROR "CONTINUATION expected"
    else h.handleFrame o inboundFrame

/-- A round of `_q_receiveReply` without one. -/
def receiveBadFrame (status : FrameStatus) : H Url Device Encoder Decoder :=
  if !h.receiving then h
  else match status with
    | .protocolError => h.connectionError .PROTOCOL_ERROR "invalid frame"
    | .sizeError => h.connectionError .FRAME_SIZE_ERROR "invalid frame size"
    | _ => h

/-! ### Requests -/

/-- `sendHEADERS`. -/
def sendHEADERS (streamID : UInt32) : H Url Device Encoder Decoder × Bool :=
  let h := h.updateActive streamID fun stream =>
    { stream.updatePair fun pair => { pair with
        needResendWithCredentials := pair.needResendWithCredentials && !pair.withCredentials } with
      state := if stream.data.isSome then .open else .halfClosedLocal }
  match (h.stream streamID).httpPair with
  | none => (h, false)
  | some pair =>
    let (encoder, block) := o.encodeRequest h.encoder pair h.maxHeaderListSize
    let h := { h with encoder := encoder }
    match block with
    | none => (h, false)
    | some block => h.writeHEADERS streamID (5 + block.length)

/-- The stream of a promise gets its request. It is made again if it has ended already. -/
def takePromisedStream (reservedID : UInt32) (message : HttpMessagePair Url Device) :
    H Url Device Encoder Decoder :=
  if reservedID ∈ h.activeStreams then
    h.updateActive reservedID fun stream => { stream with httpPair := some message }
  else
    { h.log (.opened reservedID) with
      activeStreams := h.activeStreams.insert reservedID
        { httpPair := some message
          streamID := reservedID
          sendWindow := h.streamInitialSendWindowSize
          recvWindow := h.streamInitialReceiveWindowSize
          state := .halfClosedLocal } }

/-- What came for a promise before the request. -/
def replayPromise (promise : PushPromise) : H Url Device Encoder Decoder :=
  let h := if promise.responseHeader ≠ [] then
    h.updateStreamHeaders o promise.reservedID promise.responseHeader else h
  promise.dataFrames.foldl (fun h frame => h.updateStreamData promise.reservedID frame) h

def initReplyFromPushPromise (message : HttpMessagePair Url Device) :
    H Url Device Encoder Decoder :=
  match h.promisedData.lookup message.url with
  | none => h
  | some promise =>
    let h := { h with promisedData := h.promisedData.erase message.url }
    let replied := (h.takePromisedStream promise.reservedID message).replayPromise o promise
    if promise.reservedID ∈ h.activeStreams then replied
    else (replied.finishStream o promise.reservedID).deleteActiveStream promise.reservedID

/-- The loop of `sendRequest` over what was promised: the requests that have to be sent are kept. -/
def usePromises : List (HttpMessagePair Url Device) → H Url Device Encoder Decoder →
    H Url Device Encoder Decoder × List (HttpMessagePair Url Device)
  | [], h => (h, [])
  | message :: messages, h =>
    if message.url ∈ h.promisedData then usePromises messages (h.initReplyFromPushPromise o message)
    else
      let (h, kept) := usePromises messages h
      (h, message :: kept)

/-- What `sendRequest` does for one request. -/
def startRequest (streamID : UInt32) : H Url Device Encoder Decoder :=
  let (h, ok) := h.sendHEADERS o streamID
  if !ok then (h.finishStreamWithError streamID).deleteActiveStream streamID
  else if (h.stream streamID).data.isSome then
    let (h, ok) := h.sendDATA o streamID
    if ok then h else h.abandon streamID .INTERNAL_ERROR
  else h

/-- The last loop of `sendRequest`. -/
def startRequests : ℕ → H Url Device Encoder Decoder → H Url Device Encoder Decoder
  | 0, h => h
  | rounds + 1, h => match h.h2RequestsToSend with
    | [] => h
    | message :: rest =>
      let (h, newStreamID) := h.createNewStream message
      if newStreamID = 0 then h
      else startRequests rounds ({ h with h2RequestsToSend := rest }.startRequest o newStreamID)

def sendRequest : H Url Device Encoder Decoder :=
  if h.goingAway then { h with h2RequestsToSend := [] }
  else
    let requests := h.h2RequestsToSend.filter fun message => !message.preconnect
    let onlyPreconnects := requests = [] ∧ h.h2RequestsToSend ≠ []
    let h := { h with h2RequestsToSend := requests }
    if onlyPreconnects then h
    else
      let (h, ok) := h.sendClientPreface
      if !ok then h
      else
        let (h, kept) := usePromises o requests { h with h2RequestsToSend := [] }
        let h := { h with h2RequestsToSend := kept ++ h.h2RequestsToSend }
        let streamsToUse := min (h.maxConcurrentStreams.toNat - h.activeStreams.keys.length)
          h.h2RequestsToSend.length
        startRequests o streamsToUse h

/-- `handleConnectionClosure`, when no frames are left. -/
def handleConnectionClosure : H Url Device Encoder Decoder :=
  { h with activeStreams := ∅, goingAway := true }

/-! ### Runs -/

/-- What can happen to the handler. -/
inductive Event (Url Device : Type)
  | frame (inboundFrame : Frame)
  | badFrame (status : FrameStatus)
  | newRequest (message : HttpMessagePair Url Device)
  | sendRequest
  | uploadDataReadyRead (streamID : UInt32)
  | replyDestroyed (streamID : UInt32)
  | resumeSuspendedStreams (rounds : ℕ)
  | ensureClientPrefaceSent
  /-- The first of the queued calls. -/
  | sendWINDOW_UPDATE
  | connectionClosure

def step : Event Url Device → H Url Device Encoder Decoder
  | .frame inboundFrame => h.receiveFrame o inboundFrame
  | .badFrame status => h.receiveBadFrame status
  | .newRequest message => { h with h2RequestsToSend := h.h2RequestsToSend ++ [message] }
  | .sendRequest => h.sendRequest o
  | .uploadDataReadyRead streamID =>
    -- A device belongs to a stream that was opened for a request.
    if streamID ∈ h.activeStreams ∧ streamID &&& 1 = 1 then h.uploadDataReadyRead o streamID else h
  | .replyDestroyed streamID => h.replyDestroyed streamID
  | .resumeSuspendedStreams rounds => resumeSuspendedStreams o rounds h
  | .ensureClientPrefaceSent => h.ensureClientPrefaceSent
  | .sendWINDOW_UPDATE => match h.invocations with
    | [] => h
    | (streamID, delta) :: rest => ({ h with invocations := rest }.sendWINDOW_UPDATE streamID delta).1
  | .connectionClosure => h.handleConnectionClosure

/-- The handler of a new connection, and the request that was upgraded from HTTP/1.1, if any. -/
def start (config : QHttp2Configuration) (encoder : Encoder) (decoder : Decoder) (socket : ℕ)
    (upgraded : Option (HttpMessagePair Url Device)) : H Url Device Encoder Decoder :=
  let h : H Url Device Encoder Decoder :=
    { config := config
      decoder := decoder
      encoder := encoder
      maxSessionReceiveWindowSize := config.sessionWindowSize
      streamInitialReceiveWindowSize := config.streamWindowSize
      pushPromiseEnabled := config.pushEnabled
      socket := socket }
  match upgraded with
  | none => h
  | some message =>
    let (h, initialStreamID) := h.createNewStream message
    h.updateActive initialStreamID fun stream => { stream with state := .halfClosedLocal }

/-- A run: what the handler asks for may be different at each step. -/
def run (events : List (Outside Url Device Encoder Decoder × Event Url Device)) :
    H Url Device Encoder Decoder :=
  events.foldl (fun h e => h.step e.1 e.2) h

/-- A condition on the state before each step of a run, and on what happens. -/
def Throughout
    (P : Outside Url Device Encoder Decoder → H Url Device Encoder Decoder → Event Url Device → Prop) :
    H Url Device Encoder Decoder → List (Outside Url Device Encoder Decoder × Event Url Device) →
    Prop
  | _, [] => True
  | h, e :: events => P e.1 h e.2 ∧ Throughout P (h.step e.1 e.2) events

end Handler

/-! ### A plain environment -/

/-- `QNonContiguousByteDeviceByteArrayImpl`, without its bytes. -/
structure ByteArrayDevice where
  size : ℤ
  currentPosition : ℤ := 0

namespace ByteArrayDevice

def atEnd (d : ByteArrayDevice) : Bool := d.currentPosition ≥ d.size

def readPointer (d : ByteArrayDevice) (maximumLength : ℤ) : ByteArrayDevice × Bool × ℤ :=
  if d.atEnd then (d, false, -1)
  else if maximumLength ≠ -1 then (d, true, min maximumLength (d.size - d.currentPosition))
  else (d, true, d.size - d.currentPosition)

def advanceReadPointer (d : ByteArrayDevice) (amount : ℤ) : ByteArrayDevice :=
  { d with currentPosition := d.currentPosition + amount }

def reset (d : ByteArrayDevice) : ByteArrayDevice := { d with currentPosition := 0 }

end ByteArrayDevice

/-- All requests are for one URL. What the header blocks say is given. -/
def plainOutside (decode : List UInt8 → Option HttpHeader) :
    Outside Unit ByteArrayDevice Unit Unit where
  readPointer := ByteArrayDevice.readPointer
  advanceReadPointer := ByteArrayDevice.advanceReadPointer
  atEnd := ByteArrayDevice.atEnd
  reset := ByteArrayDevice.reset
  encodeRequest := fun encoder _ _ => (encoder, some [0x82])
  setMaxDynamicTableSize := fun encoder _ => encoder
  decodeHeaderFields := fun decoder block => (decoder, decode block)
  url := fun _ _ _ => some ()
  emptyUrl := ()
  removePath := id
  toStatusCode := fun status => if status = HPack.ascii "200" then 200 else 0
  parseRedirectResponse := fun _ _ => false
  handleAuthenticateChallenge := fun _ => .noChallenge
  readPointer_len := by
    intro d max h0 h1
    rw [ByteArrayDevice.readPointer]
    split
    · simp
    · rename_i hend
      rw [ByteArrayDevice.atEnd, decide_eq_true_iff] at hend
      split <;> dsimp only <;> omega

end Http2

end QtBase
